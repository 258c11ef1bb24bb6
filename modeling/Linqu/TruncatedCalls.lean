import Linqu.NodeDaemon
import Linqu.RoundTrip
import Linqu.BufferReads

/-!
# Truncated calls

What is left of an encoded CALL_TASK when it is cut. A cut before the end of
the name gives the empty call; one in the ten bytes after it is read past; one
in the parameters gives a call with the same name and the parameters that are
still there.
-/

set_option autoImplicit false

namespace Linqu.TruncatedCalls
open Linqu.Bytes Linqu.MsgTypes Linqu.RoundTrip Linqu.BufferReads Linqu.NodeDaemon

theorem callFields_eq (name : List UInt8) (tid : UInt32) (sd : UInt16) (np : UInt32)
    {tail : List UInt8} {params : List ParamEntry} (h : readParams np.toNat tail = some params) :
    callFields name (toBytes 4 tid.toNat++(toBytes 2 sd.toNat++(toBytes 4 np.toNat++tail))) =
      some { kernelSoName := name, taskId := tid, scopeDepth := sd, numParams := np, params } := by
  simp [callFields, h]

section Cut

variable {p : CallTaskPayload} {m : ℕ}

theorem length_callBytes (p : CallTaskPayload) :
    (callBytes p).length = 14+p.kernelSoName.length+17*p.params.length := by
  simp only [callBytes, List.length_append, length_toBytes, length_entries]
  omega

theorem nameLen_cut (h : p.kernelSoName.length < 2^32) (hm : 4 ≤ m) :
    nameLen ((callBytes p).take m) = p.kernelSoName.length := by
  rw [nameLen, List.take_take, Nat.min_eq_left hm, callBytes, List.take_left' (by simp),
    ofBytes_toBytes]
  exact Nat.mod_eq_of_lt h

/-- What comes after the name, when the cut is in the parameters. -/
theorem drop_cut (hm : 14+p.kernelSoName.length ≤ m) :
    ((callBytes p).take m).drop (4+p.kernelSoName.length) = toBytes 4 p.taskId.toNat++
      (toBytes 2 p.scopeDepth.toNat++(toBytes 4 p.numParams.toNat++
        (p.params.map ParamEntry.bytes).flatten.take (m-14-p.kernelSoName.length))) := by
  have hdrop : (callBytes p).drop (4+p.kernelSoName.length) =
      (toBytes 4 p.taskId.toNat++(toBytes 2 p.scopeDepth.toNat++toBytes 4 p.numParams.toNat))++
        (p.params.map ParamEntry.bytes).flatten := by
    rw [callBytes, ← List.append_assoc, List.drop_left' (by simp)]
    simp
  rw [List.drop_take, hdrop, List.take_append, List.take_of_length_le (by simp; omega)]
  have hrest : m-(4+p.kernelSoName.length)-(4+(2+4)) = m-14-p.kernelSoName.length := by omega
  simp only [List.length_append, length_toBytes, List.append_assoc, hrest]

theorem name_cut (hm : 4+p.kernelSoName.length ≤ m) :
    (((callBytes p).take m).drop 4).take p.kernelSoName.length = p.kernelSoName := by
  rw [List.drop_take, List.take_take, Nat.min_eq_left (by omega), callBytes,
    List.drop_left' (by simp), List.take_left' rfl]

/-- The decoder on the first bytes of a call. -/
theorem deserialize_cut (h : p.kernelSoName.length < 2^32)
    (hn : p.numParams.toNat = p.params.length) (hm : m ≤ (callBytes p).length) :
    CallTaskPayload.deserialize ((callBytes p).take m) =
      if m < 14 ∨ m < 4+p.kernelSoName.length then some {}
      else if m < 14+p.kernelSoName.length then none
      else some { p with params := p.params.take ((m-14-p.kernelSoName.length)/17) } := by
  have hlen : ((callBytes p).take m).length = m := by
    rw [List.length_take]
    exact Nat.min_eq_left hm
  by_cases hshort : m < 14
  · rw [CallTaskPayload.deserialize, hlen, if_pos hshort, if_pos (Or.inl hshort)]
  · rw [call_task_eq (by omega), nameLen_cut h (by omega), hlen]
    by_cases hname : m < 4+p.kernelSoName.length
    · rw [if_neg (by omega), if_pos (Or.inr hname)]
    · rw [if_pos (by omega), if_neg (by omega)]
      by_cases hfix : m < 14+p.kernelSoName.length
      · rw [if_pos hfix, ← Option.not_isSome_iff_eq_none, callFields_isSome_iff, List.length_drop,
          hlen]
        omega
      · rw [if_neg hfix, name_cut (by omega), drop_cut (by omega)]
        apply callFields_eq
        rw [readParams_take, hn]
        congr 2
        rw [length_callBytes] at hm
        omega

end Cut

/-- No kernel runs with fewer arguments than the call has. -/
def RunsInFull (p : CallTaskPayload) (b : List UInt8) : Prop :=
  ∀ (loaded : List UInt8 → Bool) (out : CallOutcome) (run : KernelRun), loaded [] = false →
    handleCallTask loaded b = some out → out.run = some run → p.params.length ≤ run.args.length

theorem runsInFull_of_empty {p : CallTaskPayload} {b : List UInt8}
    (h : CallTaskPayload.deserialize b = some {}) : RunsInFull p b := by
  intro loaded out run hload hout hrun
  rw [handleCallTask, h] at hout
  simp only [Option.bind_eq_bind, Option.bind_some, hload, Option.pure_def, Option.some.injEq,
    Bool.false_eq_true, if_false] at hout
  rw [← hout] at hrun
  cases hrun

theorem serialize_eq {p : CallTaskPayload} {bytes : List UInt8}
    (hn : p.numParams.toNat = p.params.length) (h : p.kernelSoName.length < 2^32)
    (hs : p.serialize = some bytes) : bytes = callBytes p := by
  by_cases hfit : p.kernelSoName.length+14 < 2^32
  · rw [call_task_fits hn hfit] at hs
    exact (Option.some.inj hs).symm
  · rw [call_task_overflows h (by omega)] at hs
    cases hs

/-- A proper prefix of an encoded call is decoded to the empty call, and no
kernel is run for it with fewer arguments, exactly when the cut is in the
first fourteen bytes or before the end of the name. -/
theorem truncated_call_iff {p : CallTaskPayload} {bytes b : List UInt8}
    (hn : p.numParams.toNat = p.params.length) (h : p.kernelSoName.length < 2^32)
    (hs : p.serialize = some bytes) (hpre : b <+: bytes) (hcut : b ≠ bytes) :
    (CallTaskPayload.deserialize b = some {} ∧ RunsInFull p b) ↔
      b.length < 14 ∨ b.length < 4+p.kernelSoName.length := by
  obtain rfl := serialize_eq hn h hs
  have hb : b = (callBytes p).take b.length := List.prefix_iff_eq_take.mp hpre
  have hlt : b.length < (callBytes p).length := by
    apply lt_of_le_of_ne hpre.length_le
    intro heq
    exact hcut (hpre.eq_of_length heq)
  have hdes := deserialize_cut h hn hlt.le
  rw [← hb] at hdes
  by_cases hshort : b.length < 14 ∨ b.length < 4+p.kernelSoName.length
  · rw [if_pos hshort] at hdes
    exact iff_of_true ⟨hdes,runsInFull_of_empty hdes⟩ hshort
  · rw [if_neg hshort] at hdes
    apply iff_of_false _ hshort
    rintro ⟨hempty,-⟩
    rw [hempty] at hdes
    by_cases hfix : b.length < 14+p.kernelSoName.length
    · rw [if_pos hfix] at hdes
      cases hdes
    · rw [if_neg hfix] at hdes
      -- a parameter is missing, so that the count is not zero
      have hnum : (0 : UInt32) = p.numParams :=
        congrArg CallTaskPayload.numParams (Option.some.inj hdes)
      rw [length_callBytes, ← hn, ← hnum] at hlt
      exact hfix hlt

/-- A call of a kernel with two scalars. -/
def addCall : CallTaskPayload :=
  { kernelSoName := [97,100,100], taskId := 1, numParams := 2, params := [⟨3,0,5⟩,⟨3,0,7⟩] }

/-- Without its last byte, it runs the kernel with one argument. -/
theorem truncated_call_runs : ∃ bytes, addCall.serialize = some bytes ∧
    (handleCallTask (fun name => name = [97,100,100]) bytes.dropLast).map CallOutcome.run =
      some (some { kernelSo := [97,100,100], tensors := 0, args := [5] }) := by
  refine ⟨callBytes addCall,?_,?_⟩ <;> decide

theorem truncated_call_iff_name : CallTaskPayload.deserialize [0,0,0,3,97] = some {} ∧
    ¬ CallTaskPayload.deserialize (callBytes addCall).dropLast = some {} := by
  have hs : addCall.serialize = some (callBytes addCall) := by decide
  have hname := truncated_call_iff (p := addCall) rfl (by decide) hs
    (b := [0,0,0,3,97]) (by decide) (by decide)
  have hparam := truncated_call_iff (p := addCall) rfl (by decide) hs
    (List.dropLast_prefix _) (by decide)
  apply And.intro (hname.mpr (by decide)).1
  intro hd
  have hmore := hparam.mp ⟨hd,runsInFull_of_empty hd⟩
  revert hmore
  decide

end Linqu.TruncatedCalls
