import Linqu.Payloads

/-!
# Loads inside the buffer

Every decoder but one stays inside its buffer, whatever the bytes are. The
length of the name in a CALL_TASK is compared with all that is left, while ten
bytes more are read after the name.
-/

set_option autoImplicit false

namespace Linqu.BufferReads
open Linqu.Bytes Linqu.MsgTypes

/-- All loads of the decoder are inside of the buffer. -/
def InBounds (t : PayloadType) (data : List UInt8) : Prop :=
  (Payload.deserialize t data).isSome = true

instance (t : PayloadType) (data : List UInt8) : Decidable (InBounds t data) :=
  inferInstanceAs (Decidable (_ = true))

/-- The length that a CALL_TASK gives for its name. -/
def nameLen (data : List UInt8) : ℕ := ofBytes (data.take 4)

section Decoders

variable {data : List UInt8}

/-- A field of a known width, and what comes after it. -/
theorem next_isSome_iff {α : Type} {w : ℕ} {f : ℕ × List UInt8 → Option α} :
    ((readNat w data).bind f).isSome ↔
      w ≤ data.length ∧ (f (ofBytes (data.take w),data.drop w)).isSome := by
  by_cases h : w ≤ data.length
  · rw [readNat_of_le h, Option.bind_some]
    simp [h]
  · rw [readNat_of_lt (not_le.mp h)]
    simp [h]

theorem next_isSome {α : Type} {w : ℕ} {f : ℕ × List UInt8 → Option α} (h : w ≤ data.length)
    (hf : (f (ofBytes (data.take w),data.drop w)).isSome) : ((readNat w data).bind f).isSome :=
  next_isSome_iff.mpr ⟨h,hf⟩

/-- A part whose loads are checked by itself. -/
theorem part_isSome {α β : Type} {o : Option α} {f : α → Option β} (ho : o.isSome)
    (hf : ∀ a, (f a).isSome) : (o.bind f).isSome := by
  obtain ⟨a,ha⟩ := Option.isSome_iff_exists.mp ho
  rw [ha]
  exact hf a

/-- The check of the length before any load. -/
theorem checked_isSome {α : Type} {c : Prop} [Decidable c] {a : α} {o : Option α}
    (h : ¬ c → o.isSome) : (if c then some a else o).isSome := by
  by_cases hc : c
  · simp [hc]
  · simpa [hc] using h hc

theorem readBlob_isSome (h : 4 ≤ data.length) : (readBlob data).isSome := by
  apply next_isSome h
  by_cases hsz : ofBytes (data.take 4) ≤ (data.drop 4).length
  · simp only [hsz, if_true, read_of_le hsz]
    rfl
  · simp only [hsz, if_false]
    rfl

theorem readString_isSome (data : List UInt8) : (readString data).isSome := by
  rw [readString]
  by_cases h : 4 ≤ data.length
  · rw [if_pos h]
    apply next_isSome h
    by_cases hnl : ofBytes (data.take 4) ≤ (data.drop 4).length
    · simp only [hnl, if_true, read_of_le hnl]
      rfl
    · simp only [hnl, if_false]
      rfl
  · rw [if_neg h]
    rfl

theorem read_entry_isSome (h : 17 ≤ data.length) : (ParamEntry.read data).isSome := by
  apply next_isSome (by omega)
  apply next_isSome (by simp; omega)
  apply next_isSome (by simp; omega)
  rfl

theorem readParams_isSome (n : ℕ) (data : List UInt8) : (readParams n data).isSome := by
  induction n generalizing data with
  | zero => rfl
  | succ n ih =>
    rw [readParams]
    by_cases h : data.length < 17
    · rw [if_pos h]
      rfl
    · rw [if_neg h]
      apply part_isSome (read_entry_isSome (not_lt.mp h))
      intro r
      apply part_isSome (ih r.2)
      intro es
      rfl

theorem take_four {off : ℕ} (h : off+4 ≤ data.length) : (data.drop off).take 4 =
    [data.getD off 0,data.getD (off+1) 0,data.getD (off+2) 0,data.getD (off+3) 0] := by
  apply List.ext_getElem
  · simp
    omega
  · intro i hi hi'
    have hlt : i < 4 := by simpa using hi'
    rw [List.getElem_take, List.getElem_drop, List.getElem_eq_getD 0]
    interval_cases i <;> rfl

/-- It is the decoder in the model of the dispatcher. -/
theorem task_complete_read (data : List UInt8) :
    TaskCompletePayload.read data = some (TaskCompletePayload.deserialize data) := by
  rw [TaskCompletePayload.read, TaskCompletePayload.deserialize]
  by_cases h : data.length < 8
  · rw [if_pos h, if_pos h]
  · have hid := take_four (show 0+4 ≤ data.length by omega)
    have hst := take_four (show 4+4 ≤ data.length by omega)
    rw [List.drop_zero] at hid
    rw [if_neg h, if_neg h, ntohl_eq, ntohl_eq, ← hid, ← hst, readNat_of_le (by omega)]
    show (readNat 4 (data.drop 4)).bind _ = _
    rw [readNat_of_le (by rw [List.length_drop]; omega)]
    rfl

theorem shutdown_in_bounds (data : List UInt8) : (ShutdownPayload.deserialize data).isSome := by
  rw [ShutdownPayload.deserialize, ← ite_not]
  apply checked_isSome
  intro h
  apply next_isSome (not_not.mp h)
  rfl

theorem reg_code_in_bounds (data : List UInt8) : (RegCodePayload.deserialize data).isSome := by
  rw [RegCodePayload.deserialize]
  apply checked_isSome
  intro h
  apply next_isSome (by omega)
  apply part_isSome (readBlob_isSome (by simp; omega))
  intro blob
  rfl

theorem reg_data_in_bounds (data : List UInt8) : (RegDataPayload.deserialize data).isSome := by
  rw [RegDataPayload.deserialize]
  apply checked_isSome
  intro h
  apply next_isSome (by omega)
  apply next_isSome (by simp; omega)
  apply part_isSome (readBlob_isSome (by simp; omega))
  intro blob
  rfl

theorem scope_exit_in_bounds (data : List UInt8) : (ScopeExitPayload.deserialize data).isSome := by
  rw [ScopeExitPayload.deserialize, ← ite_not]
  apply checked_isSome
  intro h
  apply next_isSome (not_not.mp h)
  rfl

theorem retry_with_code_in_bounds (data : List UInt8) :
    (RetryWithCodePayload.deserialize data).isSome := by
  rw [RetryWithCodePayload.deserialize, ← ite_not]
  apply checked_isSome
  intro h
  apply next_isSome (not_not.mp h)
  rfl

theorem heartbeat_in_bounds (data : List UInt8) : (HeartbeatPayload.deserialize data).isSome := by
  rw [HeartbeatPayload.deserialize]
  apply checked_isSome
  intro h
  apply next_isSome (by omega)
  apply next_isSome (by simp; omega)
  apply next_isSome (by simp; omega)
  apply next_isSome (by simp; omega)
  apply next_isSome (by simp; omega)
  apply next_isSome (by simp; omega)
  apply part_isSome (readString_isSome _)
  intro ls
  apply part_isSome (readString_isSome ls.2)
  intro ps
  rfl

theorem tensor_lookup_in_bounds (data : List UInt8) :
    (TensorLookupPayload.deserialize data).isSome := by
  rw [TensorLookupPayload.deserialize]
  apply checked_isSome
  intro h
  apply next_isSome (by omega)
  apply next_isSome (by simp; omega)
  apply next_isSome (by simp; omega)
  apply next_isSome (by simp; omega)
  apply next_isSome (by simp; omega)
  rfl

theorem tensor_data_in_bounds (data : List UInt8) :
    (TensorDataPayload.deserialize data).isSome := by
  rw [TensorDataPayload.deserialize]
  apply checked_isSome
  intro h
  apply next_isSome (by omega)
  apply next_isSome (by simp; omega)
  apply part_isSome (readBlob_isSome (by simp; omega))
  intro blob
  rfl

end Decoders

/-- The part of a call after its name. -/
def callFields (name rest : List UInt8) : Option CallTaskPayload := do
  let (tid,rest) ← readNat 4 rest
  let (sd,rest) ← readNat 2 rest
  let (np,rest) ← readNat 4 rest
  let params ← readParams np rest
  return { kernelSoName := name, taskId := .ofNat tid, scopeDepth := .ofNat sd
           numParams := .ofNat np, params }

theorem call_task_eq {data : List UInt8} (h : 14 ≤ data.length) :
    CallTaskPayload.deserialize data = if 4+nameLen data ≤ data.length then
      callFields ((data.drop 4).take (nameLen data)) (data.drop (4+nameLen data)) else some {} := by
  rw [CallTaskPayload.deserialize, if_neg (by omega), readNat_of_le (by omega)]
  by_cases hnl : 4+nameLen data ≤ data.length
  · have hrest : nameLen data ≤ (data.drop 4).length := by
      rw [List.length_drop]
      omega
    have hread := read_of_le hrest
    rw [List.drop_drop] at hread
    rw [if_pos hnl]
    show ite ((data.drop 4).length < nameLen data) _ ((read (nameLen data) (data.drop 4)).bind _) = _
    rw [if_neg (by omega), hread]
    rfl
  · rw [if_neg hnl]
    show ite ((data.drop 4).length < nameLen data) _ _ = _
    rw [if_pos (by rw [List.length_drop]; omega)]
    rfl

theorem callFields_isSome_iff {name rest : List UInt8} :
    (callFields name rest).isSome ↔ 10 ≤ rest.length := by
  constructor
  · intro hs
    have ⟨hid,hs⟩ := next_isSome_iff.mp hs
    have ⟨hdepth,hs⟩ := next_isSome_iff.mp hs
    have ⟨hnum,_⟩ := next_isSome_iff.mp hs
    simp only [List.length_drop] at hdepth hnum
    omega
  · intro h
    apply next_isSome (by omega)
    apply next_isSome (by simp; omega)
    apply next_isSome (by simp; omega)
    apply part_isSome (readParams_isSome _ _)
    intro params
    rfl

/-- The ten bytes after the name are read without a check. -/
theorem call_task_in_bounds_iff (data : List UInt8) :
    (CallTaskPayload.deserialize data).isSome ↔
      (14 ≤ data.length → 4+nameLen data ≤ data.length → 14+nameLen data ≤ data.length) := by
  by_cases h : 14 ≤ data.length
  · rw [call_task_eq h]
    by_cases hnl : 4+nameLen data ≤ data.length
    · rw [if_pos hnl, callFields_isSome_iff, List.length_drop]
      simp only [h, hnl, true_imp_iff]
      omega
    · simp [hnl]
  · rw [CallTaskPayload.deserialize, if_pos (by omega)]
    simp [h]

/-- Whatever the bytes are, a decoder stays inside its buffer, except that of
CALL_TASK when the name ends less than ten bytes before the end. -/
theorem in_bounds_iff (t : PayloadType) (data : List UInt8) : InBounds t data ↔
    (t = .callTask → 14 ≤ data.length → 4+nameLen data ≤ data.length →
      14+nameLen data ≤ data.length) := by
  cases t with
  | callTask =>
    simp only [InBounds, Payload.deserialize, Option.isSome_map, true_imp_iff]
    exact call_task_in_bounds_iff data
  | taskComplete => simp [InBounds, Payload.deserialize, task_complete_read]
  | shutdown => simp [InBounds, Payload.deserialize, shutdown_in_bounds]
  | regCode => simp [InBounds, Payload.deserialize, reg_code_in_bounds]
  | regData => simp [InBounds, Payload.deserialize, reg_data_in_bounds]
  | scopeExit => simp [InBounds, Payload.deserialize, scope_exit_in_bounds]
  | retryWithCode => simp [InBounds, Payload.deserialize, retry_with_code_in_bounds]
  | heartbeat => simp [InBounds, Payload.deserialize, heartbeat_in_bounds]
  | tensorLookup => simp [InBounds, Payload.deserialize, tensor_lookup_in_bounds]
  | tensorData => simp [InBounds, Payload.deserialize, tensor_data_in_bounds]

/-- A name of ten bytes that ends with the buffer. -/
theorem short_call_reads_outside : ¬ InBounds .callTask ([0,0,0,10]++zeros 10) := by
  decide

end Linqu.BufferReads
