import Linqu.OwnWrites
import Linqu.LastWriters
import Linqu.RingsInStep

/-!
# Edges of a task to itself

The parameters of a submission are entered one after another, each lookup
before the insert of the same parameter. A handle that is read after it was
written in the same list is found to be produced by the new task. Every other
producer is an older task, so these lists are the only source of cycles.
-/

set_option autoImplicit false

namespace Linqu.SelfEdges
open Linqu.TaskRing Linqu.TensorMap Linqu.Orchestrator Linqu.Orchestrator.LinquOrchestratorState
open Linqu.OrchestrationApi Linqu.Transition Linqu.OrchestratorRule Linqu.OrchestratorShape
open Linqu.OrchestratorCalls Linqu.DependencyLists Linqu.LastWriters Linqu.OwnWrites
open Linqu.RingsInStep

/-- Every producer of a task that is not retired is an older task. -/
def Acyclic (s : State) : Prop := ∀ t, s.taskRing.Live t → ∀ p ∈ s.faninList t, p < t

/-- A parameter reads a handle that one of the last `poolSize` writes before it
was to; `seen` holds the handles written so far, newest first. -/
def rereadsAfter (poolSize : ℕ) : List UInt64 → List LinquParam → Bool
  | _, [] => false
  | seen, p::rest =>
    p.type.reads && decide (p.handle ∈ seen.take poolSize) ||
      rereadsAfter poolSize (if p.type.writes then p.handle::seen else seen) rest

/-- The list reads back a handle that it writes itself. -/
def rereadsOwn (poolSize : ℕ) (params : List LinquParam) : Bool := rereadsAfter poolSize [] params

/-- The condition on a submission that returns. -/
def ReadsFirst (s : State) (op : Op) : Prop :=
  ∀ params arrivals, submission op = some (params,arrivals) → (∃ s', Steps s op s') →
    rereadsOwn s.tensorMap.poolSize params = false

/-! The parameter loop. -/

/-- The task is among the producers it finds exactly when its list reads back
a handle, whatever older tasks have left in the table. -/
theorem producersOf_self {tid : ℤ} (h0 : 0 ≤ tid) (params : List LinquParam) :
    ∀ (tm : LinquTensorMap) (seen : List UInt64) (found : List ℤ), tm.lastTaskAlive ≤ tid →
      seen.length ≤ tm.nextEntry →
      Own tm tid ((placed tm.poolSize tm.nextEntry seen).take tm.poolSize) →
      producersOf tid tm params = some found →
      (tid ∈ found ↔ rereadsAfter tm.poolSize seen params = true) := by
  induction params with
  | nil =>
    intro tm seen found _ _ _ hf
    cases hf
    simp [rereadsAfter]
  | cons p rest ih =>
    intro tm seen found halive hlen hown hf
    rw [producersOf] at hf
    obtain ⟨first,hfirst,hf⟩ := Option.bind_eq_some_iff.mp hf
    obtain ⟨tm',htm,hf⟩ := Option.bind_eq_some_iff.mp hf
    obtain ⟨more,hmore,rfl⟩ := Option.map_eq_some_iff.mp hf
    have hread : tid ∈ first.toList ↔
        p.type.reads = true ∧ p.handle ∈ seen.take tm.poolSize := by
      by_cases hr : p.type.reads = true
      · rw [if_pos hr] at hfirst
        have hl := hown.lookup h0 halive hfirst
        rw [List.map_take, placed_handles] at hl
        rw [Option.mem_toList, hl]
        simp [hr]
      · rw [if_neg hr] at hfirst
        cases hfirst
        simp [hr]
    have hrest : tid ∈ more ↔ rereadsAfter tm.poolSize
        (if p.type.writes then p.handle::seen else seen) rest = true := by
      by_cases hw : p.type.writes = true
      · rw [if_pos hw] at htm ⊢
        have hpos : 0 < tm.poolSize := by
          by_contra hz
          rw [LinquTensorMap.insert, if_pos (by omega)] at htm
          cases htm
        obtain ⟨hown',hlen',hsize⟩ := hown.insert_placed hpos hlen htm
        rw [← hsize]
        apply ih tm' _ more _ hlen' hown' hmore
        rw [TensorMapNames.insert_alive htm]
        exact halive
      · rw [if_neg hw] at htm ⊢
        cases htm
        exact ih tm seen more halive hlen hown hmore
    rw [rereadsAfter, List.mem_append, hread, hrest]
    simp

/-! One call. -/

/-- A submission, from the end of its wait to its return. -/
theorem submission_acyclic {s m e s' : State} {tid : ℤ} {group : Option ℕ} {found : List ℤ}
    (hs : Acyclic s) (hm : Kept s m) (he : Entered m e tid group found.reverse)
    (hk : Kept e s') (hst : Still e s') : Acyclic s' ↔ tid ∉ found := by
  have hlive : ∀ t, s'.taskRing.Live t ↔ m.taskRing.Live t ∨ t = tid := by
    intro t
    rw [← he.live hm.1, LinquTaskRing.Live, LinquTaskRing.Live, hst.alive, hst.current]
  have hnew : s'.faninList tid = found.reverse := (hk.2.lists tid).1.trans he.fanin_new
  constructor
  · intro hac hmem
    have hlt := hac tid ((hlive tid).mpr (Or.inr rfl)) tid
    rw [hnew] at hlt
    exact lt_irrefl _ (hlt (List.mem_reverse.mpr hmem))
  · intro hnot t ht p hp
    rcases (hlive t).mp ht with ht | rfl
    · rw [(hk.2.lists t).1, he.fanin_old t ht, (hm.2.lists t).1] at hp
      apply hs t _ p hp
      have hcur := hm.2.current
      have halive := hm.2.alive
      exact ⟨halive.trans ht.1,by rw [← hcur]; exact ht.2⟩
    · rw [hnew] at hp
      rcases he.prods_live p hp with hp' | rfl
      · rw [he.tid_eq]
        exact hp'.2
      · exact absurd (List.mem_reverse.mp hp) hnot

theorem submission_iff {s m e s' : State} {tid : ℤ} {group : Option ℕ} {k : String}
    {params : List LinquParam} (hs : Acyclic s) (hm : Kept s m)
    (he : m.enterTask k group params = .ok (tid,e)) (hk : Shape e → Kept e s')
    (hst : Still e s') :
    Acyclic s' ↔ rereadsOwn s.tensorMap.poolSize params = false := by
  obtain ⟨found,hfound,hent⟩ := enterTask_entered hm.1 he
  have hring := hm.1.ring
  have hself := producersOf_self (hring.alive_nonneg.trans hring.alive_le) params m.tensorMap []
    found (by rw [hm.1.mapAlive]; exact hring.alive_le) (Nat.zero_le _)
    (by simpa [placed] using own_nil hm.1.names) hfound
  have hsize : m.tensorMap.poolSize = s.tensorMap.poolSize := by
    rw [hm.2.table]
    rfl
  rw [submission_acyclic hs hm hent (hk hent.shape) hst, hent.tid_eq, hself, hsize, rereadsOwn]
  simp

theorem step_acyclic {s s' : State} {op : Op} (hshape : Shape s) (hs : Acyclic s)
    (hstep : Steps s op s') : Acyclic s' ↔ ReadsFirst s op := by
  cases hop : submission op with
  | none =>
    have hk := exec_kept hshape hop hstep
    have hac : Acyclic s' := by
      intro t ht p hp
      rw [(hk.2.lists t).1] at hp
      refine hs t ⟨hk.2.alive.trans ht.1,?_⟩ p hp
      rw [← hk.2.current]
      exact ht.2
    simp [hac, ReadsFirst, hop]
  | some c =>
    obtain ⟨params,arrivals⟩ := c
    have hcond : ReadsFirst s op ↔ rereadsOwn s.tensorMap.poolSize params = false := by
      constructor
      · intro h
        exact h params arrivals hop ⟨s',hstep⟩
      · intro h ps as hps _
        rw [hop] at hps
        cases hps
        exact h
    rw [hcond]
    cases op with
    | submitTask target k ps as =>
      cases hop
      obtain ⟨m,hm,hstep⟩ := bind_ok.mp hstep
      obtain ⟨⟨tid,e⟩,he,hstep⟩ := bind_ok.mp hstep
      exact submission_iff hs (waitForSpace_kept hshape hm) he
        (fun hshape => launchTask_kept hshape hstep) (still_launchTask hstep)
    | submitTaskGroup k ps subs as ds =>
      cases hop
      obtain ⟨m,hm,hstep⟩ := bind_ok.mp hstep
      obtain ⟨⟨tid,e⟩,he,hstep⟩ := bind_ok.mp hstep
      exact submission_iff hs (waitForSpace_kept hshape hm) he
        (fun hshape => launchGroup_kept hshape hstep) (still_launchGroup hstep)
    | _ => cases hop

/-- In a run of any calls the graph is acyclic in every state exactly when no
submission that returns reads back a handle its own list has written. -/
theorem acyclic_iff_reads_first {backend : Backend} {cfg : LinquOrchConfigInternal} {s₀ : State}
    (hinit : init backend cfg = .ok s₀) (ops : List Op) :
    Along Steps Acyclic ops s₀ ↔ Guarded Steps ReadsFirst ops s₀ := by
  have hshape : ∀ s op s', Shape s → Steps s op s' → Shape s' := fun s op s' hs hop =>
    exec_rule shape_rule.callRule hs (guarded_true [op] s).1 hop
  have hac : Acyclic s₀ := fun t ht => absurd ht (init_not_live hinit t)
  have hstep : ∀ s op, Shape s ∧ Acyclic s →
      (ReadsFirst s op ↔ ∀ s', Steps s op s' → Shape s' ∧ Acyclic s') := by
    rintro s op ⟨hs,ha⟩
    constructor
    · intro hr s' hop
      exact ⟨hshape s op s' hs hop,(step_acyclic hs ha hop).mpr hr⟩
    · intro hall params arrivals hsub hret
      obtain ⟨s',hop⟩ := hret
      exact (step_acyclic hs ha hop).mp (hall s' hop).2 params arrivals hsub ⟨s',hop⟩
  rw [← along_iff_guarded hstep ops ⟨init_shape hinit,hac⟩]
  apply along_congr
  · simp [init_shape hinit]
  · rintro s op s' ⟨hs,-⟩ hop
    simp [hshape s op s' hs hop]

/-- INOUT parameters read before they write. -/
def readsFirst : List Op :=
  [.submitTask {} none [linquMakeInout 1,linquMakeOutput 2] [],
    .submitTaskGroup none [linquMakeInput 2,linquMakeInout 1] [⟨{},none,[]⟩] [] []]

theorem acyclic_reads_first : ∃ s₀, init .dispatcher {} = .ok s₀ ∧
    Along Steps Acyclic readsFirst s₀ := by
  obtain ⟨s₀,h₀⟩ : ∃ s₀, (init .dispatcher {}).toOption = some s₀ :=
    Option.isSome_iff_exists.mp (by decide +kernel)
  have hinit := toOption_some.mp h₀
  refine ⟨s₀,hinit,(acyclic_iff_reads_first hinit readsFirst).mpr ⟨?_,fun s _ => ⟨?_,?_⟩⟩⟩
  · rintro params arrivals hsub -
    cases hsub
    simp [rereadsOwn, rereadsAfter, linquMakeInout, linquMakeOutput, LinquParamType.reads,
      LinquParamType.writes]
  · rintro params arrivals hsub -
    cases hsub
    simp [rereadsOwn, rereadsAfter, linquMakeInput, linquMakeInout, LinquParamType.writes]
  · intro s' _
    trivial

/-- A group that reads what its own list has just written waits for itself. -/
theorem group_waits_for_itself : ∃ s₀ s, init .dispatcher {} = .ok s₀ ∧
    Run Steps [.submitTaskGroup none [linquMakeOutput 1,linquMakeInput 1] [⟨{},none,[]⟩] [] []]
      s₀ s ∧
    s.taskRing.Live 0 ∧ s.faninList 0 = [0] ∧ (s.get 0).status = .pending ∧ ¬ Acyclic s := by
  obtain ⟨s₀,s,h₀,hr,-,ht⟩ := run_of_check (b := .dispatcher) (c := {})
    (l := [.submitTaskGroup none [linquMakeOutput 1,linquMakeInput 1] [⟨{},none,[]⟩] [] []])
    (g := fun _ => true)
    (t := fun s => decide (s.taskRing.Live 0 ∧ s.faninList 0 = [0] ∧ (s.get 0).status = .pending))
    (by decide +kernel)
  obtain ⟨hlive,hfanin,hstatus⟩ := of_decide_eq_true ht
  refine ⟨s₀,s,h₀,hr,hlive,hfanin,hstatus,?_⟩
  intro hac
  exact lt_irrefl _ (hac 0 hlive 0 (by simp [hfanin]))

end Linqu.SelfEdges
