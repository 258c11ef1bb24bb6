import Linqu.OrchestratorRule
import Linqu.TensorMapNames

/-!
# The dependency graph of an orchestrator

`Shape` is what every call keeps, whatever is reported complete: live ids have
slots of their own, the two list heads of every slot run through the arena,
an edge is on the fanin list of its consumer as often as on the fanout list of
its producer, and `fanoutCount` is one more than the number of consumers.
`Entered` describes the state in which `submit_task` and `submit_task_group`
decide about the status of a new task.
-/

set_option autoImplicit false

namespace Linqu.OrchestratorShape
open Linqu.TaskRing Linqu.DepPool Linqu.DepPool.LinquDepListPool
open Linqu.TensorMap Linqu.ScopeStack Linqu.Orchestrator
open Linqu.Orchestrator.LinquOrchestratorState
open Linqu.OrchestrationApi Linqu.Transition Linqu.OrchestratorRule Linqu.TensorMapNames

structure Shape (s : State) : Prop where
  ring : s.taskRing.Windowed
  pool : s.depPool.Sorted
  heads : ∀ t, s.depPool.Below (s.get t).depListHead ∧ s.depPool.Below (s.get t).fanoutListHead
  taskId : ∀ t, s.taskRing.Live t → (s.get t).taskId = t
  fanin : ∀ t, s.taskRing.Live t → ∀ p ∈ s.faninList t, 0 ≤ p ∧ p ≤ t
  fanout : ∀ t, s.taskRing.Live t → ∀ c ∈ s.fanoutList t, t ≤ c ∧ c < s.taskRing.currentIndex
  edges : ∀ p c, s.taskRing.Live p → s.taskRing.Live c →
    (s.fanoutList p).count c = (s.faninList c).count p
  faninCount : ∀ t, s.taskRing.Live t → (s.get t).faninCount = (s.faninList t).length
  fanoutCount : ∀ t, s.taskRing.Live t → (s.get t).fanoutCount = 1+(s.fanoutList t).length
  names : Names s.tensorMap s.taskRing.currentIndex
  mapAlive : s.tensorMap.lastTaskAlive = s.taskRing.lastTaskAlive

namespace Shape

variable {s s' : State}

theorem slot_iff (h : Shape s) {t u : ℤ} (ht : s.taskRing.Live t) (hu : s.taskRing.Live u) :
    s.taskRing.slot t = s.taskRing.slot u ↔ t = u :=
  ⟨LinquTaskRing.slot_injective h.ring ht hu,fun e => e ▸ rfl⟩

theorem get_modify (h : Shape s) {t u : ℤ} (ht : s.taskRing.Live t) (hu : s.taskRing.Live u)
    (f : LinquTaskDescriptor → LinquTaskDescriptor) :
    (s.modify u f).get t = if t = u then f (s.get t) else s.get t := by
  rw [OrchestratorRule.get_modify, if_congr (h.slot_iff ht hu) rfl rfl]

theorem consumer_live (h : Shape s) {t c : ℤ} (ht : s.taskRing.Live t)
    (hc : c ∈ s.fanoutList t) : s.taskRing.Live c := by
  obtain ⟨hle,hlt⟩ := h.fanout t ht c hc
  exact ⟨ht.1.trans hle,hlt⟩

theorem mem_edges (h : Shape s) {p c : ℤ} (hp : s.taskRing.Live p) (hc : s.taskRing.Live c) :
    c ∈ s.fanoutList p ↔ p ∈ s.faninList c := by
  rw [← List.count_pos_iff, ← List.count_pos_iff, h.edges p c hp hc]

theorem of_frame (h : Shape s) (f : Frame s s') : Shape s' where
  ring := by
    obtain ⟨h1,h2,h3,h4⟩ := h.ring
    exact ⟨by rw [f.window]; exact h1,by rw [f.alive]; exact h2,
      by rw [f.alive, f.current]; exact h3,by rw [f.alive, f.current, f.window]; exact h4⟩
  pool := f.depPool ▸ h.pool
  heads t := by
    rw [f.depPool, f.depListHead, f.fanoutListHead]
    exact h.heads t
  taskId t ht := (f.taskId t).trans (h.taskId t (f.live.mp ht))
  fanin t ht := by
    rw [f.faninList]
    exact h.fanin t (f.live.mp ht)
  fanout t ht := by
    rw [f.fanoutList, f.current]
    exact h.fanout t (f.live.mp ht)
  edges p c hp hc := by
    rw [f.fanoutList, f.faninList]
    exact h.edges p c (f.live.mp hp) (f.live.mp hc)
  faninCount t ht := by
    rw [f.faninCount, f.faninList]
    exact h.faninCount t (f.live.mp ht)
  fanoutCount t ht := by
    rw [f.fanoutCount, f.fanoutList]
    exact h.fanoutCount t (f.live.mp ht)
  names := by
    rw [f.tensorMap, f.current]
    exact h.names
  mapAlive := by
    rw [f.tensorMap, f.alive]
    exact h.mapAlive

/-- Retiring tasks only makes `Live` smaller. -/
theorem of_retired (h : Shape s) {cursor : ℤ} (hle : s.taskRing.lastTaskAlive ≤ cursor)
    (hcur : cursor ≤ s.taskRing.currentIndex)
    (hring : s'.taskRing = s.taskRing.setLastTaskAlive cursor)
    (hmap : s'.tensorMap = s.tensorMap.invalidateBelow cursor) (hpool : s'.depPool = s.depPool) :
    Shape s' := by
  have hget : ∀ t, s'.get t = s.get t := fun t => by
    rw [LinquOrchestratorState.get, hring]; rfl
  have hcurrent : s'.taskRing.currentIndex = s.taskRing.currentIndex := by rw [hring]; rfl
  have hlive : ∀ t, s'.taskRing.Live t → s.taskRing.Live t := by
    rintro t ⟨h1,h2⟩
    rw [hring] at h1 h2
    exact ⟨hle.trans h1,h2⟩
  have hin : ∀ t, s'.faninList t = s.faninList t := fun t => by
    rw [LinquOrchestratorState.faninList, hget, hpool]; rfl
  have hout : ∀ t, s'.fanoutList t = s.fanoutList t := fun t => by
    rw [LinquOrchestratorState.fanoutList, hget, hpool]; rfl
  obtain ⟨h1,h2,h3,h4⟩ := h.ring
  refine ⟨?_,hpool ▸ h.pool,fun t => ?_,fun t ht => (hget t).symm ▸ h.taskId t (hlive t ht),
    fun t ht => ?_,fun t ht => ?_,fun p c hp hc => ?_,fun t ht => ?_,fun t ht => ?_,?_,?_⟩
  · rw [hring]
    exact ⟨h1,h2.trans hle,hcur,h4.trans (by simpa [LinquTaskRing.setLastTaskAlive] using hle)⟩
  · rw [hpool, hget]
    exact h.heads t
  · rw [hin]
    exact h.fanin t (hlive t ht)
  · rw [hout, hcurrent]
    exact h.fanout t (hlive t ht)
  · rw [hout, hin]
    exact h.edges p c (hlive p hp) (hlive c hc)
  · rw [hget, hin]
    exact h.faninCount t (hlive t ht)
  · rw [hget, hout]
    exact h.fanoutCount t (hlive t ht)
  · rw [hmap, hcurrent]
    exact h.names
  · rw [hmap, hring]
    rfl

theorem of_eq (h : Shape s) (hring : s'.taskRing = s.taskRing)
    (hmap : s'.tensorMap = s.tensorMap) (hpool : s'.depPool = s.depPool) : Shape s' :=
  h.of_retired (le_refl s.taskRing.lastTaskAlive) h.ring.alive_le (by rw [hring]; rfl)
    (by rw [hmap, ← h.mapAlive]; rfl) hpool

end Shape

/-! Retirement. -/

/-- Everything but the ring, the tensor map and the metrics is as it was. -/
structure Rest (s s' : State) : Prop where
  depPool : s'.depPool = s.depPool
  scopeStack : s'.scopeStack = s.scopeStack
  backend : s'.backend = s.backend
  subDispatchToGroup : s'.subDispatchToGroup = s.subDispatchToGroup
  nextSubDispatchId : s'.nextSubDispatchId = s.nextSubDispatchId
  pendingGroupSpecs : s'.pendingGroupSpecs = s.pendingGroupSpecs
  trace : s'.trace = s.trace

/-- The state once the cursor of `try_advance_ring_pointers` has stopped. -/
structure Retired (s s' : State) (cursor : ℤ) : Prop where
  rest : Rest s s'
  ring : s'.taskRing = s.taskRing.setLastTaskAlive cursor
  map : s'.tensorMap = s.tensorMap.invalidateBelow cursor
  le : s.taskRing.lastTaskAlive ≤ cursor
  current : cursor ≤ s.taskRing.currentIndex
  consumed : ∀ t, s.taskRing.lastTaskAlive ≤ t → t < cursor → (s.get t).status = .consumed
  stop : cursor < s.taskRing.currentIndex → (s.get cursor).status ≠ .consumed

theorem consumedUpTo_spec (s : State) (n : ℕ) : ∀ c, c ≤ s.consumedUpTo n c ∧
    s.consumedUpTo n c ≤ c+n ∧
    (∀ t, c ≤ t → t < s.consumedUpTo n c →
      t < s.taskRing.currentIndex ∧ (s.get t).status = .consumed) ∧
    (s.consumedUpTo n c < c+n → s.consumedUpTo n c < s.taskRing.currentIndex →
      (s.get (s.consumedUpTo n c)).status ≠ .consumed) := by
  induction n with
  | zero =>
    intro c
    simp only [consumedUpTo]
    exact ⟨le_rfl,by simp,fun t h h' => by omega,fun h _ => by simp at h⟩
  | succ n ih =>
    intro c
    by_cases hc : c < s.taskRing.currentIndex ∧ (s.get c).status = .consumed
    · obtain ⟨h1,h2,h3,h4⟩ := ih (c+1)
      rw [consumedUpTo, if_pos hc]
      refine ⟨by omega,by push_cast; omega,fun t ht ht' => ?_,fun h => h4 (by push_cast at h; omega)⟩
      rcases eq_or_lt_of_le ht with rfl | hlt
      · exact hc
      · exact h3 t hlt ht'
    · rw [consumedUpTo, if_neg hc]
      exact ⟨le_rfl,by push_cast; omega,fun t h h' => by omega,fun _ h h' => hc ⟨h,h'⟩⟩

theorem tryAdvance_retired {s : State} (h : Shape s) :
    ∃ cursor, Retired s s.tryAdvanceRingPointers cursor := by
  have hle := h.ring.alive_le
  obtain ⟨h1,h2,h3,h4⟩ := consumedUpTo_spec s s.taskRing.activeCount.toNat s.taskRing.lastTaskAlive
  have hact : ((s.taskRing.activeCount.toNat : ℕ) : ℤ) =
      s.taskRing.currentIndex-s.taskRing.lastTaskAlive := Int.toNat_of_nonneg (by
    rw [LinquTaskRing.activeCount]; omega)
  refine ⟨s.consumedUpTo s.taskRing.activeCount.toNat s.taskRing.lastTaskAlive,?_⟩
  unfold tryAdvanceRingPointers
  dsimp only
  generalize s.consumedUpTo _ _ = cursor at h1 h2 h3 h4
  have hcur : cursor ≤ s.taskRing.currentIndex := by omega
  have hstop : cursor < s.taskRing.currentIndex → (s.get cursor).status ≠ .consumed :=
    fun hlt => h4 (by omega) hlt
  have hcons : ∀ t, s.taskRing.lastTaskAlive ≤ t → t < cursor → (s.get t).status = .consumed :=
    fun t ht ht' => (h3 t ht ht').2
  split
  · split
    · exact ⟨⟨rfl,rfl,rfl,rfl,rfl,rfl,rfl⟩,rfl,rfl,h1,hcur,hcons,hstop⟩
    · exact ⟨⟨rfl,rfl,rfl,rfl,rfl,rfl,rfl⟩,rfl,rfl,h1,hcur,hcons,hstop⟩
  · have he : cursor = s.taskRing.lastTaskAlive := by omega
    subst he
    exact ⟨⟨rfl,rfl,rfl,rfl,rfl,rfl,rfl⟩,rfl,by rw [← h.mapAlive]; rfl,h1,hcur,hcons,hstop⟩

namespace Retired

variable {s s' : State} {cursor : ℤ}

theorem shape (r : Retired s s' cursor) (h : Shape s) : Shape s' :=
  h.of_retired r.le r.current r.ring r.map r.rest.depPool

theorem get (r : Retired s s' cursor) (t : ℤ) : s'.get t = s.get t := by
  rw [LinquOrchestratorState.get, r.ring]; rfl

theorem live (r : Retired s s' cursor) {t : ℤ} :
    s'.taskRing.Live t ↔ cursor ≤ t ∧ t < s.taskRing.currentIndex := by
  rw [r.ring]; rfl

theorem live_of (r : Retired s s' cursor) {t : ℤ} (ht : s'.taskRing.Live t) :
    s.taskRing.Live t := by
  obtain ⟨h1,h2⟩ := r.live.mp ht
  exact ⟨r.le.trans h1,h2⟩

theorem slot (r : Retired s s' cursor) (t : ℤ) : s'.taskRing.slot t = s.taskRing.slot t := by
  rw [r.ring]; rfl

theorem faninList (r : Retired s s' cursor) (t : ℤ) : s'.faninList t = s.faninList t := by
  rw [LinquOrchestratorState.faninList, r.get, r.rest.depPool]; rfl

theorem fanoutList (r : Retired s s' cursor) (t : ℤ) : s'.fanoutList t = s.fanoutList t := by
  rw [LinquOrchestratorState.fanoutList, r.get, r.rest.depPool]; rfl

end Retired

/-! Submission. -/

/-- The producers that the parameter loop finds, in the order of the
parameters. -/
def producersOf (tid : ℤ) : LinquTensorMap → List LinquParam → Option (List ℤ)
  | _, [] => some []
  | tm, p::rest =>
    (if p.type.reads then tm.lookup p.handle else some none).bind fun found =>
    (if p.type.writes then LinquTensorMap.insert tm p.handle tid true else some tm).bind fun tm =>
    (producersOf tid tm rest).map fun more => found.toList++more

/-- A state of the parameter loop, seen from the state with the new task and
no edges yet. -/
structure Linked (s : State) (tid : ℤ) (prods : List ℤ) (u : State) : Prop where
  rest : u = { s with taskRing := u.taskRing, depPool := u.depPool, tensorMap := u.tensorMap }
  window : u.taskRing.windowSize = s.taskRing.windowSize
  current : u.taskRing.currentIndex = s.taskRing.currentIndex
  alive : u.taskRing.lastTaskAlive = s.taskRing.lastTaskAlive
  pool : u.depPool.Sorted
  heads : ∀ t, u.depPool.Below (u.get t).depListHead ∧ u.depPool.Below (u.get t).fanoutListHead
  desc : ∀ t, u.get t = { s.get t with
    depListHead := (u.get t).depListHead, fanoutListHead := (u.get t).fanoutListHead,
    fanoutCount := (u.get t).fanoutCount }
  count : ∀ t, s.taskRing.Live t →
    (u.get t).fanoutCount = (s.get t).fanoutCount+prods.count t
  fanin : ∀ t, s.taskRing.Live t →
    u.faninList t = (if t = tid then prods else [])++s.faninList t
  fanout : ∀ t, s.taskRing.Live t →
    u.fanoutList t = List.replicate (prods.count t) tid++s.fanoutList t
  live : ∀ p ∈ prods, s.taskRing.Live p ∧ 0 ≤ p
  names : Names u.tensorMap s.taskRing.currentIndex
  mapAlive : u.tensorMap.lastTaskAlive = s.taskRing.lastTaskAlive

theorem Linked.start {s : State} (h : Shape s) (tid : ℤ) : Linked s tid [] s where
  rest := rfl
  window := rfl
  current := rfl
  alive := rfl
  pool := h.pool
  heads := h.heads
  desc _ := rfl
  count _ _ := rfl
  fanin t _ := by simp
  fanout _ _ := rfl
  live := by simp
  names := h.names
  mapAlive := h.mapAlive

theorem required_ok {α : Type} {o : Option α} {f : Fault} {a : α} :
    required o f = .ok a ↔ o = some a := by
  cases o <;> simp [required]

section AddEdge

variable {s u u' : State} {tid p : ℤ} {prods : List ℤ}

/-- The effect of `addEdge` on the slots: two list heads and one counter. -/
theorem addEdge_spec (h : u.addEdge p tid = .ok u') :
    ∃ i₁ pool₁ i₂, u.depPool.prepend (u.get tid).depListHead p = some (i₁,pool₁) ∧
      pool₁.prepend (u.get p).fanoutListHead tid = some (i₂,u'.depPool) ∧
      u' = { u with taskRing := u'.taskRing, depPool := u'.depPool } ∧
      u'.taskRing = { u.taskRing with descriptors := u'.taskRing.descriptors } ∧
      ∀ t, u'.get t = { u.get t with
        depListHead := if u.taskRing.slot t = u.taskRing.slot tid then some i₁
          else (u.get t).depListHead
        fanoutListHead := if u.taskRing.slot t = u.taskRing.slot p then some i₂
          else (u.get t).fanoutListHead
        fanoutCount := (u.get t).fanoutCount+
          if u.taskRing.slot t = u.taskRing.slot p then 1 else 0 } := by
  unfold addEdge at h
  obtain ⟨⟨i₁,pool₁⟩,h1,h⟩ := bind_ok.mp h
  obtain ⟨⟨i₂,pool₂⟩,h2,h⟩ := bind_ok.mp h
  cases h
  refine ⟨i₁,pool₁,i₂,required_ok.mp h1,?_,rfl,rfl,fun t => ?_⟩
  · have h2 := required_ok.mp h2
    rw [get_modify, get_modify] at h2
    split at h2 <;> split at h2 <;> exact h2
  · change (((u.taskRing.modify tid _).modify p _).modify p _).get t = _
    rw [LinquTaskRing.get_modify, LinquTaskRing.get_modify, LinquTaskRing.get_modify]
    simp only [LinquTaskRing.modify_slot, LinquOrchestratorState.get]
    by_cases ha : u.taskRing.slot t = u.taskRing.slot tid
    · by_cases hb : u.taskRing.slot t = u.taskRing.slot p
      · simp only [if_pos ha, if_pos hb]
      · simp only [if_pos ha, if_neg hb, Nat.add_zero]
    · by_cases hb : u.taskRing.slot t = u.taskRing.slot p
      · simp only [if_neg ha, if_pos hb]
      · simp only [if_neg ha, if_neg hb, Nat.add_zero]

theorem addEdge_linked (hs : Shape s) (hl : Linked s tid prods u) (htid : s.taskRing.Live tid)
    (hp : s.taskRing.Live p) (hp0 : 0 ≤ p) (h : u.addEdge p tid = .ok u') :
    Linked s tid (p::prods) u' ∧ u'.tensorMap = u.tensorMap := by
  obtain ⟨i₁,pool₁,i₂,h1,h2,hrest,hring,hget⟩ := addEdge_spec h
  have hslot : ∀ a b, s.taskRing.Live a → s.taskRing.Live b →
      (u.taskRing.slot a = u.taskRing.slot b ↔ a = b) := by
    intro a b ha hb
    rw [LinquTaskRing.slot, LinquTaskRing.slot, hl.window]
    exact hs.slot_iff ha hb
  have hb1 := hl.heads tid
  have hs1 := prepend_sorted hl.pool hb1.1 h1
  have hb2 := (prepend_below (hl.heads p).2 h1).1
  have hold : ∀ o, u.depPool.Below o → u'.depPool.Below o ∧ u'.depPool.tasks o = u.depPool.tasks o := by
    intro o ho
    have ho1 := (prepend_below ho h1).1
    exact ⟨(prepend_below ho1 h2).1,by
      rw [tasks_prepend_old hs1 hb2 ho1 h2, tasks_prepend_old hl.pool hb1.1 ho h1]⟩
  have hmap : u'.tensorMap = u.tensorMap := by rw [hrest]
  refine ⟨⟨?_,?_,?_,?_,prepend_sorted hs1 hb2 h2,fun t => ?_,fun t => ?_,fun t ht => ?_,
    fun t ht => ?_,fun t ht => ?_,?_,hmap ▸ hl.names,hmap ▸ hl.mapAlive⟩,hmap⟩
  · rw [hrest, hl.rest]
  · rw [hring]; exact hl.window
  · rw [hring]; exact hl.current
  · rw [hring]; exact hl.alive
  · rw [hget]
    dsimp only
    constructor
    · split
      · exact (prepend_below (prepend_below hb1.1 h1).2 h2).1
      · exact (hold _ (hl.heads t).1).1
    · split
      · exact (prepend_below hb2 h2).2
      · exact (hold _ (hl.heads t).2).1
  · rw [hget, hl.desc t]
  · rw [hget]
    simp only [hl.count t ht, hslot t p ht hp, List.count_cons, beq_iff_eq, eq_comm (a := p),
      Nat.add_assoc]
  · rw [LinquOrchestratorState.faninList, hget]
    simp only [hslot t tid ht htid]
    by_cases he : t = tid
    · have hin := hl.fanin t ht
      rw [if_pos he, LinquOrchestratorState.faninList, he] at hin
      rw [if_pos he, if_pos he, tasks_prepend_old hs1 hb2 (prepend_below hb1.1 h1).2 h2,
        tasks_prepend_new hl.pool hb1.1 h1, hin, he]
      rfl
    · have hin := hl.fanin t ht
      rw [if_neg he] at hin
      rw [if_neg he, if_neg he, (hold _ (hl.heads t).1).2]
      exact hin
  · rw [LinquOrchestratorState.fanoutList, hget]
    simp only [hslot t p ht hp]
    have hout := hl.fanout t ht
    by_cases he : t = p
    · rw [LinquOrchestratorState.fanoutList, he] at hout
      rw [if_pos he, tasks_prepend_new hs1 hb2 h2,
        tasks_prepend_old hl.pool hb1.1 (hl.heads p).2 h1, hout, he, List.count_cons_self,
        List.replicate_succ]
      rfl
    · rw [if_neg he, (hold _ (hl.heads t).2).2, List.count_cons_of_ne (fun h => he h.symm)]
      exact hout
  · intro q hq
    rcases List.mem_cons.mp hq with rfl | hq
    · exact ⟨hp,hp0⟩
    · exact hl.live q hq

end AddEdge

section LinkParam

variable {s u u' : State} {tid : ℤ} {prods : List ℤ}

theorem insert_linked (hl : Linked s tid prods u) (htid : s.taskRing.Live tid) {handle : UInt64}
    {tm : LinquTensorMap} (h : LinquTensorMap.insert u.tensorMap handle tid true = some tm) :
    Linked s tid prods { u with tensorMap := tm } := by
  obtain ⟨hnames,halive⟩ := insert_names hl.names htid.2 h
  exact ⟨by rw [hl.rest],hl.window,hl.current,hl.alive,hl.pool,hl.heads,hl.desc,hl.count,
    hl.fanin,hl.fanout,hl.live,hnames,halive.trans hl.mapAlive⟩

theorem linkRead_linked (hs : Shape s) (htid : s.taskRing.Live tid) {n n' : ℕ} {p : LinquParam}
    (hl : Linked s tid prods u) (h : linkRead tid (u,n) p = .ok (u',n')) :
    ∃ found : Option ℤ,
      (if p.type.reads then u.tensorMap.lookup p.handle else some none) = some found ∧
      n' = n+found.toList.length ∧ Linked s tid (found.toList++prods) u' ∧
      u'.tensorMap = u.tensorMap := by
  unfold linkRead at h
  split at h
  · rename_i hr
    obtain ⟨found,hf,h⟩ := bind_ok.mp h
    have hf := required_ok.mp hf
    refine ⟨found,by rw [if_pos hr]; exact hf,?_⟩
    cases found with
    | none =>
      cases h
      exact ⟨rfl,hl,rfl⟩
    | some q =>
      obtain ⟨w,hw,h⟩ := bind_ok.mp h
      cases h
      obtain ⟨h0,halive,hlt⟩ := lookup_bounds hl.names hf
      rw [hl.mapAlive] at halive
      obtain ⟨hl',hm⟩ := addEdge_linked hs hl htid ⟨halive,hlt⟩ h0 hw
      exact ⟨rfl,hl',hm⟩
  · rename_i hr
    cases h
    exact ⟨none,by rw [if_neg hr],rfl,hl,rfl⟩

theorem linkWrite_linked (htid : s.taskRing.Live tid) {n n' : ℕ} {p : LinquParam}
    (hl : Linked s tid prods u) (h : linkWrite tid (u,n) p = .ok (u',n')) :
    (if p.type.writes then LinquTensorMap.insert u.tensorMap p.handle tid true
      else some u.tensorMap) = some u'.tensorMap ∧ n' = n ∧ Linked s tid prods u' := by
  unfold linkWrite at h
  split at h
  · rename_i hw
    obtain ⟨tm,htm,h⟩ := bind_ok.mp h
    have htm := required_ok.mp htm
    cases h
    exact ⟨by rw [if_pos hw]; exact htm,rfl,insert_linked hl htid htm⟩
  · rename_i hw
    cases h
    exact ⟨by rw [if_neg hw],rfl,hl⟩

theorem linkParams_linked (hs : Shape s) (htid : s.taskRing.Live tid) (params : List LinquParam) :
    ∀ (prods : List ℤ) (u u' : State) (n n' : ℕ), Linked s tid prods u →
      params.foldlM (linkParam tid) (u,n) = .ok (u',n') →
      ∃ found, producersOf tid u.tensorMap params = some found ∧ n' = n+found.length ∧
        Linked s tid (found.reverse++prods) u' := by
  induction params with
  | nil =>
    intro prods u u' n n' hl h
    cases h
    exact ⟨[],rfl,rfl,hl⟩
  | cons p rest ih =>
    intro prods u u' n n' hl h
    rw [List.foldlM_cons] at h
    obtain ⟨⟨v,k⟩,hv,h⟩ := bind_ok.mp h
    obtain ⟨⟨r,l⟩,hr,hw⟩ := bind_ok.mp hv
    obtain ⟨found,hf,hl1,hlr,hmr⟩ := linkRead_linked hs htid hl hr
    obtain ⟨hm,hk,hlv⟩ := linkWrite_linked htid hlr hw
    rw [hmr] at hm
    obtain ⟨more,hmore,hn,hl'⟩ := ih _ v u' k n' hlv h
    refine ⟨found.toList++more,?_,by rw [hn, hk, hl1, List.length_append, Nat.add_assoc],?_⟩
    · rw [producersOf, hf, Option.bind_some, hm, Option.bind_some, hmore]
      rfl
    · have hrev : found.toList.reverse = found.toList := by cases found <;> rfl
      rw [List.reverse_append, List.append_assoc, hrev]
      exact hl'

end LinkParam

/-- The state with a slot for the new task, before its parameters are read. -/
structure Opened (s s₀ : State) (tid : ℤ) (desc : LinquTaskDescriptor) : Prop where
  rest : s₀ = { s with taskRing := s₀.taskRing }
  tid_eq : tid = s.taskRing.currentIndex
  window : s₀.taskRing.windowSize = s.taskRing.windowSize
  current : s₀.taskRing.currentIndex = tid+1
  alive : s₀.taskRing.lastTaskAlive = s.taskRing.lastTaskAlive
  space : s.taskRing.hasSpace = true
  get : ∀ t, s₀.get t =
    if s.taskRing.slot t = s.taskRing.slot tid then desc else s.get t

/-- A descriptor of the new task before it has edges. -/
structure Fresh (desc : LinquTaskDescriptor) (tid : ℤ) : Prop where
  depListHead : desc.depListHead = none
  fanoutListHead : desc.fanoutListHead = none
  faninCount : desc.faninCount = 0
  fanoutCount : desc.fanoutCount = 1
  taskId : desc.taskId = tid

theorem allocTask_opened {s a : State} {tid : ℤ} (h : s.allocTask = .ok (tid,a))
    (f : LinquTaskDescriptor → LinquTaskDescriptor) : Opened s (a.modify tid f) tid (f {}) := by
  obtain ⟨⟨i,r⟩,hr,h⟩ := bind_ok.mp h
  have hr := required_ok.mp hr
  cases h
  obtain ⟨h1,h2,h3,h4,h5,h6⟩ := LinquTaskRing.tryAlloc_spec hr
  refine ⟨rfl,h1,h3,h4,h5,h2,fun t => ?_⟩
  have hslot : r.slot t = r.slot tid ↔ s.taskRing.slot t = s.taskRing.slot tid := by
    simp only [LinquTaskRing.slot, h3]
  have hr' : ∀ u, LinquOrchestratorState.get { s with taskRing := r } u = r.get u := fun _ => rfl
  rw [get_modify, hr', h6]
  by_cases he : s.taskRing.slot t = s.taskRing.slot tid
  · rw [if_pos (hslot.mpr he), if_pos he, if_pos he]
  · rw [if_neg (mt hslot.mp he), if_neg he, if_neg he]
    rfl

namespace Opened

variable {s s₀ : State} {tid : ℤ} {desc : LinquTaskDescriptor}

theorem live (o : Opened s s₀ tid desc) (h : Shape s) {t : ℤ} :
    s₀.taskRing.Live t ↔ s.taskRing.Live t ∨ t = tid := by
  have hle := h.ring.alive_le
  have ht := o.tid_eq
  simp only [LinquTaskRing.Live, o.alive, o.current]
  omega

theorem windowed (o : Opened s s₀ tid desc) (h : Shape s) : s₀.taskRing.Windowed := by
  obtain ⟨h1,h2,h3,h4⟩ := h.ring
  have hsp := s.taskRing.hasSpace_iff.mp o.space
  have ht := o.tid_eq
  constructor
  · rw [o.window]; exact h1
  · rw [o.alive]; exact h2
  · rw [o.alive, o.current]; omega
  · rw [o.alive, o.current, o.window]; omega

/-- The new task takes no slot of a live one. -/
theorem slot_ne (o : Opened s s₀ tid desc) (h : Shape s) {t : ℤ} (ht : s.taskRing.Live t) :
    s.taskRing.slot t ≠ s.taskRing.slot tid := by
  intro he
  have hw := o.windowed h
  have hne : t = tid := LinquTaskRing.slot_injective hw ((o.live h).mpr (Or.inl ht))
    ((o.live h).mpr (Or.inr rfl)) (by
      rw [LinquTaskRing.slot, LinquTaskRing.slot, o.window]; exact he)
  have := ht.2
  rw [hne, o.tid_eq] at this
  exact lt_irrefl _ this

theorem get_old (o : Opened s s₀ tid desc) (h : Shape s) {t : ℤ} (ht : s.taskRing.Live t) :
    s₀.get t = s.get t := by
  rw [o.get, if_neg (o.slot_ne h ht)]

theorem get_new (o : Opened s s₀ tid desc) : s₀.get tid = desc := by
  rw [o.get, if_pos rfl]

theorem depPool (o : Opened s s₀ tid desc) : s₀.depPool = s.depPool := by rw [o.rest]

theorem faninList_old (o : Opened s s₀ tid desc) (h : Shape s) {t : ℤ}
    (ht : s.taskRing.Live t) : s₀.faninList t = s.faninList t := by
  rw [LinquOrchestratorState.faninList, o.get_old h ht, o.depPool]; rfl

theorem fanoutList_old (o : Opened s s₀ tid desc) (h : Shape s) {t : ℤ}
    (ht : s.taskRing.Live t) : s₀.fanoutList t = s.fanoutList t := by
  rw [LinquOrchestratorState.fanoutList, o.get_old h ht, o.depPool]; rfl

theorem faninList_new (o : Opened s s₀ tid desc) (hnew : Fresh desc tid) :
    s₀.faninList tid = [] := by
  rw [LinquOrchestratorState.faninList, o.get_new, hnew.depListHead, tasks_none]

theorem fanoutList_new (o : Opened s s₀ tid desc) (hnew : Fresh desc tid) :
    s₀.fanoutList tid = [] := by
  rw [LinquOrchestratorState.fanoutList, o.get_new, hnew.fanoutListHead, tasks_none]

theorem shape (o : Opened s s₀ tid desc) (hnew : Fresh desc tid) (h : Shape s) : Shape s₀ where
  ring := o.windowed h
  pool := o.depPool ▸ h.pool
  heads t := by
    rw [o.depPool, o.get]
    split
    · rw [hnew.depListHead, hnew.fanoutListHead]
      exact ⟨fun i hi => (by cases hi),fun i hi => (by cases hi)⟩
    · exact h.heads t
  taskId t ht := by
    rcases (o.live h).mp ht with ht | rfl
    · rw [o.get_old h ht]
      exact h.taskId t ht
    · rw [o.get_new]
      exact hnew.taskId
  fanin t ht := by
    rcases (o.live h).mp ht with ht | rfl
    · rw [o.faninList_old h ht]
      exact h.fanin t ht
    · rw [o.faninList_new hnew]
      simp
  fanout t ht := by
    rcases (o.live h).mp ht with ht | rfl
    · rw [o.fanoutList_old h ht, o.current, o.tid_eq]
      intro c hc
      obtain ⟨h1,h2⟩ := h.fanout t ht c hc
      exact ⟨h1,by omega⟩
    · rw [o.fanoutList_new hnew]
      simp
  edges p c hp hc := by
    rcases (o.live h).mp hp with hp | rfl <;> rcases (o.live h).mp hc with hc | rfl
    · rw [o.fanoutList_old h hp, o.faninList_old h hc]
      exact h.edges p c hp hc
    · rw [o.fanoutList_old h hp, o.faninList_new hnew, List.count_nil, List.count_eq_zero]
      intro hm
      have := (h.fanout p hp c hm).2
      rw [o.tid_eq] at this
      exact lt_irrefl _ this
    · rw [o.fanoutList_new hnew, o.faninList_old h hc, List.count_nil, eq_comm,
        List.count_eq_zero]
      intro hm
      have h1 := (h.fanin c hc p hm).2
      have h2 := hc.2
      rw [← o.tid_eq] at h2
      omega
    · rw [o.fanoutList_new hnew, o.faninList_new hnew, List.count_nil]
  faninCount t ht := by
    rcases (o.live h).mp ht with ht | rfl
    · rw [o.get_old h ht, o.faninList_old h ht]
      exact h.faninCount t ht
    · rw [o.get_new, o.faninList_new hnew, hnew.faninCount, List.length_nil]
  fanoutCount t ht := by
    rcases (o.live h).mp ht with ht | rfl
    · rw [o.get_old h ht, o.fanoutList_old h ht]
      exact h.fanoutCount t ht
    · rw [o.get_new, o.fanoutList_new hnew, hnew.fanoutCount, List.length_nil]
  names := by
    have hm : s₀.tensorMap = s.tensorMap := by rw [o.rest]
    rw [hm, o.current, o.tid_eq]
    exact fun i hi => (h.names i hi).trans (lt_add_one _)
  mapAlive := by
    have hm : s₀.tensorMap = s.tensorMap := by rw [o.rest]
    rw [hm, o.alive]
    exact h.mapAlive

end Opened

/-- The state after the common part of the submit functions. -/
structure Entered (s s' : State) (tid : ℤ) (group : Option ℕ) (prods : List ℤ) : Prop where
  shape : Shape s'
  tid_eq : tid = s.taskRing.currentIndex
  window : s'.taskRing.windowSize = s.taskRing.windowSize
  current : s'.taskRing.currentIndex = tid+1
  alive : s'.taskRing.lastTaskAlive = s.taskRing.lastTaskAlive
  slot_ne : ∀ t, s.taskRing.Live t → s.taskRing.slot t ≠ s.taskRing.slot tid
  backend : s'.backend = s.backend
  subDispatchToGroup : s'.subDispatchToGroup = s.subDispatchToGroup
  nextSubDispatchId : s'.nextSubDispatchId = s.nextSubDispatchId
  pendingGroupSpecs : s'.pendingGroupSpecs = s.pendingGroupSpecs
  scopeBegins : s'.scopeStack.scopeBegins = s.scopeStack.scopeBegins
  scopeTasks : s'.scopeStack.scopeTasks =
    if 0 ≤ s.scopeStack.depth then s.scopeStack.scopeTasks++[tid] else s.scopeStack.scopeTasks
  trace : s'.trace = .submit tid (decide (0 ≤ s.scopeStack.depth))::s.trace
  old : ∀ t, s.taskRing.slot t ≠ s.taskRing.slot tid → s'.get t = { s.get t with
    depListHead := (s'.get t).depListHead, fanoutListHead := (s'.get t).fanoutListHead,
    fanoutCount := (s'.get t).fanoutCount }
  new : ∃ kernelSo scopeDepth heapEnd, s'.get tid =
    { kernelSo, scopeDepth, heapEnd, taskId := tid, isGroup := group.isSome,
      groupSize := group.getD 0, faninCount := prods.length,
      depListHead := (s'.get tid).depListHead, fanoutListHead := (s'.get tid).fanoutListHead,
      fanoutCount := (s'.get tid).fanoutCount }
  fanin_new : s'.faninList tid = prods
  fanin_old : ∀ t, s.taskRing.Live t → s'.faninList t = s.faninList t
  fanout_new : s'.fanoutList tid = List.replicate (prods.count tid) tid
  fanout_old : ∀ t, s.taskRing.Live t →
    s'.fanoutList t = List.replicate (prods.count t) tid++s.fanoutList t
  prods_live : ∀ p ∈ prods, s.taskRing.Live p ∨ p = tid

namespace Entered

variable {s s' : State} {tid : ℤ} {group : Option ℕ} {prods : List ℤ}

theorem live (e : Entered s s' tid group prods) (h : Shape s) {t : ℤ} :
    s'.taskRing.Live t ↔ s.taskRing.Live t ∨ t = tid := by
  have hle := h.ring.alive_le
  have ht := e.tid_eq
  simp only [LinquTaskRing.Live, e.alive, e.current]
  omega

theorem live_tid (e : Entered s s' tid group prods) (h : Shape s) : s'.taskRing.Live tid :=
  (e.live h).mpr (Or.inr rfl)

theorem not_live (e : Entered s s' tid group prods) : ¬ s.taskRing.Live tid :=
  fun h => e.slot_ne tid h rfl

/-- A field that submission does not write is as it was in a live slot. -/
theorem field {α : Type} (e : Entered s s' tid group prods) (F : LinquTaskDescriptor → α)
    (hF : ∀ (d : LinquTaskDescriptor) a b c, F { d with
      depListHead := a, fanoutListHead := b, fanoutCount := c } = F d) {t : ℤ}
    (ht : s.taskRing.Live t) : F (s'.get t) = F (s.get t) := by
  rw [e.old t (e.slot_ne t ht)]
  exact hF _ _ _ _

end Entered

theorem joinScope_spec {s s' : State} {tid : ℤ} (h : s.joinScope tid = .ok s') :
    s' = { s with scopeStack := s'.scopeStack, trace := s'.trace } ∧
      s'.scopeStack.scopeBegins = s.scopeStack.scopeBegins ∧
      s'.scopeStack.scopeTasks =
        (if 0 ≤ s.scopeStack.depth then s.scopeStack.scopeTasks++[tid]
          else s.scopeStack.scopeTasks) ∧
      s'.trace = .submit tid (decide (0 ≤ s.scopeStack.depth))::s.trace := by
  unfold joinScope at h
  split at h
  · rename_i hd
    obtain ⟨st,hst,h⟩ := bind_ok.mp h
    have hst := required_ok.mp hst
    cases h
    unfold LinquScopeStack.addTask at hst
    split at hst
    · cases hst
      simp [record, hd]
    · cases hst
  · rename_i hd
    cases h
    simp [record, hd]

/-- The last writes to the new slot: `faninCount` and `heapEnd`. -/
structure Sealed (u s' : State) (tid : ℤ) (fanin : ℕ) : Prop where
  window : s'.taskRing.windowSize = u.taskRing.windowSize
  current : s'.taskRing.currentIndex = u.taskRing.currentIndex
  alive : s'.taskRing.lastTaskAlive = u.taskRing.lastTaskAlive
  depPool : s'.depPool = u.depPool
  tensorMap : s'.tensorMap = u.tensorMap
  get : ∃ heapEnd, ∀ t, s'.get t = if u.taskRing.slot t = u.taskRing.slot tid then
    { u.get t with faninCount := fanin, heapEnd } else u.get t

namespace Sealed

variable {u s' : State} {tid : ℤ} {fanin : ℕ}

theorem field {α : Type} (z : Sealed u s' tid fanin) (F : LinquTaskDescriptor → α)
    (hF : ∀ d e, F { d with faninCount := fanin, heapEnd := e } = F d) (t : ℤ) :
    F (s'.get t) = F (u.get t) := by
  obtain ⟨e,he⟩ := z.get
  rw [he]
  split
  · exact hF _ _
  · rfl

theorem faninList (z : Sealed u s' tid fanin) (t : ℤ) : s'.faninList t = u.faninList t := by
  rw [LinquOrchestratorState.faninList, z.depPool,
    z.field LinquTaskDescriptor.depListHead (fun _ _ => rfl)]
  rfl

theorem fanoutList (z : Sealed u s' tid fanin) (t : ℤ) : s'.fanoutList t = u.fanoutList t := by
  rw [LinquOrchestratorState.fanoutList, z.depPool,
    z.field LinquTaskDescriptor.fanoutListHead (fun _ _ => rfl)]
  rfl

end Sealed

theorem sealed_shape {s u s' : State} {tid : ℤ} {prods : List ℤ} (h : Shape s)
    (htid : s.taskRing.currentIndex = tid+1) (hlive : s.taskRing.Live tid)
    (hempty : s.faninList tid = []) (hl : Linked s tid prods u)
    (z : Sealed u s' tid prods.length) : Shape s' := by
  have hlv : ∀ t, s'.taskRing.Live t ↔ s.taskRing.Live t := fun t => by
    simp only [LinquTaskRing.Live, z.alive, z.current, hl.alive, hl.current]
  obtain ⟨h1,h2,h3,h4⟩ := h.ring
  refine ⟨?_,z.depPool ▸ hl.pool,fun t => ?_,fun t ht => ?_,fun t ht => ?_,fun t ht => ?_,
    fun p c hp hc => ?_,fun t ht => ?_,fun t ht => ?_,?_,?_⟩
  · constructor
    · rw [z.window, hl.window]; exact h1
    · rw [z.alive, hl.alive]; exact h2
    · rw [z.alive, hl.alive, z.current, hl.current]; exact h3
    · rw [z.alive, hl.alive, z.current, hl.current, z.window, hl.window]; exact h4
  · rw [z.depPool, z.field LinquTaskDescriptor.depListHead (fun _ _ => rfl),
      z.field LinquTaskDescriptor.fanoutListHead (fun _ _ => rfl)]
    exact hl.heads t
  · rw [z.field LinquTaskDescriptor.taskId (fun _ _ => rfl), hl.desc t]
    exact h.taskId t ((hlv t).mp ht)
  · have ht := (hlv t).mp ht
    rw [z.faninList, hl.fanin t ht]
    intro p hp
    rcases List.mem_append.mp hp with hp | hp
    · split at hp
      · rename_i he
        obtain ⟨⟨-,hlt⟩,h0⟩ := hl.live p hp
        exact ⟨h0,by omega⟩
      · simp at hp
    · exact h.fanin t ht p hp
  · have ht := (hlv t).mp ht
    rw [z.fanoutList, hl.fanout t ht, z.current, hl.current]
    intro c hc
    rcases List.mem_append.mp hc with hc | hc
    · rw [List.eq_of_mem_replicate hc]
      exact ⟨by have := ht.2; omega,hlive.2⟩
    · exact h.fanout t ht c hc
  · have hp := (hlv p).mp hp
    have hc := (hlv c).mp hc
    rw [z.fanoutList, z.faninList, hl.fanout p hp, hl.fanin c hc, List.count_append,
      List.count_append, h.edges p c hp hc, List.count_replicate]
    congr 1
    by_cases he : c = tid
    · rw [if_pos he, he]
      simp
    · rw [if_neg he, if_neg]
      · rfl
      · simpa using fun h => he h.symm
  · have ht := (hlv t).mp ht
    obtain ⟨e,hget⟩ := z.get
    have hslot : u.taskRing.slot t = u.taskRing.slot tid ↔ t = tid := by
      rw [LinquTaskRing.slot, LinquTaskRing.slot, hl.window]
      exact h.slot_iff ht hlive
    rw [z.faninList, hl.fanin t ht, hget]
    by_cases he : t = tid
    · rw [if_pos (hslot.mpr he), if_pos he, he, hempty, List.append_nil]
    · rw [if_neg (mt hslot.mp he), if_neg he, hl.desc t, List.nil_append]
      exact h.faninCount t ht
  · have ht := (hlv t).mp ht
    rw [z.field LinquTaskDescriptor.fanoutCount (fun _ _ => rfl), z.fanoutList, hl.count t ht,
      hl.fanout t ht, h.fanoutCount t ht, List.length_append, List.length_replicate]
    omega
  · rw [z.tensorMap, z.current, hl.current]
    exact hl.names
  · rw [z.tensorMap, z.alive, hl.alive]
    exact hl.mapAlive

/-- `enterTask` adds one task, with an edge from each producer it finds. -/
theorem enterTask_entered {s s' : State} {k : String} {group : Option ℕ}
    {params : List LinquParam} {tid : ℤ} (h : Shape s)
    (he : s.enterTask k group params = .ok (tid,s')) :
    ∃ found, producersOf s.taskRing.currentIndex s.tensorMap params = some found ∧
      Entered s s' tid group found.reverse := by
  obtain ⟨⟨tid',a⟩,ha,he⟩ := bind_ok.mp he
  obtain ⟨⟨u,n⟩,hu,he⟩ := bind_ok.mp he
  obtain ⟨j,hj,he⟩ := bind_ok.mp he
  cases he
  have o := allocTask_opened ha (fun d => { d with
    kernelSo := k, taskId := tid, scopeDepth := a.scopeStack.depth.toNat,
    isGroup := group.isSome, groupSize := group.getD 0 })
  have hs₀ := o.shape ⟨rfl,rfl,rfl,rfl,rfl⟩ h
  have hlive := (o.live h).mpr (Or.inr rfl)
  obtain ⟨found,hfound,hn,hl⟩ := linkParams_linked hs₀ hlive params [] _ u 0 n
    (Linked.start hs₀ tid) hu
  rw [List.append_nil] at hl
  rw [Nat.zero_add, ← List.length_reverse] at hn
  have hempty := o.faninList_new ⟨rfl,rfl,rfl,rfl,rfl⟩
  have hempty' := o.fanoutList_new ⟨rfl,rfl,rfl,rfl,rfl⟩
  obtain ⟨hjr,hjb,hjt,hje⟩ := joinScope_spec hj
  generalize hs0 : a.modify tid _ = s₀ at *
  have hu' : u.scopeStack = s.scopeStack ∧ u.trace = s.trace := by
    rw [hl.rest, o.rest]
    exact ⟨rfl,rfl⟩
  -- the two writes that follow the loop
  have z : Sealed u (notePeaks (j.modify tid (fun d => { d with heapEnd := j.heapRing.top }))) tid
      found.reverse.length := by
    have hjring : j.taskRing = u.taskRing.modify tid (fun d => { d with faninCount := n }) := by
      rw [hjr]; rfl
    refine ⟨?_,?_,?_,by rw [hjr]; rfl,by rw [hjr]; rfl,j.heapRing.top,fun t => ?_⟩
    · change j.taskRing.windowSize = _
      rw [hjring]; rfl
    · change j.taskRing.currentIndex = _
      rw [hjring]; rfl
    · change j.taskRing.lastTaskAlive = _
      rw [hjring]; rfl
    · change (j.taskRing.modify tid _).get t = _
      rw [hjring, LinquTaskRing.get_modify, LinquTaskRing.get_modify, LinquTaskRing.modify_slot,
        LinquTaskRing.modify_slot, ← hn]
      by_cases hslot : u.taskRing.slot t = u.taskRing.slot tid
      · simp only [if_pos hslot]; rfl
      · simp only [if_neg hslot]; rfl
  refine ⟨found,?_,?_⟩
  · rw [← o.tid_eq, ← hfound, o.rest]
  have hslot : ∀ t, u.taskRing.slot t = u.taskRing.slot tid ↔
      s.taskRing.slot t = s.taskRing.slot tid := fun t => by
    simp only [LinquTaskRing.slot, hl.window, o.window]
  have hold := fun t ht => (o.live h).mpr (Or.inl ht : s.taskRing.Live t ∨ t = tid)
  have hne : ∀ t, s.taskRing.Live t → t ≠ tid := fun t ht he => o.slot_ne h ht (he ▸ rfl)
  refine ⟨sealed_shape hs₀ o.current hlive hempty hl z,o.tid_eq,z.window.trans
    (hl.window.trans o.window),z.current.trans (hl.current.trans o.current),
    z.alive.trans (hl.alive.trans o.alive),fun t ht => o.slot_ne h ht,?_,?_,?_,?_,?_,?_,?_,
    fun t ht => ?_,?_,?_,fun t ht => ?_,?_,fun t ht => ?_,fun p hp => ?_⟩
  · change j.backend = _
    rw [hjr]
    change u.backend = _
    rw [hl.rest, o.rest]
  · change j.subDispatchToGroup = _
    rw [hjr]
    change u.subDispatchToGroup = _
    rw [hl.rest, o.rest]
  · change j.nextSubDispatchId = _
    rw [hjr]
    change u.nextSubDispatchId = _
    rw [hl.rest, o.rest]
  · change j.pendingGroupSpecs = _
    rw [hjr]
    change u.pendingGroupSpecs = _
    rw [hl.rest, o.rest]
  · exact hjb.trans (congrArg LinquScopeStack.scopeBegins hu'.1)
  · rw [← hu'.1]
    exact hjt
  · rw [← hu'.1, ← hu'.2]
    exact hje
  · obtain ⟨e,hget⟩ := z.get
    rw [hget, if_neg (mt (hslot t).mp ht), hl.desc t, o.get, if_neg ht]
  · obtain ⟨e,hget⟩ := z.get
    refine ⟨k,a.scopeStack.depth.toNat,e,?_⟩
    rw [hget, if_pos rfl, hl.desc tid, o.get_new]
  · rw [z.faninList, hl.fanin tid hlive, if_pos rfl, hempty, List.append_nil]
  · rw [z.faninList, hl.fanin t (hold t ht), if_neg (hne t ht), o.faninList_old h ht,
      List.nil_append]
  · rw [z.fanoutList, hl.fanout tid hlive, hempty', List.append_nil]
  · rw [z.fanoutList, hl.fanout t (hold t ht), o.fanoutList_old h ht]
  · exact (o.live h).mp (hl.live p hp).1

end Linqu.OrchestratorShape
