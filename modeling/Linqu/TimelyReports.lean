import Linqu.LastSubTask
import Linqu.Submissions

/-!
# Timely reports

With a dispatcher everything that is started is passed on, whatever is
reported, as long as no sub-task is reported after the slot of its group has
gone to another task. A task owns its slot until the next task is given it,
retired or not. `Served` follows the calls made for each task; the works of a
group that is being handed out and are still to be passed are counted by `rem`.
-/

set_option autoImplicit false

namespace Linqu.TimelyReports
open Linqu.TaskRing Linqu.DepPool Linqu.Orchestrator Linqu.Orchestrator.LinquOrchestratorState
open Linqu.OrchestrationApi Linqu.Transition Linqu.OrchestratorRule Linqu.OrchestratorShape
open Linqu.OrchestratorCalls Linqu.OrchestratorDone Linqu.Reports Linqu.GroupDispatch
open Linqu.Submissions Linqu.Tables

def submittedIds (l : List Event) : List ℤ :=
  l.filterMap fun
    | .submit t _ => some t
    | _ => none

/-- The table of sub-task ids, read off the trace. -/
def openSubIds : List Event → List (ℤ × ℤ)
  | [] => []
  | .dispatch call::l => match call.origin with
    | .sub g _ => mapSet (openSubIds l) call.taskId g
    | .plain => openSubIds l
  | .report t::l => mapErase (openSubIds l) t
  | .submit _ _::l => openSubIds l
  | .dispatchFn _::l => openSubIds l

/-- No sub-task is reported after the slot of its group went to another task. -/
def Timely (window : ℤ) : List Event → Prop
  | [] => True
  | .report t::l => (∀ g ∈ (openSubIds l).lookup t, ∀ u ∈ submittedIds l, u < g+window) ∧
      Timely window l
  | _::l => Timely window l

instance decidableTimely (window : ℤ) : (l : List Event) → Decidable (Timely window l)
  | [] => .isTrue trivial
  | .report t::l =>
    haveI := decidableTimely window l
    inferInstanceAs (Decidable ((∀ g ∈ (openSubIds l).lookup t, ∀ u ∈ submittedIds l,
      u < g+window) ∧ Timely window l))
  | .submit _ _::l => decidableTimely window l
  | .dispatch _::l => decidableTimely window l
  | .dispatchFn _::l => decidableTimely window l

theorem timely_tail {window : ℤ} {e : Event} {l : List Event} (h : Timely window (e::l)) :
    Timely window l := by
  cases e with
  | report t => exact h.2
  | submit t b => exact h
  | dispatch call => exact h
  | dispatchFn call => exact h

theorem timely_suffix {window : ℤ} {l l' : List Event} (h : Timely window l') (hs : l <:+ l') :
    Timely window l := by
  obtain ⟨p,rfl⟩ := hs
  induction p with
  | nil => exact h
  | cons e p ih => exact ih (timely_tail h)

/-- No later task has taken the slot. -/
def Owned (s : State) (t : ℤ) : Prop :=
  0 ≤ t ∧ s.taskRing.currentIndex ≤ t+s.taskRing.windowSize ∧ t < s.taskRing.currentIndex

def Waiting (s : State) (g : ℤ) : Prop := s.taskRing.Live g ∧ (s.get g).status = .pending

theorem owned_of_live {s : State} (h : Shape s) {t : ℤ} (ht : s.taskRing.Live t) : Owned s t := by
  have hneg := h.ring.alive_nonneg
  have hle := h.ring.current_le
  obtain ⟨h1,h2⟩ := ht
  exact ⟨by omega,by omega,h2⟩

theorem Owned.unique {s : State} {t u : ℤ} (ht : Owned s t) (hu : Owned s u)
    (h : s.taskRing.slot t = s.taskRing.slot u) : t = u := by
  obtain ⟨-,ht1,ht2⟩ := ht
  obtain ⟨-,hu1,hu2⟩ := hu
  apply LinquTaskRing.remainder_injective (a := s.taskRing.currentIndex-s.taskRing.windowSize)
    (w := s.taskRing.windowSize) _ _ h
  · exact ⟨by omega,by omega⟩
  · exact ⟨by omega,by omega⟩

structure Served (window : ℤ) (rem : ℤ → ℕ) (l : List Submission) (s : State) : Prop where
  shape : Shape s
  backend : s.backend = .dispatcher
  window : s.taskRing.windowSize = window
  length : (l.length : ℤ) = s.taskRing.currentIndex
  newest : 0 < s.taskRing.currentIndex → s.taskRing.currentIndex-1 ∈ submittedIds s.trace
  table : s.subDispatchToGroup = openSubIds s.trace
  consumers : ∀ t, Owned s t → ∀ c ∈ s.fanoutList t, t ≤ c ∧ c < s.taskRing.currentIndex
  retired : ∀ t, Owned s t → (s.get t).status = .pending → s.taskRing.lastTaskAlive ≤ t
  running : ∀ t, (s.get t).status = .running →
    ∃ o, s.taskRing.Live o ∧ s.taskRing.slot t = s.taskRing.slot o
  entries : ∀ e ∈ s.subDispatchToGroup, 0 ≤ e.2 ∧ e.2 < s.taskRing.currentIndex ∧ ¬ Waiting s e.2
  waiting : ∀ g, Waiting s g → rem g = 0 ∧ (s.get g).isGroup = true ∧
    passed .dispatcher s.trace g = [] ∧ ∃ k gp subs, l[g.toNat]? = some (.group k gp subs) ∧
      s.pendingGroupSpecs.lookup g = some ⟨k.getD "",gp,subs⟩
  started : ∀ (t : ℕ) w, l[t]? = some w → ¬ Waiting s t →
    passed .dispatcher s.trace t = w.works.take (w.works.length-rem t)
  counted : ∀ g, Owned s g →
    (s.get g).subCompleteCount+openSubs s g ≤ (passed .dispatcher s.trace g).length
  known : ∀ t, s.taskRing.currentIndex ≤ t → passed .dispatcher s.trace t = []

/-- What is left of it when every work has been handed out. -/
theorem Served.delivered {window : ℤ} {l : List Submission} {s : State}
    (h : Served window (fun _ => 0) l s) : Delivered l s := by
  constructor
  · intro tid w hw hst
    have hnot : ¬ Waiting s tid := by
      intro hwait
      obtain ⟨-,-,-,k,gp,subs,hl,-⟩ := h.waiting tid hwait
      rw [Int.toNat_natCast, hw] at hl
      cases hl
      rcases hst with hlt | hne
      · exact absurd hlt (not_lt.mpr hwait.1.1)
      · exact hne hwait.2
    rw [h.backend, h.started tid w hw hnot, Nat.sub_zero, List.take_length]
  · intro tid hlive
    rw [h.backend]
    exact (Nat.le_add_right _ _).trans (h.counted tid (owned_of_live h.shape hlive))

/-! Steps that pass nothing on. -/

/-- Statuses move, but none to or from PENDING and none to RUNNING. -/
structure Calm (s v : State) : Prop where
  shape : Shape s → Shape v
  window : v.taskRing.windowSize = s.taskRing.windowSize
  current : v.taskRing.currentIndex = s.taskRing.currentIndex
  alive : v.taskRing.lastTaskAlive = s.taskRing.lastTaskAlive
  depPool : v.depPool = s.depPool
  backend : v.backend = s.backend
  trace : v.trace = s.trace
  subs : v.subDispatchToGroup = s.subDispatchToGroup
  specs : v.pendingGroupSpecs = s.pendingGroupSpecs
  desc : ∀ t, fixed (v.get t) = fixed (s.get t) ∧
    (v.get t).subCompleteCount = (s.get t).subCompleteCount
  pending : ∀ t, (v.get t).status = .pending ↔ (s.get t).status = .pending
  running : ∀ t, (v.get t).status = .running → (s.get t).status = .running

theorem calm_of_settles {s v : State} (h : Settles s v) : Calm s v := by
  refine ⟨h.shape,h.window,h.current,h.alive,h.depPool,h.backend,h.trace,h.subs,h.specs,h.desc,
    fun t => ?_,fun t => (h.status t).running.mp⟩
  rcases h.status t with he | ⟨h1,h2⟩
  · rw [he]
  · rw [h1, h2]
    simp

theorem calm_complete {s : State} {t : ℤ} (ht : (s.get t).status ≠ .pending) :
    Calm s (s.setStatus t .completed) := by
  have f := frame_setStatus s t .completed
  refine ⟨fun hs => hs.of_frame f,rfl,rfl,rfl,rfl,rfl,rfl,rfl,rfl,fun u => ⟨f.fixed u,
    setStatus_field LinquTaskDescriptor.subCompleteCount (fun _ _ => rfl) s t u _⟩,fun u => ?_,
    fun u => ?_⟩
  · rw [get_setStatus]
    split
    · rename_i hslot
      rw [get_eq_of_slot hslot]
      simp [ht]
    · rfl
  · rw [get_setStatus]
    split
    · intro h
      cases h
    · exact id

theorem Calm.owned {s v : State} (h : Calm s v) (t : ℤ) : Owned v t ↔ Owned s t := by
  simp only [Owned, h.current, h.window]

theorem Calm.waiting {s v : State} (h : Calm s v) (t : ℤ) : Waiting v t ↔ Waiting s t := by
  simp only [Waiting, LinquTaskRing.Live, h.alive, h.current, h.pending]

theorem Calm.fanoutList {s v : State} (h : Calm s v) (t : ℤ) : v.fanoutList t = s.fanoutList t := by
  have hh : (v.get t).fanoutListHead = (s.get t).fanoutListHead :=
    (congrArg LinquTaskDescriptor.fanoutListHead (h.desc t).1 :)
  simp only [LinquOrchestratorState.fanoutList, h.depPool, hh]

section Updates

variable {window : ℤ} {rem : ℤ → ℕ} {l : List Submission} {s s' : State}

theorem Served.calm (h : Served window rem l s) (hv : Calm s s') : Served window rem l s' := by
  constructor
  case shape => exact hv.shape h.shape
  case backend => exact hv.backend.trans h.backend
  case window => exact hv.window.trans h.window
  case length => exact h.length.trans hv.current.symm
  case newest =>
    rw [hv.current, hv.trace]
    exact h.newest
  case table => rw [hv.subs, hv.trace]; exact h.table
  case consumers =>
    intro t ht
    rw [hv.fanoutList, hv.current]
    exact h.consumers t ((hv.owned t).mp ht)
  case retired =>
    intro t ht hp
    rw [hv.alive]
    exact h.retired t ((hv.owned t).mp ht) ((hv.pending t).mp hp)
  case running =>
    intro t ht
    obtain ⟨o,ho,hslot⟩ := h.running t (hv.running t ht)
    refine ⟨o,?_,?_⟩
    · rw [LinquTaskRing.Live, hv.alive, hv.current]
      exact ho
    · rw [LinquTaskRing.slot, LinquTaskRing.slot, hv.window]
      exact hslot
  case entries =>
    intro e he
    rw [hv.subs] at he
    rw [hv.current, hv.waiting]
    exact h.entries e he
  case waiting =>
    intro g hg
    have hgroup : (s'.get g).isGroup = (s.get g).isGroup :=
      (congrArg LinquTaskDescriptor.isGroup (hv.desc g).1 :)
    rw [hgroup, hv.trace, hv.specs]
    exact h.waiting g ((hv.waiting g).mp hg)
  case started =>
    intro t w hw ht
    rw [hv.trace]
    rw [hv.waiting] at ht
    exact h.started t w hw ht
  case counted =>
    intro g hg
    rw [(hv.desc g).2, openSubs, hv.subs, hv.trace]
    exact h.counted g ((hv.owned g).mp hg)
  case known =>
    intro t ht
    rw [hv.trace]
    exact h.known t (hv.current ▸ ht)

theorem Served.settles (h : Served window rem l s) (hs : Settles s s') :
    Served window rem l s' :=
  h.calm (calm_of_settles hs)

/-- A pending task is not consumed, so it is not retired. -/
theorem Served.advance {cursor : ℤ} (h : Served window rem l s) (r : Retired s s' cursor) :
    Served window rem l s' := by
  have hcur : s'.taskRing.currentIndex = s.taskRing.currentIndex := by
    rw [r.ring]
    rfl
  have hwin : s'.taskRing.windowSize = s.taskRing.windowSize := by
    rw [r.ring]
    rfl
  have halive : s'.taskRing.lastTaskAlive = cursor := by
    rw [r.ring]
    rfl
  have howned : ∀ t, Owned s' t ↔ Owned s t := fun t => by simp only [Owned, hcur, hwin]
  have hkeep : ∀ t, s.taskRing.lastTaskAlive ≤ t → (s.get t).status ≠ .consumed → cursor ≤ t := by
    intro t ht hne
    by_contra hlt
    exact hne (r.consumed t ht (not_le.mp hlt))
  have hwait : ∀ t, Waiting s' t ↔ Waiting s t := by
    intro t
    constructor
    · rintro ⟨hl,hp⟩
      exact ⟨r.live_of hl,by rw [← r.get]; exact hp⟩
    · rintro ⟨hl,hp⟩
      refine ⟨⟨?_,?_⟩,by rw [r.get]; exact hp⟩
      · rw [halive]
        exact hkeep t hl.1 (by simp [hp])
      · rw [hcur]
        exact hl.2
  constructor
  case shape => exact r.shape h.shape
  case backend => exact r.rest.backend.trans h.backend
  case window => exact hwin.trans h.window
  case length => exact h.length.trans hcur.symm
  case newest =>
    rw [hcur, r.rest.trace]
    exact h.newest
  case table => rw [r.rest.subDispatchToGroup, r.rest.trace]; exact h.table
  case consumers =>
    intro t ht
    rw [r.fanoutList, hcur]
    exact h.consumers t ((howned t).mp ht)
  case retired =>
    intro t ht hp
    rw [r.get] at hp
    rw [halive]
    exact hkeep t (h.retired t ((howned t).mp ht) hp) (by simp [hp])
  case running =>
    intro t ht
    rw [r.get] at ht
    obtain ⟨o,ho,hslot⟩ := h.running t ht
    have hrun : (s.get o).status = .running := by
      rw [← get_eq_of_slot hslot]
      exact ht
    refine ⟨o,⟨?_,?_⟩,?_⟩
    · rw [halive]
      exact hkeep o ho.1 (by simp [hrun])
    · rw [hcur]
      exact ho.2
    · rw [r.slot, r.slot]
      exact hslot
  case entries =>
    intro e he
    rw [r.rest.subDispatchToGroup] at he
    rw [hcur, hwait]
    exact h.entries e he
  case waiting =>
    intro g hg
    rw [r.get, r.rest.trace, r.rest.pendingGroupSpecs]
    exact h.waiting g ((hwait g).mp hg)
  case started =>
    intro t w hw ht
    rw [r.rest.trace]
    rw [hwait] at ht
    exact h.started t w hw ht
  case counted =>
    intro g hg
    rw [r.get, openSubs, r.rest.subDispatchToGroup, r.rest.trace]
    exact h.counted g ((howned g).mp hg)
  case known =>
    intro t ht
    rw [r.rest.trace]
    exact h.known t (hcur ▸ ht)

/-! Handing out a group. -/

/-- A group that waits is started; all of its works are still to be passed. -/
theorem Served.start {c : ℤ} {k : Option String} {gp : List LinquParam}
    {subs : List LinquSubTaskSpec} (h : Served window rem l s) (hc : Waiting s c)
    (hl : l[c.toNat]? = some (.group k gp subs)) :
    Served window (Function.update rem c subs.length) l (s.setStatus c .running) := by
  have f := frame_setStatus s c .running
  have hown := owned_of_live h.shape hc.1
  have hget : ∀ t, Owned s t → t ≠ c → (s.setStatus c .running).get t = s.get t := by
    intro t ht hne
    rw [get_setStatus, if_neg (fun hs => hne (ht.unique hown hs))]
  have hwait : ∀ t, Waiting (s.setStatus c .running) t → Waiting s t ∧ t ≠ c := by
    rintro t ⟨hlt,hp⟩
    have hne : t ≠ c := by
      rintro rfl
      rw [get_setStatus, if_pos rfl] at hp
      cases hp
    rw [hget t (owned_of_live h.shape hlt) hne] at hp
    exact ⟨⟨hlt,hp⟩,hne⟩
  exact { h with
    shape := h.shape.of_frame f
    consumers := fun t ht => by
      rw [f.fanoutList]
      exact h.consumers t ht
    retired := fun t ht hp => by
      rw [get_setStatus] at hp
      split at hp
      · cases hp
      · exact h.retired t ht hp
    running := fun t ht => by
      rw [get_setStatus] at ht
      split at ht
      · rename_i hslot
        exact ⟨c,hc.1,hslot⟩
      · exact h.running t ht
    entries := fun e he => by
      obtain ⟨h0,hlt,hn⟩ := h.entries e he
      exact ⟨h0,hlt,fun hw => hn (hwait e.2 hw).1⟩
    waiting := fun g hg => by
      obtain ⟨hw,hne⟩ := hwait g hg
      rw [Function.update_of_ne hne, f.isGroup]
      exact h.waiting g hw
    started := fun t w hw ht => by
      by_cases htc : (t : ℤ) = c
      · obtain ⟨-,-,hnone,-⟩ := h.waiting c hc
        rw [← htc, Int.toNat_natCast, hw] at hl
        cases hl
        rw [htc, Function.update_self, Submission.works, List.length_map, Nat.sub_self,
          List.take_zero]
        exact hnone
      · rw [Function.update_of_ne htc]
        apply h.started t w hw
        rintro ⟨hlt,hp⟩
        refine ht ⟨hlt,?_⟩
        rw [hget t (owned_of_live h.shape hlt) htc]
        exact hp
    counted := fun g hg => by
      rw [setStatus_field LinquTaskDescriptor.subCompleteCount (fun _ _ => rfl)]
      exact h.counted g hg }

/-- A call for one more work of a task that has started. -/
theorem Served.pass {g : ℤ} {r : ℕ} {w : Submission} {m : List (ℤ × ℤ)} {n : ℤ}
    (call : DispatchCall) (h : Served window rem l s) (h0 : 0 ≤ g)
    (hcur : g < s.taskRing.currentIndex) (hw : l[g.toNat]? = some w) (hnot : ¬ Waiting s g)
    (hr : rem g = r+1) (howner : ownerOf call = g)
    (hwork : w.works.take (w.works.length-r) =
      w.works.take (w.works.length-(r+1))++[workOf call])
    (htable : m = openSubIds (.dispatch call::s.trace))
    (hentries : ∀ e ∈ m, e ∈ s.subDispatchToGroup ∨ e.2 = g)
    (hopen : ∀ u, m.countP (fun e => decide (e.2 = u)) ≤ openSubs s u+if g = u then 1 else 0) :
    Served window (Function.update rem g r) l
      { s with subDispatchToGroup := m, nextSubDispatchId := n,
               trace := .dispatch call::s.trace } := by
  have hpassed : ∀ t, passed .dispatcher (.dispatch call::s.trace) t =
      passed .dispatcher s.trace t++if g = t then [workOf call] else [] := fun t => by
    rw [passed_cons]
    simp [passedBy, howner]
  have hother : ∀ t, t ≠ g → passed .dispatcher (.dispatch call::s.trace) t =
      passed .dispatcher s.trace t := fun t ht => by
    rw [hpassed, if_neg (Ne.symm ht), List.append_nil]
  exact { h with
    shape := h.shape.of_eq rfl rfl rfl
    newest := fun hpos => h.newest hpos
    table := htable
    entries := fun e he => by
      rcases hentries e he with he | he
      · exact h.entries e he
      · rw [he]
        exact ⟨h0,hcur,hnot⟩
    waiting := fun u hu => by
      have hne : u ≠ g := fun he => hnot (he ▸ hu)
      rw [Function.update_of_ne hne]
      change _ ∧ _ ∧ passed .dispatcher (.dispatch call::s.trace) u = [] ∧ _
      rw [hother u hne]
      exact h.waiting u hu
    started := fun t v hv ht => by
      by_cases htg : (t : ℤ) = g
      · rw [← htg, Int.toNat_natCast, hv] at hw
        have hvw : v = w := Option.some.inj hw
        have hold := h.started t v hv ht
        rw [htg, hr, hvw] at hold
        change passed .dispatcher (.dispatch call::s.trace) t = _
        rw [htg, Function.update_self, hvw, hwork, hpassed, if_pos rfl, hold]
      · rw [Function.update_of_ne htg]
        change passed .dispatcher (.dispatch call::s.trace) t = _
        rw [hother t htg]
        exact h.started t v hv ht
    counted := fun u hu => by
      have hc := h.counted u hu
      have ho := hopen u
      change (s.get u).subCompleteCount+m.countP _ ≤
        (passed .dispatcher (.dispatch call::s.trace) u).length
      rw [hpassed, List.length_append]
      by_cases hgu : g = u
      · rw [if_pos hgu] at ho ⊢
        rw [List.length_singleton]
        omega
      · rw [if_neg hgu] at ho ⊢
        rw [List.length_nil]
        omega
    known := fun t ht => by
      have hlt : s.taskRing.currentIndex ≤ t := ht
      change passed .dispatcher (.dispatch call::s.trace) t = []
      rw [hother t (by omega)]
      exact h.known t ht }

/-- The next sub-task of a group that is being handed out. -/
theorem Served.passSub {g : ℤ} {i : ℕ} {k k' : Option String} {gp : List LinquParam}
    {subs rest : List LinquSubTaskSpec} {sub : LinquSubTaskSpec} (h : Served window rem l s)
    (h0 : 0 ≤ g) (hcur : g < s.taskRing.currentIndex)
    (hl : l[g.toNat]? = some (.group k gp subs)) (hnot : ¬ Waiting s g)
    (hr : rem g = rest.length+1) (hdrop : subs.drop i = sub::rest) (hk : k'.getD "" = k.getD "") :
    Served window (Function.update rem g rest.length) l
      ((s.assignSubId g).record (.dispatch (s.subCall s.nextSubDispatchId g k' gp i sub))) := by
  have hlen := congrArg List.length hdrop
  rw [List.length_drop, List.length_cons] at hlen
  have hsub : subs[i]? = some sub := by
    have h0 := congrArg (fun l => l[0]?) hdrop
    simpa using h0
  have hkernel : ∀ o : Option String, (o.or k').getD "" = (o.or k).getD "" := fun o => by
    cases o with
    | none => exact hk
    | some v => rfl
  apply Served.pass (s.subCall s.nextSubDispatchId g k' gp i sub) h h0 hcur hl hnot hr rfl _ _ _
    (countP_mapSet_le _ _ _)
  · simp only [Submission.works, List.length_map]
    rw [show subs.length-rest.length = i+1 by omega,
      show subs.length-(rest.length+1) = i by omega, List.take_add_one, List.getElem?_map, hsub]
    simp [subWork, workOf, subCall, hkernel]
  · change mapSet s.subDispatchToGroup _ _ = mapSet (openSubIds s.trace) _ _
    rw [h.table]
    rfl
  · intro e he
    rcases List.mem_cons.mp he with rfl | he
    · exact Or.inr rfl
    · exact Or.inl (List.mem_filter.mp he).1

/-- The loop over the sub-tasks of a group that waited. -/
theorem Served.handOut {g : ℤ} {k k' : Option String} {gp : List LinquParam}
    {subs : List LinquSubTaskSpec} {n : ℕ} (hl : l[g.toNat]? = some (.group k gp subs))
    (hk : k'.getD "" = k.getD "") (h0 : 0 ≤ g) (rest : List LinquSubTaskSpec) :
    ∀ (i : ℕ) (u u' : State), Served window (Function.update rem g rest.length) l u →
      g < u.taskRing.currentIndex → ¬ Waiting u g → subs.drop i = rest →
      dispatchFrom (fun s _ => .ok s) (fun _ s => .ok s) g k' gp n i rest u = .ok u' →
      Served window (Function.update rem g 0) l u' ∧ ¬ Waiting u' g := by
  induction rest with
  | nil =>
    intro i u u' h _ hnot _ hu
    cases hu
    exact ⟨h,hnot⟩
  | cons sub rest ih =>
    intro i u u' h hcur hnot hdrop hu
    rw [LinquOrchestratorState.dispatchFrom,
      dispatchSubTask_dispatcher g k' gp n _ i sub h.backend] at hu
    have hone := h.passSub h0 hcur hl hnot (by rw [Function.update_self]; rfl) hdrop hk
    rw [Function.update_idem] at hone
    apply ih (i+1) _ u' hone hcur hnot _ hu
    rw [← List.drop_drop, hdrop]
    rfl

theorem Served.eraseSpec {c : ℤ} (h : Served window rem l s) (hc : ¬ Waiting s c) :
    Served window rem l (s.eraseSpec c) :=
  { h with
    shape := h.shape.of_frame (frame_eraseSpec s c)
    waiting := fun g hg => by
      have hne : g ≠ c := fun he => hc (he ▸ hg)
      obtain ⟨hr,hgr,hp,k,gp,subs,hl,hspec⟩ := h.waiting g hg
      refine ⟨hr,hgr,hp,k,gp,subs,hl,?_⟩
      change (mapErase s.pendingGroupSpecs c).lookup g = _
      rw [lookup_mapErase hne]
      exact hspec }

theorem Served.wake {c : ℤ} {spec : PendingGroupSpec} (h : Served window rem l s)
    (hc : Waiting s c) (hspec : s.pendingGroupSpecs.lookup c = some spec)
    (hm : (s.setStatus c .running).dispatchGroupSubTasks (fun s _ => .ok s) (fun _ s => .ok s) c
      (some spec.kernelSo) spec.groupParams spec.subTasks = .ok s') :
    Served window rem l (s'.eraseSpec c) := by
  obtain ⟨hrem,-,-,k,gp,subs,hl,hspec'⟩ := h.waiting c hc
  rw [hspec] at hspec'
  cases hspec'
  have hnot : ¬ Waiting (s.setStatus c .running) c := by
    rintro ⟨-,hp⟩
    rw [get_setStatus, if_pos rfl] at hp
    cases hp
  obtain ⟨hs,hn⟩ := Served.handOut hl
    (show (some (k.getD "")).getD "" = k.getD "" from rfl) (owned_of_live h.shape hc.1).1 subs 0
    (s.setStatus c .running) s' (h.start hc hl) hc.1.2 hnot rfl hm
  rw [← hrem, Function.update_eq_self] at hs
  exact hs.eraseSpec hn

end Updates

/-- What a completion does: the consumers it checks own their slots. -/
theorem served_rule (window : ℤ) (rem : ℤ → ℕ) (l : List Submission) :
    PropagateRule (fun _ _ _ chk s => Served window rem l s ∧ ∀ c ∈ chk, Owned s c) := by
  have hsettles : ∀ (s s' : State) (chk : List ℤ), Settles s s' →
      Served window rem l s ∧ (∀ c ∈ chk, Owned s c) →
      Served window rem l s' ∧ ∀ c ∈ chk, Owned s' c := fun s s' chk hs h =>
    ⟨h.1.settles hs,fun c hc => ((calm_of_settles hs).owned c).mpr (h.2 c hc)⟩
  have hwaits : ∀ (s : State) (c : ℤ) (chk : List ℤ), Served window rem l s ∧
      (∀ d ∈ c::chk, Owned s d) → Satisfied s c → Waiting s c := fun s c chk h hs => by
    have hown := h.2 c List.mem_cons_self
    exact ⟨⟨h.1.retired c hown hs.2,hown.2.2⟩,hs.2⟩
  constructor
  case release => exact fun p _ _ _ chk s h => hsettles s _ chk (settles_release s p) h
  case notify => exact fun c _ _ chk s h _ => hsettles s _ chk (settles_notify s c) h
  case skip => exact fun c _ chk s h _ => ⟨h.1,fun d hd => h.2 d (List.mem_cons_of_mem c hd)⟩
  case ready =>
    intro c _ chk s h hs hg
    obtain ⟨-,hgr,-⟩ := h.1.waiting c (hwaits s c chk h hs)
    rw [hg] at hgr
    cases hgr
  case run =>
    intro c _ chk s h hs _ hor
    obtain ⟨-,-,-,k,gp,subs,-,hspec⟩ := h.1.waiting c (hwaits s c chk h hs)
    rcases hor with hb | hn
    · exact absurd h.1.backend hb
    · rw [hspec] at hn
      cases hn
  case dispatch =>
    intro c _ chk s s' spec h hs _ hb hspec hm
    have f := (dispatchFrom_only c _ _ _ _ 0 (s.setStatus c .running) s' hb hm).frame
    refine ⟨h.1.wake (hwaits s c chk h hs) hspec hm,fun d hd => ?_⟩
    have hown := h.2 d (List.mem_cons_of_mem c hd)
    change 0 ≤ d ∧ s'.taskRing.currentIndex ≤ d+s'.taskRing.windowSize ∧
      d < s'.taskRing.currentIndex
    rw [f.current, f.window]
    exact hown
  case count => exact fun _ _ _ _ hb _ h => absurd h.1.backend hb
  case complete => exact fun _ _ _ _ hb _ h => absurd h.1.backend hb
  case erase => exact fun _ _ _ _ hb _ h => absurd h.1.backend hb
  case finish => exact fun t _ chk s h => hsettles s _ chk (settles_check s t) h

section Calls

variable {window : ℤ} {rem : ℤ → ℕ} {l : List Submission} {s s' : State}

/-- A completion in a slot whose owner has started. -/
theorem Served.completes {t o : ℤ} (h : Served window rem l s) (ht : (s.get t).status ≠ .pending)
    (ho : Owned s o) (hslot : s.taskRing.slot t = s.taskRing.slot o) (hs : s.complete t = .ok s') :
    Served window rem l s' := by
  have hcalm := calm_complete ht
  have hlist : (s.setStatus t .completed).fanoutList t = s.fanoutList o := by
    rw [hcalm.fanoutList]
    simp only [fanoutList, get_eq_of_slot hslot]
  refine (propagate_rule (served_rule window rem l) (b := []) (c := []) hs
    ⟨h.calm hcalm,fun c hc => ?_⟩).1
  rw [List.append_nil, hlist] at hc
  obtain ⟨hle,hlt⟩ := h.consumers o ho c hc
  obtain ⟨h0,h1,-⟩ := ho
  exact (hcalm.owned c).mpr ⟨h0.trans hle,by omega,hlt⟩

/-- The report itself, with its entry taken out of the table. -/
theorem Served.record (h : Served window rem l s) (t : ℤ) :
    Served window rem l ((s.record (.report t)).eraseSubId t) := by
  exact { h with
    shape := h.shape.of_eq rfl rfl rfl
    newest := fun hpos => h.newest hpos
    table := congrArg (mapErase · t) h.table
    entries := fun e he => h.entries e (List.mem_filter.mp he).1
    waiting := fun g hg => by
      change _ ∧ _ ∧ passed .dispatcher (.report t::s.trace) g = [] ∧ _
      rw [passed_report]
      exact h.waiting g hg
    started := fun u w hw hu => by
      change passed .dispatcher (.report t::s.trace) u = _
      rw [passed_report]
      exact h.started u w hw hu
    counted := fun g hg => by
      have hsub := (List.filter_sublist (l := s.subDispatchToGroup)
        (p := fun e => decide (e.1 ≠ t))).countP_le (p := fun e => decide (e.2 = g))
      change (s.get g).subCompleteCount+(mapErase s.subDispatchToGroup t).countP _ ≤
        (passed .dispatcher (.report t::s.trace) g).length
      rw [passed_report]
      exact (Nat.add_le_add_left hsub _).trans (h.counted g hg)
    known := fun u hu => by
      change passed .dispatcher (.report t::s.trace) u = []
      rw [passed_report]
      exact h.known u hu }

theorem status_countSubTask (s : State) (g t : ℤ) :
    ((s.countSubTask g).get t).status = (s.get t).status :=
  get_modify_field LinquTaskDescriptor.status t fun _ => rfl

/-- A sub-task that was passed on is counted in the slot of its group. -/
theorem Served.countSub {g : ℤ} (h : Served window rem l s) (hg : Owned s g)
    (hroom : (s.get g).subCompleteCount+openSubs s g < (passed .dispatcher s.trace g).length) :
    Served window rem l (s.countSubTask g) := by
  have f := frame_countSubTask s g
  have hwait : ∀ u, Waiting (s.countSubTask g) u ↔ Waiting s u := fun u => by
    rw [Waiting, status_countSubTask]
    rfl
  exact { h with
    shape := h.shape.of_frame f
    consumers := fun u hu => by
      rw [f.fanoutList]
      exact h.consumers u hu
    retired := fun u hu hp => h.retired u hu (status_countSubTask s g u ▸ hp)
    running := fun u hu => h.running u (status_countSubTask s g u ▸ hu)
    entries := fun e he => by
      rw [hwait]
      exact h.entries e he
    waiting := fun u hu => by
      rw [f.isGroup]
      exact h.waiting u ((hwait u).mp hu)
    started := fun u w hw hu => h.started u w hw (fun hn => hu ((hwait u).mpr hn))
    counted := fun u hu => by
      change _+openSubs s u ≤ (passed .dispatcher s.trace u).length
      rw [countSubTask, get_modify]
      by_cases hslot : s.taskRing.slot u = s.taskRing.slot g
      · rw [if_pos hslot, Owned.unique hu hg hslot]
        change (s.get g).subCompleteCount+1+_ ≤ _
        omega
      · rw [if_neg hslot]
        exact h.counted u hu }

theorem Served.reported {t : ℤ} (h : Served window rem l s)
    (ht : Timely window (.report t::s.trace)) (hs : s.onTaskComplete t = .ok s') :
    Served window rem l s' := by
  unfold onTaskComplete at hs
  dsimp only at hs
  split at hs
  · rename_i g hg
    have hlookup : s.subDispatchToGroup.lookup t = some g := hg
    obtain ⟨h0,hlt,hnot⟩ := h.entries (t,g) (mem_of_lookup hlookup)
    have hown : Owned s g := by
      have hpos : 0 < s.taskRing.currentIndex := by omega
      have hnew := ht.1 g (by rw [← h.table]; exact hlookup) _ (h.newest hpos)
      rw [← h.window] at hnew
      exact ⟨h0,by omega,hlt⟩
    have hroom : (s.get g).subCompleteCount+(mapErase s.subDispatchToGroup t).countP
        (fun e => decide (e.2 = g)) < (passed .dispatcher (.report t::s.trace) g).length := by
      have hold := h.counted g hown
      have hle := countP_mapErase_le hlookup g
      rw [if_pos rfl] at hle
      rw [openSubs] at hold
      rw [passed_report]
      omega
    have hcount := (h.record t).countSub hown hroom
    split at hs
    · apply hcount.completes _ (o := g) hown rfl hs
      rw [status_countSubTask]
      intro hp
      have hp' : (s.get g).status = .pending := hp
      exact hnot ⟨⟨h.retired g hown hp',hlt⟩,hp'⟩
    · cases hs
      exact hcount
  · rename_i hnone
    have hsame : (s.record (.report t)).eraseSubId t = s.record (.report t) := by
      have hid : mapErase s.subDispatchToGroup t = s.subDispatchToGroup := by
        apply List.filter_eq_self.mpr
        intro e he
        apply decide_eq_true
        intro hek
        have hn : s.subDispatchToGroup.lookup t = none := hnone
        have := List.lookup_eq_none_iff.mp hn e he
        simp [hek] at this
      change { s.record (.report t) with subDispatchToGroup := mapErase s.subDispatchToGroup t } = _
      rw [hid]
      rfl
    have hr := h.record t
    rw [hsame] at hr
    split at hs
    · rename_i hrun
      have hst : (s.get t).status = .running := hrun
      obtain ⟨o,ho,hslot⟩ := h.running t hst
      apply hr.completes _ (owned_of_live hr.shape ho) hslot hs
      change (s.get t).status ≠ .pending
      simp [hst]
    · cases hs
      exact hr

theorem Served.deliver {ids : List ℤ} (h : Timely window s.trace → Served window rem l s)
    (hs : s.deliver ids = .ok s') : Timely window s'.trace → Served window rem l s' := by
  apply foldlM_rule (P := fun _ u => Timely window u.trace → Served window rem l u) _ ids h hs
  intro t _ u v hu hv ht
  have hone : Timely window (.report t::u.trace) :=
    timely_suffix ht (frame_onTaskComplete hv).suffix
  exact (hu hone.2).reported hone hv

end Calls

end Linqu.TimelyReports
