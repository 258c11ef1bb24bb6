import Linqu.TimelyReports

/-!
# Runs with a dispatcher

A submission enters with all of its works still to be passed. A plain task is
passed on at once, a group without producers sub-task by sub-task with
completions in between, and a group with producers waits with its spec.
-/

set_option autoImplicit false

namespace Linqu.DispatcherRuns
open Linqu.TaskRing Linqu.DepPool Linqu.Orchestrator Linqu.Orchestrator.LinquOrchestratorState
open Linqu.OrchestrationApi Linqu.Transition Linqu.OrchestratorRule Linqu.OrchestratorShape
open Linqu.OrchestratorCalls Linqu.OrchestratorDone Linqu.Reports Linqu.GroupDispatch
open Linqu.Submissions Linqu.TimelyReports Linqu.Tables

/-- The index of a task and its submission. -/
theorem submission_of_lt {l : List Submission} {w v : Submission} {t : ℕ}
    (h : (l++[w])[t]? = some v) : l[t]? = some v ∨ t = l.length ∧ v = w := by
  by_cases hlt : t < l.length
  · rw [List.getElem?_append_left hlt] at h
    exact Or.inl h
  · have hlen := (List.getElem?_eq_some_iff.mp h).1
    rw [List.length_append, List.length_singleton] at hlen
    have ht : t = l.length := by omega
    rw [ht, List.getElem?_concat_length] at h
    exact Or.inr ⟨ht,(Option.some.inj h).symm⟩

section Launch

variable {window : ℤ} {l : List Submission} {s s₁ s' : State} {tid : ℤ} {prods : List ℤ}

/-- An owner of a slot after the submission is the new task or was one before. -/
theorem owned_old {group : Option ℕ} (h : Shape s) (e : Entered s s₁ tid group prods) {t : ℤ}
    (ht : Owned s₁ t) (hne : t ≠ tid) : Owned s t ∧ s.taskRing.slot t ≠ s.taskRing.slot tid := by
  have hnew : Owned s₁ tid := owned_of_live e.shape (e.live_tid h)
  have hslot : s₁.taskRing.slot t ≠ s₁.taskRing.slot tid := fun hs => hne (ht.unique hnew hs)
  obtain ⟨h0,h1,h2⟩ := ht
  have hcur := e.current
  have hwin := e.window
  have htid := e.tid_eq
  refine ⟨⟨h0,by omega,by omega⟩,?_⟩
  simp only [LinquTaskRing.slot, e.window] at hslot
  exact hslot

/-- The tasks that keep their slots are as they were. -/
theorem entered_keeps {group : Option ℕ} (h : Shape s) (e : Entered s s₁ tid group prods) {t : ℤ}
    (ht : Owned s₁ t) (hne : t ≠ tid) :
    Owned s t ∧ s.taskRing.slot t ≠ s.taskRing.slot tid ∧
      ((s₁.setStatus tid .running).get t).status = (s.get t).status ∧
      ((s₁.setStatus tid .running).get t).isGroup = (s.get t).isGroup ∧
      ((s₁.setStatus tid .running).get t).subCompleteCount = (s.get t).subCompleteCount := by
  have hnew : Owned s₁ tid := owned_of_live e.shape (e.live_tid h)
  obtain ⟨hown,hslot⟩ := owned_old h e ht hne
  have hget : (s₁.setStatus tid .running).get t = s₁.get t := by
    rw [get_setStatus, if_neg (fun hs => hne (ht.unique hnew hs))]
  rw [hget, e.old t hslot]
  exact ⟨hown,hslot,rfl,rfl,rfl⟩

/-- A task that is passed on at once does not wait, so the same tasks do. -/
theorem waiting_entered {group : Option ℕ} (h : Shape s) (e : Entered s s₁ tid group prods)
    (t : ℤ) : Waiting (s₁.setStatus tid .running) t ↔ Waiting s t := by
  constructor
  · rintro ⟨hlive,hp⟩
    have hne : t ≠ tid := by
      rintro rfl
      rw [get_setStatus, if_pos rfl] at hp
      cases hp
    obtain ⟨-,-,hst,-⟩ := entered_keeps h e (owned_of_live e.shape hlive) hne
    exact ⟨((e.live h).mp hlive).resolve_right hne,hst ▸ hp⟩
  · rintro ⟨hlive,hp⟩
    have hne : t ≠ tid := fun he => e.not_live (he ▸ hlive)
    have hlive' : s₁.taskRing.Live t := (e.live h).mpr (Or.inl hlive)
    obtain ⟨-,-,hst,-⟩ := entered_keeps h e (owned_of_live e.shape hlive') hne
    exact ⟨hlive',hst.trans hp⟩

/-- A new task has passed nothing on and counted nothing. -/
theorem Served.entered {k : String} {params : List LinquParam} {w : Submission}
    (h : Served window (fun _ => 0) l s) (he : s.enterTask k w.size params = .ok (tid,s₁))
    (e : Entered s s₁ tid w.size prods) :
    Served window (Function.update (fun _ => 0) tid w.works.length) (l++[w])
      (s₁.setStatus tid .running) := by
  have f := frame_setStatus s₁ tid .running
  have hlen : tid.toNat = l.length := by
    have := h.length
    have := e.tid_eq
    omega
  have hpassed : ∀ u, passed .dispatcher s₁.trace u = passed .dispatcher s.trace u := fun u => by
    rw [e.trace]
    exact passed_submit ..
  have hnone : passed .dispatcher s₁.trace tid = [] := by
    rw [hpassed]
    exact h.known tid e.tid_eq.ge
  have hsub : ∀ x ∈ s.subDispatchToGroup, x.2 ≠ tid := fun x hx he => by
    have := (h.entries x hx).2.1
    have := e.tid_eq
    omega
  have hwait : ∀ t, Waiting (s₁.setStatus tid .running) t ↔ Waiting s t :=
    waiting_entered h.shape e
  constructor
  case shape => exact e.shape.of_frame f
  case backend => exact e.backend.trans h.backend
  case window => exact e.window.trans h.window
  case length =>
    change ((l++[w]).length : ℤ) = s₁.taskRing.currentIndex
    rw [List.length_append, List.length_singleton, e.current, e.tid_eq, ← h.length]
    rfl
  case newest =>
    intro _
    change s₁.taskRing.currentIndex-1 ∈ submittedIds s₁.trace
    rw [e.current, e.trace, add_sub_cancel_right]
    exact List.mem_cons_self
  case table =>
    change s₁.subDispatchToGroup = openSubIds s₁.trace
    rw [e.subDispatchToGroup, e.trace]
    exact h.table
  case consumers =>
    intro t ht c hc
    change c ∈ (s₁.setStatus tid .running).fanoutList t at hc
    change t ≤ c ∧ c < s₁.taskRing.currentIndex
    rw [f.fanoutList] at hc
    have hcur := e.current
    by_cases htt : t = tid
    · rw [htt, e.fanout_new] at hc
      rw [List.eq_of_mem_replicate hc]
      exact ⟨htt.le,by omega⟩
    · obtain ⟨hown,hslot,-⟩ := entered_keeps h.shape e ht htt
      have htid := e.tid_eq
      rcases enterTask_consumers h.shape he t hslot c hc with rfl | hc
      · have := hown.2.2
        exact ⟨by omega,by omega⟩
      · obtain ⟨h1,h2⟩ := h.consumers t hown c hc
        exact ⟨h1,by omega⟩
  case retired =>
    intro t ht hp
    change s₁.taskRing.lastTaskAlive ≤ t
    rw [e.alive]
    by_cases htt : t = tid
    · rw [htt, e.tid_eq]
      exact h.shape.ring.alive_le
    · obtain ⟨hown,-,hst,-⟩ := entered_keeps h.shape e ht htt
      exact h.retired t hown (hst ▸ hp)
  case running =>
    intro t ht
    by_cases hslot : s.taskRing.slot t = s.taskRing.slot tid
    · refine ⟨tid,e.live_tid h.shape,?_⟩
      change s₁.taskRing.slot t = s₁.taskRing.slot tid
      simp only [LinquTaskRing.slot, e.window]
      exact hslot
    · have hslot' : s₁.taskRing.slot t ≠ s₁.taskRing.slot tid := by
        simp only [LinquTaskRing.slot, e.window]
        exact hslot
      rw [get_setStatus, if_neg hslot', e.old t hslot] at ht
      obtain ⟨o,ho,hs⟩ := h.running t ht
      refine ⟨o,(e.live h.shape).mpr (Or.inl ho),?_⟩
      change s₁.taskRing.slot t = s₁.taskRing.slot o
      simp only [LinquTaskRing.slot, e.window]
      exact hs
  case entries =>
    intro x hx
    have hx' : x ∈ s.subDispatchToGroup := e.subDispatchToGroup ▸ hx
    obtain ⟨h0,hlt,hn⟩ := h.entries x hx'
    rw [hwait]
    refine ⟨h0,?_,hn⟩
    change x.2 < s₁.taskRing.currentIndex
    have hcur := e.current
    have htid := e.tid_eq
    omega
  case waiting =>
    intro g hg
    have hw := (hwait g).mp hg
    have hne : g ≠ tid := fun he => e.not_live (he ▸ hw.1)
    obtain ⟨-,hgr,hp,k,gp,subs,hl,hspec⟩ := h.waiting g hw
    obtain ⟨-,-,-,hgroup,-⟩ :=
      entered_keeps h.shape e (owned_of_live e.shape hg.1) hne
    rw [Function.update_of_ne hne, hgroup]
    change 0 = 0 ∧ _ ∧ passed .dispatcher s₁.trace g = [] ∧ ∃ k gp subs, _ ∧
      s₁.pendingGroupSpecs.lookup g = _
    rw [hpassed, e.pendingGroupSpecs]
    refine ⟨rfl,hgr,hp,k,gp,subs,?_,hspec⟩
    rw [List.getElem?_append_left (List.getElem?_eq_some_iff.mp hl).1]
    exact hl
  case started =>
    intro t v hv ht
    change passed .dispatcher s₁.trace t = _
    rcases submission_of_lt hv with hv | ⟨hlt,rfl⟩
    · have hlt := (List.getElem?_eq_some_iff.mp hv).1
      have hne : (t : ℤ) ≠ tid := by omega
      rw [hwait] at ht
      rw [Function.update_of_ne hne, hpassed]
      exact h.started t v hv ht
    · have htt : (t : ℤ) = tid := by
        have := h.length
        have := e.tid_eq
        omega
      rw [htt, Function.update_self, hnone, Nat.sub_self, List.take_zero]
  case counted =>
    intro g hg
    change _+s₁.subDispatchToGroup.countP _ ≤ (passed .dispatcher s₁.trace g).length
    rw [e.subDispatchToGroup]
    by_cases hgt : g = tid
    · rw [hgt]
      have hzero : s.subDispatchToGroup.countP (fun x => decide (x.2 = tid)) = 0 :=
        List.countP_eq_zero.mpr fun x hx => by simpa using hsub x hx
      have hcount : ((s₁.setStatus tid .running).get tid).subCompleteCount = 0 := by
        obtain ⟨_,_,_,hn⟩ := e.new
        rw [get_setStatus, if_pos rfl, hn]
      rw [hzero, hcount]
      exact Nat.zero_le _
    · obtain ⟨hown,-,-,-,hcount⟩ := entered_keeps h.shape e hg hgt
      rw [hcount, hpassed]
      exact h.counted g hown
  case known =>
    intro t ht
    change passed .dispatcher s₁.trace t = []
    have hcur : s₁.taskRing.currentIndex ≤ t := ht
    rw [e.current] at hcur
    rw [hpassed]
    exact h.known t (by have := e.tid_eq; omega)

theorem zero_update (tid : ℤ) : Function.update (fun _ : ℤ => 0) tid 0 = fun _ => 0 :=
  Function.update_eq_self (f := fun _ : ℤ => 0) tid

theorem running_not_waiting {s : State} {g : ℤ} : ¬ Waiting (s.setStatus g .running) g := by
  rintro ⟨-,hp⟩
  rw [get_setStatus, if_pos rfl] at hp
  cases hp

theorem Served.launchTask {target : LinquCoordinate} {k : Option String}
    {params : List LinquParam} (h : Served window (fun _ => 0) l s)
    (he : s.enterTask (k.getD "") none params = .ok (tid,s₁)) (e : Entered s s₁ tid none prods)
    (hs : s₁.launchTask tid target k params = .ok s') :
    Served window (fun _ => 0) (l++[.task target k params]) s' := by
  have hent := Served.entered (w := .task target k params) h he e
  have hb : (s₁.setStatus tid .running).backend = .dispatcher := hent.backend
  have htid : 0 ≤ tid := (owned_of_live e.shape (e.live_tid h.shape)).1
  have hlen : tid.toNat = l.length := by
    have := h.length
    have := e.tid_eq
    omega
  unfold LinquOrchestratorState.launchTask at hs
  dsimp only at hs
  rw [hb] at hs
  cases hs
  have hone := Served.pass (w := .task target k params) (r := 0) (n := s₁.nextSubDispatchId)
    ⟨tid,target,k.getD "",params,.plain,(s₁.setStatus tid .running).taskRing,
      (s₁.setStatus tid .running).depPool⟩ hent htid
    (show tid < s₁.taskRing.currentIndex by rw [e.current]; omega)
    (by rw [hlen]; simp) running_not_waiting (by rw [Function.update_self]; rfl) rfl rfl hent.table
    (fun _ hx => Or.inl hx) (fun _ => Nat.le_add_right _ _)
  rw [Function.update_idem, zero_update] at hone
  exact hone

/-- The loop of an immediate group; what is reported in between starts others. -/
theorem Served.launchFrom (rem : ℤ → ℕ) {g : ℤ} {k : Option String} {gp : List LinquParam}
    {subs : List LinquSubTaskSpec} {n fuel : ℕ} {arrivals : ℕ → List ℤ}
    (hl : l[g.toNat]? = some (.group k gp subs)) (h0 : 0 ≤ g) (rest : List LinquSubTaskSpec) :
    ∀ (i : ℕ) (u u' : State), u.backend = .dispatcher →
      (Timely window u.trace → Served window (Function.update rem g rest.length) l u) →
      g < u.taskRing.currentIndex → Awake g u → subs.drop i = rest →
      dispatchFrom (propagateCompletion fuel) (fun i s => s.deliver (arrivals i)) g k gp n i rest
        u = .ok u' →
      u.trace <:+ u'.trace ∧
        (Timely window u'.trace → Served window (Function.update rem g 0) l u') := by
  induction rest with
  | nil =>
    intro i u u' _ h _ _ _ hu
    cases hu
    exact ⟨List.suffix_rfl,h⟩
  | cons sub rest ih =>
    intro i u u' hb h hcur hst hdrop hu
    rw [LinquOrchestratorState.dispatchFrom,
      dispatchSubTask_dispatcher g k gp n _ i sub hb] at hu
    obtain ⟨_,hd,hu⟩ := bind_ok.mp hu
    cases hd
    obtain ⟨v,hv,hu⟩ := bind_ok.mp hu
    have hone : Timely window u.trace → Served window (Function.update rem g rest.length) l
        ((u.assignSubId g).record
          (.dispatch (u.subCall u.nextSubDispatchId g k gp i sub))) := fun ht => by
      have hd := (h ht).passSub h0 hcur hl (fun hn => hst.2 hn.2)
        (by rw [Function.update_self]; rfl) hdrop rfl
      rwa [Function.update_idem] at hd
    -- between two calls the group stays started and the ring keeps its bounds
    have hkeep : v.backend = .dispatcher ∧ v.taskRing.currentIndex = u.taskRing.currentIndex ∧
        Awake g v ∧ u.trace <:+ v.trace := by
      apply foldlM_rule (P := fun _ v => v.backend = .dispatcher ∧
        v.taskRing.currentIndex = u.taskRing.currentIndex ∧ Awake g v ∧ u.trace <:+ v.trace)
        (s := (u.assignSubId g).record (.dispatch (u.subCall u.nextSubDispatchId g k gp i sub))) _
        (arrivals i) ⟨hb,rfl,⟨hst.1.of_eq rfl rfl rfl,hst.2⟩,List.suffix_cons _ _⟩ hv
      rintro t _ x y ⟨h1,h2,h3,h4⟩ hy
      have f := frame_onTaskComplete hy
      exact ⟨f.backend.trans h1,f.current.trans h2,onTaskComplete_task_rule (awake_rule g) h3 hy,
        h4.trans ((List.suffix_cons _ _).trans f.suffix)⟩
    obtain ⟨hvb,hvc,hvs,hsuf⟩ := hkeep
    obtain ⟨hs,hserved⟩ := ih (i+1) v u' hvb (Served.deliver hone hv) (hvc ▸ hcur) hvs
      (by rw [← List.drop_drop, hdrop]; rfl) hu
    exact ⟨hsuf.trans hs,hserved⟩

/-- A group that waits keeps its spec. -/
theorem Served.park {c : ℤ} {k : Option String} {gp : List LinquParam}
    {subs : List LinquSubTaskSpec}
    (h : Served window (Function.update (fun _ => 0) c subs.length) l s)
    (hc : s.taskRing.Live c) (hst : (s.get c).status = .running) (hg : (s.get c).isGroup = true)
    (hl : l[c.toNat]? = some (.group k gp subs)) :
    Served window (fun _ => 0) l { s.setStatus c .pending with
      pendingGroupSpecs := mapSet s.pendingGroupSpecs c ⟨k.getD "",gp,subs⟩ } := by
  have f := frame_setStatus s c .pending
  have hown := owned_of_live h.shape hc
  have hcast : ((c.toNat : ℕ) : ℤ) = c := Int.toNat_of_nonneg hown.1
  have hnone : passed .dispatcher s.trace c = [] := by
    have hs := h.started c.toNat _ hl (by rw [hcast]; rintro ⟨-,hp⟩; rw [hst] at hp; cases hp)
    rw [hcast, Function.update_self, Submission.works, List.length_map, Nat.sub_self,
      List.take_zero] at hs
    exact hs
  have hout : ∀ e ∈ s.subDispatchToGroup, e.2 ≠ c := by
    have hcnt := h.counted c hown
    rw [hnone, List.length_nil] at hcnt
    intro e he hec
    have hzero : openSubs s c = 0 := by omega
    exact List.countP_eq_zero.mp hzero e he (decide_eq_true hec)
  have hget : ∀ t, Owned s t → t ≠ c → (s.setStatus c .pending).get t = s.get t := by
    intro t ht hne
    rw [get_setStatus, if_neg (fun hs => hne (ht.unique hown hs))]
  have hwait : ∀ t, t ≠ c → (Waiting (s.setStatus c .pending) t ↔ Waiting s t) := by
    intro t hne
    constructor
    · rintro ⟨hlt,hp⟩
      rw [hget t (owned_of_live h.shape hlt) hne] at hp
      exact ⟨hlt,hp⟩
    · rintro ⟨hlt,hp⟩
      refine ⟨hlt,?_⟩
      rw [hget t (owned_of_live h.shape hlt) hne]
      exact hp
  exact { h with
    shape := (h.shape.of_frame f).of_eq rfl rfl rfl
    consumers := fun t ht x hx => by
      change x ∈ (s.setStatus c .pending).fanoutList t at hx
      rw [f.fanoutList] at hx
      exact h.consumers t ht x hx
    retired := fun t ht hp => by
      by_cases htc : t = c
      · rw [htc]
        exact hc.1
      · change ((s.setStatus c .pending).get t).status = _ at hp
        rw [hget t ht htc] at hp
        exact h.retired t ht hp
    running := fun t ht => by
      change ((s.setStatus c .pending).get t).status = _ at ht
      rw [get_setStatus] at ht
      split at ht
      · cases ht
      · exact h.running t ht
    entries := fun e he => by
      obtain ⟨h1,h2,hn⟩ := h.entries e he
      exact ⟨h1,h2,fun hw => hn ((hwait e.2 (hout e he)).mp hw)⟩
    waiting := fun g hgw => by
      change 0 = 0 ∧ ((s.setStatus c .pending).get g).isGroup = true ∧ _ ∧ ∃ k' gp' subs', _ ∧
        (mapSet s.pendingGroupSpecs c ⟨k.getD "",gp,subs⟩).lookup g = _
      rw [f.isGroup]
      by_cases hgc : g = c
      · subst hgc
        exact ⟨rfl,hg,hnone,k,gp,subs,hl,lookup_mapSet_self ..⟩
      · obtain ⟨-,hgr,hp,k',gp',subs',hl',hspec⟩ := h.waiting g ((hwait g hgc).mp hgw)
        refine ⟨rfl,hgr,hp,k',gp',subs',hl',?_⟩
        exact (lookup_mapSet hgc).trans hspec
    started := fun t w hw ht => by
      by_cases htc : (t : ℤ) = c
      · refine absurd ?_ ht
        rw [htc]
        refine ⟨hc,?_⟩
        change ((s.setStatus c .pending).get c).status = _
        rw [get_setStatus, if_pos rfl]
      · have hs := h.started t w hw (fun hn => ht ((hwait t htc).mpr hn))
        rw [Function.update_of_ne htc] at hs
        exact hs
    counted := fun g hgo => by
      change ((s.setStatus c .pending).get g).subCompleteCount+_ ≤ _
      rw [setStatus_field LinquTaskDescriptor.subCompleteCount (fun _ _ => rfl)]
      exact h.counted g hgo }

/-- Served, in runs with timely reports. -/
structure Attended (window : ℤ) (l : List Submission) (s : State) : Prop where
  shape : Shape s
  backend : s.backend = .dispatcher
  served : Timely window s.trace → Served window (fun _ => 0) l s

theorem Attended.launchGroup {k : Option String} {params : List LinquParam}
    {subs : List LinquSubTaskSpec} {arrivals : List (List ℤ)} (h : Attended window l s)
    (he : s.enterTask (k.getD "group") (some subs.length) params = .ok (tid,s₁))
    (e : Entered s s₁ tid (some subs.length) prods)
    (hs : s₁.launchGroup tid k params subs arrivals = .ok s') (ht : Timely window s'.trace) :
    Served window (fun _ => 0) (l++[.group k params subs]) s' := by
  have hlive : s₁.taskRing.Live tid := e.live_tid h.shape
  have hnew : (s₁.get tid).isGroup = true := by
    obtain ⟨_,_,_,hn⟩ := e.new
    rw [hn]
    rfl
  have hent : Timely window s₁.trace → Served window (Function.update (fun _ => 0) tid subs.length)
      (l++[.group k params subs]) (s₁.setStatus tid .running) := fun ht => by
    rw [e.trace] at ht
    have hs := Served.entered (w := .group k params subs) (h.served ht) he e
    rwa [Submission.works, List.length_map] at hs
  have hindex : Timely window s₁.trace →
      (l++[.group k params subs])[tid.toNat]? = some (.group k params subs) := fun ht => by
    have hlen : tid.toNat = l.length := by
      rw [e.trace] at ht
      have := (h.served ht).length
      have := e.tid_eq
      omega
    rw [hlen]
    simp
  have hrun : ((s₁.setStatus tid .running).get tid).status = .running := by
    rw [get_setStatus, if_pos rfl]
  unfold LinquOrchestratorState.launchGroup at hs
  split at hs
  · rename_i hn
    have hs' : (s₁.setStatus tid .running).complete tid = .ok s' := by
      rw [complete, setStatus_setStatus]
      exact hs
    have hacc := hent (timely_suffix ht (frame_complete hs).suffix)
    rw [hn, zero_update] at hacc
    exact hacc.completes (by rw [hrun]; simp) (owned_of_live hacc.shape hlive) rfl hs'
  · split at hs
    · have hpos : 0 ≤ tid := (owned_of_live e.shape hlive).1
      obtain ⟨new,hnew',-⟩ := (DispatchOrder.follows_dispatchFrom subs 0 _ s' hs).events
      have hsuf : s₁.trace <:+ s'.trace := ⟨new,hnew'.symm⟩
      have hloop := Served.launchFrom (fun _ => 0) (hindex (timely_suffix ht hsuf)) hpos subs
        0 (s₁.setStatus tid .running) s' (e.backend.trans h.backend) hent hlive.2
        ⟨e.shape.of_frame (frame_setStatus s₁ tid .running),by rw [hrun]; simp⟩ rfl hs
      rw [zero_update] at hloop
      exact hloop.2 ht
    · cases hs
      have hpark := Served.park (hent ht) hlive hrun
        (((frame_setStatus s₁ tid .running).isGroup tid).trans hnew) (hindex ht)
      rw [setStatus_setStatus] at hpark
      exact hpark

end Launch

end Linqu.DispatcherRuns
