import Linqu.Reports
import Linqu.DispatchOrder
import Linqu.Tables

/-!
# The dispatch of groups

With a dispatcher that reports asynchronously, every sub-task of a group is
accounted for: it is still to be dispatched, or it is out under an id of the
table, or it has been counted. `Account` carries this budget, and the other
half of the fanin account: the counter of a task never exceeds the number of
its fanin entries whose producer is finished. The sub-tasks of a group that
is being dispatched and has not yet been handed out completely are counted by
`rem`.
-/

set_option autoImplicit false

namespace Linqu.GroupDispatch
open Linqu.TaskRing Linqu.DepPool Linqu.TensorMap Linqu.Orchestrator
open Linqu.Orchestrator.LinquOrchestratorState Linqu.OrchestrationApi Linqu.Transition
open Linqu.OrchestratorRule Linqu.OrchestratorShape Linqu.OrchestratorCalls Linqu.OrchestratorDone
open Linqu.Reports Linqu.DispatchOrder Linqu.Tables

/-- The specs handed to the dispatcher, as group and index. -/
def subDispatches (l : List Event) : List (ℤ × ℕ) :=
  l.filterMap fun
    | .dispatch call => match call.origin with
      | .sub g i => some (g,i)
      | .plain => none
    | _ => none

/-- At the call the producers of the group had completed or were retired. -/
def Released (call : DispatchCall) (g : ℤ) : Prop :=
  ∀ p ∈ call.depPool.tasks (call.ring.get g).depListHead,
    p < call.ring.lastTaskAlive ∨ (call.ring.get p).status.isDone = true

/-- The specs of a live group that are still to be handed out. -/
def undispatched (rem : ℤ → ℕ) (s : State) (g : ℤ) : ℕ :=
  if (s.get g).status = .pending then (s.get g).groupSize else rem g

/-- The ids under which sub-tasks of a group are out. -/
def openSubs (s : State) (g : ℤ) : ℕ := s.subDispatchToGroup.countP (fun e => decide (e.2 = g))

structure Account (rem : ℤ → ℕ) (ntf chk : List ℤ) (s : State) : Prop where
  shape : Shape s
  backend : s.backend = .dispatcher
  chk_live : ∀ c ∈ chk, s.taskRing.Live c
  met : ∀ c, s.taskRing.Live c →
    (s.get c).faninRefcount+ntf.count c ≤ (s.faninList c).countP (finished s)
  plain : ∀ call, .dispatch call ∈ s.trace → call.origin = .plain → 0 ≤ call.taskId ∧
    (.report call.taskId ∉ s.trace →
      Running s call.taskId ∧ (s.get call.taskId).isGroup = false)
  known : ∀ call g i, .dispatch call ∈ s.trace → call.origin = .sub g i →
    s.nextSubDispatchId < call.taskId ∧ call.taskId < 0 ∧ g < s.taskRing.currentIndex ∧
      (.report call.taskId ∉ s.trace → ∃ e ∈ s.subDispatchToGroup, e.1 = call.taskId)
  keys : (s.subDispatchToGroup.map Prod.fst).Nodup
  next : s.nextSubDispatchId < 0 ∧ ∀ e ∈ s.subDispatchToGroup, s.nextSubDispatchId < e.1
  groups : ∀ e ∈ s.subDispatchToGroup, Running s e.2 ∧ (s.get e.2).isGroup = true
  busy : ∀ g, rem g ≠ 0 → Running s g ∧ (s.get g).isGroup = true
  specs : ∀ g, s.taskRing.Live g → (s.get g).status = .pending → (s.get g).isGroup = true ∧
    ∃ spec, s.pendingGroupSpecs.lookup g = some spec ∧ spec.subTasks.length = (s.get g).groupSize
  budget : ∀ g, s.taskRing.Live g → (s.get g).isGroup = true → finished s g = false →
    (s.get g).subCompleteCount+openSubs s g+undispatched rem s g = (s.get g).groupSize
  indices : ∀ g i, s.taskRing.Live g → finished s g = false → (g,i) ∈ subDispatches s.trace →
    i+undispatched rem s g < (s.get g).groupSize
  once : (subDispatches s.trace).Nodup
  released : ∀ call g i, .dispatch call ∈ s.trace → call.origin = .sub g i → Released call g

section Updates

variable {rem : ℤ → ℕ} {ntf chk : List ℤ} {s s' : State}

/-- Settling statuses keeps all but the fanin account. -/
theorem Account.settle {ntf' chk' : List ℤ} (h : Account rem ntf chk s) (hs : Settles s s')
    (hmet : ∀ c, s.taskRing.Live c →
      (s'.get c).faninRefcount+ntf'.count c ≤ (s.faninList c).countP (finished s))
    (hchk : ∀ c ∈ chk', s.taskRing.Live c) : Account rem ntf' chk' s' := by
  have hpend : ∀ t, (s'.get t).status = .pending ↔ (s.get t).status = .pending := fun t => by
    rcases hs.status t with he | ⟨h1,h2⟩
    · rw [he]
    · rw [h1, h2]; simp
  have hun : ∀ g, undispatched rem s' g = undispatched rem s g := fun g => by
    simp only [undispatched, hpend, hs.groupSize]
  have hopen : ∀ g, openSubs s' g = openSubs s g := fun g => by simp only [openSubs, hs.subs]
  constructor
  case shape => exact hs.shape h.shape
  case backend => exact hs.backend.trans h.backend
  case chk_live => exact fun c hc => hs.live.mpr (hchk c hc)
  case met =>
    intro c hc
    rw [hs.faninList, hs.finished]
    exact hmet c (hs.live.mp hc)
  case plain =>
    intro call hc ho
    rw [hs.trace] at hc ⊢
    rw [hs.running, hs.isGroup]
    exact h.plain call hc ho
  case known =>
    intro call g i hc ho
    rw [hs.trace] at hc ⊢
    rw [hs.nextSub, hs.current, hs.subs]
    exact h.known call g i hc ho
  case keys => rw [hs.subs]; exact h.keys
  case next => rw [hs.subs, hs.nextSub]; exact h.next
  case groups =>
    intro e he
    rw [hs.running, hs.isGroup]
    exact h.groups e (hs.subs ▸ he)
  case busy =>
    intro g hg
    rw [hs.running, hs.isGroup]
    exact h.busy g hg
  case specs =>
    intro g hg hp
    rw [hs.isGroup, hs.specs, hs.groupSize]
    exact h.specs g (hs.live.mp hg) ((hpend g).mp hp)
  case budget =>
    intro g hg hgr hf
    rw [(hs.desc g).2, hopen, hun, hs.groupSize]
    exact h.budget g (hs.live.mp hg) ((hs.isGroup g).symm.trans hgr) (hs.finished ▸ hf)
  case indices =>
    intro g i hg hf hm
    rw [hun, hs.groupSize]
    exact h.indices g i (hs.live.mp hg) (hs.finished ▸ hf) (hs.trace ▸ hm)
  case once => rw [hs.trace]; exact h.once
  case released => rw [hs.trace]; exact h.released

/-- Settling that leaves the fanin counters alone. -/
theorem Account.of_settles (h : Account rem ntf chk s) (hs : Settles s s')
    (hrc : ∀ t, (s'.get t).faninRefcount = (s.get t).faninRefcount) : Account rem ntf chk s' :=
  h.settle hs (fun c hc => by rw [hrc]; exact h.met c hc) h.chk_live

theorem Account.check (h : Account rem ntf chk s) (t : ℤ) :
    Account rem ntf chk (s.checkTaskConsumed t) :=
  h.of_settles (settles_check s t)
    (checkTaskConsumed_field LinquTaskDescriptor.faninRefcount (fun _ _ => rfl) s t)

theorem Account.raise (h : Account rem ntf chk s) (t : ℤ) :
    Account rem ntf chk (s.raiseFanout t) :=
  h.of_settles (settles_raise s t) fun u => by rw [get_raiseFanout]

theorem Account.notify {c : ℤ} (h : Account rem (c::ntf) chk s) (hc : c ∈ chk) :
    Account rem ntf chk (s.notifyConsumer c) := by
  refine h.settle (settles_notify s c) (fun t ht => ?_) h.chk_live
  have hm := h.met t ht
  rw [notifyConsumer, h.shape.get_modify ht (h.chk_live c hc)]
  rw [List.count_cons] at hm
  by_cases hct : t = c
  · subst hct
    simp only [beq_self_eq_true, if_true] at hm ⊢
    omega
  · simp only [beq_iff_eq, Ne.symm hct, hct, if_false] at hm ⊢
    omega

/-- Another report can only close what was out. -/
theorem Account.report (h : Account rem ntf chk s) (t : ℤ) :
    Account rem ntf chk (s.record (.report t)) := by
  have hmem : ∀ call, .dispatch call ∈ (s.record (.report t)).trace → .dispatch call ∈ s.trace :=
    fun call hc => (List.mem_cons.mp hc).resolve_left (by simp)
  have hrep : ∀ u, .report u ∉ (s.record (.report t)).trace → .report u ∉ s.trace :=
    fun u hu hm => hu (List.mem_cons_of_mem _ hm)
  exact { h with
    shape := h.shape.of_eq rfl rfl rfl
    plain := fun call hc ho => (h.plain call (hmem call hc) ho).imp_right fun hr hn =>
      hr (hrep _ hn)
    known := fun call g i hc ho => by
      obtain ⟨h1,h2,h3,h4⟩ := h.known call g i (hmem call hc) ho
      exact ⟨h1,h2,h3,fun hn => h4 (hrep _ hn)⟩
    released := fun call g i hc => h.released call g i (hmem call hc) }

/-- A group that is not done takes another status; what is left of it to hand
out stays the same. -/
theorem Account.restate {c : ℤ} {v : Status} {m : List (ℤ × PendingGroupSpec)}
    (h : Account rem ntf chk s) (rem' : ℤ → ℕ) (hc : s.taskRing.Live c) (hg : (s.get c).isGroup = true)
    (hf : finished s c = false) (hv : v = .running ∨ v = .pending)
    (hout : ∀ e ∈ s.subDispatchToGroup, e.2 ≠ c) (hrem : ∀ g, g ≠ c → rem' g = rem g)
    (hun : (if v = .pending then (s.get c).groupSize else rem' c) = undispatched rem s c)
    (hidle : v = .pending → rem' c = 0 ∧
      ∃ spec, m.lookup c = some spec ∧ spec.subTasks.length = (s.get c).groupSize)
    (hm : ∀ g, g ≠ c → m.lookup g = s.pendingGroupSpecs.lookup g) :
    Account rem' ntf chk { s.setStatus c v with pendingGroupSpecs := m } := by
  have f := frame_setStatus s c v
  have hst : ∀ t, s.taskRing.Live t → ((s.setStatus c v).get t).status =
      if t = c then v else (s.get t).status := fun t ht => status_setStatus h.shape ht hc v
  have hfin : finished { s.setStatus c v with pendingGroupSpecs := m } = finished s := by
    rw [finished_live hc] at hf
    exact finished_setStatus hf (by rcases hv with rfl | rfl <;> rfl)
  have hrun : ∀ t, t ≠ c → Running s t →
      Running { s.setStatus c v with pendingGroupSpecs := m } t := fun t ht hr => by
    refine ⟨hr.1,?_⟩
    change ((s.setStatus c v).get t).status = _
    rw [hst t hr.1, if_neg ht]
    exact hr.2
  have hund : ∀ g, s.taskRing.Live g →
      undispatched rem' { s.setStatus c v with pendingGroupSpecs := m } g = undispatched rem s g := by
    intro g hl
    change (if ((s.setStatus c v).get g).status = .pending then ((s.setStatus c v).get g).groupSize
      else rem' g) = _
    rw [hst g hl, f.groupSize]
    by_cases hgc : g = c
    · subst hgc
      rw [if_pos rfl]
      exact hun
    · rw [if_neg hgc, hrem g hgc]
      rfl
  have hcount : ∀ g, ((s.setStatus c v).get g).subCompleteCount = (s.get g).subCompleteCount :=
    fun g => setStatus_field LinquTaskDescriptor.subCompleteCount (fun _ _ => rfl) s c g v
  exact { h with
    shape := (h.shape.of_frame f).of_eq rfl rfl rfl
    met := fun t ht => by
      change ((s.setStatus c v).get t).faninRefcount+_ ≤ ((s.setStatus c v).faninList t).countP _
      rw [hfin, f.faninList,
        setStatus_field LinquTaskDescriptor.faninRefcount (fun _ _ => rfl) s c t v]
      exact h.met t ht
    plain := fun call hm ho => (h.plain call hm ho).imp_right fun hr hn => by
      obtain ⟨hrun',hgr⟩ := hr hn
      have hne : call.taskId ≠ c := fun he => by rw [he, hg] at hgr; cases hgr
      exact ⟨hrun _ hne hrun',(f.isGroup _).trans hgr⟩
    groups := fun e he =>
      ⟨hrun _ (hout e he) (h.groups e he).1,(f.isGroup _).trans (h.groups e he).2⟩
    busy := fun g hr => by
      by_cases hgc : g = c
      · subst hgc
        refine ⟨⟨hc,?_⟩,(f.isGroup g).trans hg⟩
        change ((s.setStatus g v).get g).status = _
        rw [hst g hc, if_pos rfl]
        rcases hv with rfl | rfl
        · rfl
        · exact absurd (hidle rfl).1 hr
      · have hb := h.busy g (hrem g hgc ▸ hr)
        exact ⟨hrun g hgc hb.1,(f.isGroup g).trans hb.2⟩
    specs := fun g hl hp => by
      change ((s.setStatus c v).get g).status = _ at hp
      change ((s.setStatus c v).get g).isGroup = true ∧ ∃ spec, m.lookup g = some spec ∧
        spec.subTasks.length = ((s.setStatus c v).get g).groupSize
      rw [f.isGroup, f.groupSize]
      rw [hst g hl] at hp
      by_cases hgc : g = c
      · subst hgc
        rw [if_pos rfl] at hp
        exact ⟨hg,(hidle hp).2⟩
      · rw [if_neg hgc] at hp
        rw [hm g hgc]
        exact h.specs g hl hp
    budget := fun g hl hgr hfg => by
      rw [hund g hl]
      change ((s.setStatus c v).get g).subCompleteCount+_+_ = ((s.setStatus c v).get g).groupSize
      rw [hcount, f.groupSize]
      rw [hfin] at hfg
      exact h.budget g hl ((f.isGroup g).symm.trans hgr) hfg
    indices := fun g i hl hfg hmem => by
      rw [hund g hl]
      change _ < ((s.setStatus c v).get g).groupSize
      rw [f.groupSize]
      rw [hfin] at hfg
      exact h.indices g i hl hfg hmem }

/-- A task that is neither out nor waited for by a sub-task completes: every
edge to a consumer is owed one notification. -/
theorem Account.complete {t : ℤ} (h : Account rem [] [] s) (ht : Running s t)
    (hout : ∀ e ∈ s.subDispatchToGroup, e.2 ≠ t) (hrem : rem t = 0)
    (hrep : ∀ call, .dispatch call ∈ s.trace → call.origin = .plain → call.taskId = t →
      .report t ∈ s.trace) :
    Account rem (s.fanoutList t) (s.fanoutList t) (s.setStatus t .completed) := by
  have f := frame_setStatus s t .completed
  have hnd : finished s t = false := by rw [finished_live ht.1, ht.2]; rfl
  have hst : ∀ u, s.taskRing.Live u → ((s.setStatus t .completed).get u).status =
      if u = t then .completed else (s.get u).status := fun u hu =>
    status_setStatus h.shape hu ht.1 .completed
  have hrun : ∀ u, u ≠ t → Running s u → Running (s.setStatus t .completed) u := fun u hu hr => by
    refine ⟨hr.1,?_⟩
    rw [hst u hr.1, if_neg hu]
    exact hr.2
  -- the tasks still unfinished are others, and are as they were
  have hopen : ∀ g, s.taskRing.Live g → finished (s.setStatus t .completed) g = false →
      finished s g = false ∧
        undispatched rem (s.setStatus t .completed) g = undispatched rem s g := by
    intro g hl hf
    have hl' : (s.setStatus t .completed).taskRing.Live g := hl
    rw [finished_live hl', hst g hl] at hf
    by_cases hgt : g = t
    · rw [if_pos hgt] at hf
      cases hf
    · rw [if_neg hgt, ← finished_live hl] at hf
      refine ⟨hf,?_⟩
      rw [undispatched, undispatched, hst g hl, if_neg hgt, f.groupSize]
  have hcount : ∀ g, ((s.setStatus t .completed).get g).subCompleteCount =
      (s.get g).subCompleteCount := fun g =>
    setStatus_field LinquTaskDescriptor.subCompleteCount (fun _ _ => rfl) s t g _
  exact { h with
    shape := h.shape.of_frame f
    chk_live := fun c hc => h.shape.consumer_live ht.1 hc
    met := fun c hc => by
      have hm := h.met c hc
      have hlt : ∀ p ∈ s.faninList c, p < s.taskRing.currentIndex := fun p hp =>
        lt_of_le_of_lt (h.shape.fanin c hc p hp).2 hc.2
      rw [f.faninList, countP_complete h.shape ht.1 hnd _ hlt, ← h.shape.edges t c ht.1 hc,
        setStatus_field LinquTaskDescriptor.faninRefcount (fun _ _ => rfl) s t c _]
      simp only [List.count_nil] at hm
      omega
    plain := fun call hm ho => (h.plain call hm ho).imp_right fun hr hn => by
      obtain ⟨hrun',hgr⟩ := hr hn
      have hne : call.taskId ≠ t := fun he => hn (he ▸ hrep call hm ho he)
      exact ⟨hrun _ hne hrun',(f.isGroup _).trans hgr⟩
    groups := fun e he =>
      ⟨hrun _ (hout e he) (h.groups e he).1,(f.isGroup _).trans (h.groups e he).2⟩
    busy := fun g hg => ⟨hrun g (fun he => hg (he ▸ hrem)) (h.busy g hg).1,
      (f.isGroup g).trans (h.busy g hg).2⟩
    specs := fun g hl hp => by
      rw [hst g hl] at hp
      rw [f.isGroup, f.groupSize]
      by_cases hgt : g = t
      · rw [if_pos hgt] at hp
        cases hp
      · rw [if_neg hgt] at hp
        exact h.specs g hl hp
    budget := fun g hl hgr hf => by
      obtain ⟨hf',hu⟩ := hopen g hl hf
      rw [hu, hcount, f.groupSize]
      exact h.budget g hl ((f.isGroup g).symm.trans hgr) hf'
    indices := fun g i hl hf hm => by
      obtain ⟨hf',hu⟩ := hopen g hl hf
      rw [hu, f.groupSize]
      exact h.indices g i hl hf' hm }

/-- One more sub-task goes out. -/
theorem Account.dispatch {g : ℤ} {r i : ℕ} (h : Account rem ntf chk s) (k : Option String)
    (gp : List LinquParam) (sub : LinquSubTaskSpec) (hg : Running s g)
    (hgr : (s.get g).isGroup = true) (hr : rem g = r+1) (hi : i+(r+1) = (s.get g).groupSize)
    (hready : ∀ p ∈ s.faninList g, finished s p = true) :
    Account (Function.update rem g r) ntf chk
      ((s.assignSubId g).record (.dispatch (s.subCall s.nextSubDispatchId g k gp i sub))) := by
  have hnd : finished s g = false := by rw [finished_live hg.1, hg.2]; rfl
  have hne : (s.get g).status ≠ .pending := by rw [hg.2]; simp
  have htable : (s.assignSubId g).subDispatchToGroup =
      (s.nextSubDispatchId,g)::s.subDispatchToGroup :=
    mapSet_fresh fun e he => ne_of_gt (h.next.2 e he)
  have hund : ∀ u, u ≠ g → undispatched (Function.update rem g r) s u = undispatched rem s u :=
    fun u hu => by rw [undispatched, undispatched, Function.update_of_ne hu]
  have hmem : ∀ call, Event.dispatch call ∈
      .dispatch (s.subCall s.nextSubDispatchId g k gp i sub)::s.trace →
        call = s.subCall s.nextSubDispatchId g k gp i sub ∨ .dispatch call ∈ s.trace :=
    fun call hc => (List.mem_cons.mp hc).imp_left Event.dispatch.inj
  have hrep : ∀ u, Event.report u ∉
      .dispatch (s.subCall s.nextSubDispatchId g k gp i sub)::s.trace → .report u ∉ s.trace :=
    fun u hu hm => hu (List.mem_cons_of_mem _ hm)
  have hsubs : subDispatches (.dispatch (s.subCall s.nextSubDispatchId g k gp i sub)::s.trace) =
      (g,i)::subDispatches s.trace := rfl
  exact { h with
    shape := h.shape.of_eq rfl rfl rfl
    plain := fun call hc ho => by
      rcases hmem call hc with rfl | hc
      · cases ho
      · exact (h.plain call hc ho).imp_right fun hr hn => hr (hrep _ hn)
    known := fun call u j hc ho => by
      change s.nextSubDispatchId-1 < _ ∧ _ ∧ _ ∧
        (_ → ∃ e ∈ (s.assignSubId g).subDispatchToGroup, _)
      rw [htable]
      rcases hmem call hc with rfl | hc
      · cases ho
        exact ⟨by change _ < s.nextSubDispatchId; omega,h.next.1,hg.1.2,
          fun _ => ⟨_,List.mem_cons_self,rfl⟩⟩
      · obtain ⟨h1,h2,h3,h4⟩ := h.known call u j hc ho
        refine ⟨by omega,h2,h3,fun hn => ?_⟩
        obtain ⟨e,he,hek⟩ := h4 (hrep _ hn)
        exact ⟨e,List.mem_cons_of_mem _ he,hek⟩
    keys := by
      change ((s.assignSubId g).subDispatchToGroup.map Prod.fst).Nodup
      rw [htable, List.map_cons, List.nodup_cons]
      refine ⟨fun hm => ?_,h.keys⟩
      obtain ⟨e,he,hek⟩ := List.mem_map.mp hm
      exact ne_of_gt (h.next.2 e he) hek
    next := by
      change s.nextSubDispatchId-1 < 0 ∧
        ∀ e ∈ (s.assignSubId g).subDispatchToGroup, s.nextSubDispatchId-1 < e.1
      rw [htable]
      refine ⟨by have := h.next.1; omega,fun e he => ?_⟩
      rcases List.mem_cons.mp he with rfl | he
      · exact Int.sub_one_lt_of_le le_rfl
      · have := h.next.2 e he
        omega
    groups := fun e he => by
      change e ∈ (s.assignSubId g).subDispatchToGroup at he
      rw [htable] at he
      rcases List.mem_cons.mp he with rfl | he
      · exact ⟨hg,hgr⟩
      · exact h.groups e he
    busy := fun u hu => by
      by_cases hug : u = g
      · subst hug
        exact ⟨hg,hgr⟩
      · rw [Function.update_of_ne hug] at hu
        exact h.busy u hu
    budget := fun u hl hug hf => by
      have hb := h.budget u hl hug hf
      change _+(s.assignSubId g).subDispatchToGroup.countP _+
        undispatched (Function.update rem g r) s u = _
      rw [htable, List.countP_cons]
      change _+(openSubs s u+_)+_ = _
      by_cases hgu : g = u
      · subst hgu
        rw [undispatched, if_neg hne, hr] at hb
        rw [undispatched, if_neg hne, Function.update_self]
        simp only [decide_true, if_true]
        change (s.get g).subCompleteCount+_+_ = (s.get g).groupSize
        omega
      · rw [hund u (Ne.symm hgu)]
        simp only [hgu, decide_false, Bool.false_eq_true, if_false]
        exact hb
    indices := fun u j hl hf hm => by
      change _+undispatched (Function.update rem g r) s u < (s.get u).groupSize
      change (u,j) ∈ subDispatches (.dispatch _::s.trace) at hm
      rw [hsubs, List.mem_cons] at hm
      by_cases hgu : u = g
      · subst hgu
        rw [undispatched, if_neg hne, Function.update_self]
        rcases hm with hm | hm
        · cases hm
          omega
        · have hlt := h.indices u j hl hf hm
          rw [undispatched, if_neg hne, hr] at hlt
          omega
      · rw [hund u hgu]
        rcases hm with hm | hm
        · exact absurd (Prod.ext_iff.mp hm).1 hgu
        · exact h.indices u j hl hf hm
    once := by
      change (subDispatches (.dispatch _::s.trace)).Nodup
      rw [hsubs, List.nodup_cons]
      refine ⟨fun hm => ?_,h.once⟩
      have hlt := h.indices g i hg.1 hnd hm
      rw [undispatched, if_neg hne, hr] at hlt
      omega
    released := fun call u j hc ho => by
      rcases hmem call hc with rfl | hc
      · cases ho
        intro p hp
        have hfin := hready p hp
        rwa [finished, Bool.or_eq_true, decide_eq_true_eq] at hfin
      · exact h.released call u j hc ho }

/-- A reported sub-task moves from the open ones to the counted ones. -/
theorem Account.countSub {k g : ℤ} (h : Account rem [] [] s) (hk : .report k ∈ s.trace)
    (hm : (k,g) ∈ s.subDispatchToGroup) :
    Account rem [] [] ((s.eraseSubId k).countSubTask g) := by
  have f := (frame_eraseSubId s k).trans (frame_countSubTask (s.eraseSubId k) g)
  have hgl := (h.groups _ hm).1.1
  have hst : ∀ t, (((s.eraseSubId k).countSubTask g).get t).status = (s.get t).status := fun t =>
    get_modify_field LinquTaskDescriptor.status t fun _ => rfl
  have hfin : finished ((s.eraseSubId k).countSubTask g) = finished s :=
    finished_countSubTask (s.eraseSubId k) g
  have hrun : ∀ t, Running ((s.eraseSubId k).countSubTask g) t ↔ Running s t := fun t => by
    rw [Running, Running, f.live, hst]
  have hsub : ∀ e ∈ mapErase s.subDispatchToGroup k, e ∈ s.subDispatchToGroup := fun e he =>
    (List.mem_filter.mp he).1
  have hund : ∀ u, undispatched rem ((s.eraseSubId k).countSubTask g) u = undispatched rem s u :=
    fun u => by rw [undispatched, undispatched, hst, f.groupSize]
  exact { h with
    shape := h.shape.of_frame f
    met := fun c hc => by
      rw [f.faninList, hfin]
      exact le_of_eq_of_le (congrArg (·+_)
        (get_modify_field LinquTaskDescriptor.faninRefcount c fun _ => rfl)) (h.met c hc)
    plain := fun call hc ho => (h.plain call hc ho).imp_right fun hr hn => by
      rw [hrun, f.isGroup]
      exact hr hn
    known := fun call u i hc ho => by
      obtain ⟨h1,h2,h3,h4⟩ := h.known call u i hc ho
      refine ⟨h1,h2,h3,fun hn => ?_⟩
      obtain ⟨e,he,hek⟩ := h4 hn
      refine ⟨e,List.mem_filter.mpr ⟨he,decide_eq_true fun hkk => hn ?_⟩,hek⟩
      rw [← hek, hkk]
      exact hk
    keys := (List.filter_sublist.map Prod.fst).nodup h.keys
    next := ⟨h.next.1,fun e he => h.next.2 e (hsub e he)⟩
    groups := fun e he => by
      rw [hrun, f.isGroup]
      exact h.groups e (hsub e he)
    busy := fun u hu => ⟨(hrun u).mpr (h.busy u hu).1,(f.isGroup u).trans (h.busy u hu).2⟩
    specs := fun u hl hp => by
      rw [f.isGroup, f.groupSize]
      exact h.specs u hl (hst u ▸ hp)
    budget := fun u hl hgr hf => by
      have hb := h.budget u hl ((f.isGroup u).symm.trans hgr) (hfin ▸ hf)
      have hc := countP_mapErase h.keys hm u
      rw [hund, f.groupSize]
      change _+(mapErase s.subDispatchToGroup k).countP _+_ = _
      have hcnt : (((s.eraseSubId k).countSubTask g).get u).subCompleteCount =
          (s.get u).subCompleteCount+if g = u then 1 else 0 := by
        have hl' : (s.eraseSubId k).taskRing.Live u := hl
        have hg' : (s.eraseSubId k).taskRing.Live g := hgl
        rw [countSubTask, (h.shape.of_frame (frame_eraseSubId s k)).get_modify hl' hg']
        by_cases hug : u = g
        · subst hug
          rw [if_pos rfl, if_pos rfl]
          rfl
        · rw [if_neg hug, if_neg (Ne.symm hug)]
          rfl
      rw [openSubs] at hb
      omega
    indices := fun u i hl hf hmem => by
      rw [hund, f.groupSize]
      exact h.indices u i hl (hfin ▸ hf) hmem }

theorem Account.eraseSpec {c : ℤ} (h : Account rem ntf chk s) (hc : (s.get c).status ≠ .pending) :
    Account rem ntf chk (s.eraseSpec c) :=
  { h with
    shape := h.shape.of_frame (frame_eraseSpec s c)
    specs := fun g hl hp => by
      have hne : g ≠ c := fun he => hc (he ▸ hp)
      change _ ∧ ∃ spec, (mapErase s.pendingGroupSpecs c).lookup g = some spec ∧ _
      rw [lookup_mapErase hne]
      exact h.specs g hl hp }

/-- Only consumed tasks are retired. -/
theorem Account.retired {cursor : ℤ} (h : Account rem [] [] s) (r : Retired s s' cursor) :
    Account rem [] [] s' := by
  have hrun : ∀ t, Running s t → Running s' t := fun t hr => by
    refine ⟨r.live.mpr ⟨?_,hr.1.2⟩,by rw [r.get]; exact hr.2⟩
    by_contra hlt
    have hcons := r.consumed t hr.1.1 (not_le.mp hlt)
    rw [hr.2] at hcons
    cases hcons
  have hund : ∀ u, undispatched rem s' u = undispatched rem s u := fun u => by
    rw [undispatched, undispatched, r.get]
  have hcur : s'.taskRing.currentIndex = s.taskRing.currentIndex := by rw [r.ring]; rfl
  constructor
  case shape => exact r.shape h.shape
  case backend => exact r.rest.backend.trans h.backend
  case chk_live => exact fun c hc => (by cases hc)
  case met =>
    intro c hc
    rw [r.get, r.faninList, finished_retired r]
    exact h.met c (r.live_of hc)
  case plain =>
    intro call hc ho
    rw [r.rest.trace] at hc ⊢
    refine (h.plain call hc ho).imp_right fun hr hn => ?_
    rw [r.get]
    exact ⟨hrun _ (hr hn).1,(hr hn).2⟩
  case known =>
    intro call g i hc ho
    rw [r.rest.trace] at hc ⊢
    rw [r.rest.nextSubDispatchId, r.rest.subDispatchToGroup, hcur]
    exact h.known call g i hc ho
  case keys => rw [r.rest.subDispatchToGroup]; exact h.keys
  case next => rw [r.rest.subDispatchToGroup, r.rest.nextSubDispatchId]; exact h.next
  case groups =>
    intro e he
    rw [r.rest.subDispatchToGroup] at he
    rw [r.get]
    exact ⟨hrun _ (h.groups e he).1,(h.groups e he).2⟩
  case busy =>
    intro g hg
    rw [r.get]
    exact ⟨hrun g (h.busy g hg).1,(h.busy g hg).2⟩
  case specs =>
    intro g hl hp
    rw [r.get] at hp ⊢
    rw [r.rest.pendingGroupSpecs]
    exact h.specs g (r.live_of hl) hp
  case budget =>
    intro g hl hgr hf
    rw [r.get] at hgr ⊢
    rw [hund, openSubs, r.rest.subDispatchToGroup]
    exact h.budget g (r.live_of hl) hgr (finished_retired r ▸ hf)
  case indices =>
    intro g i hl hf hm
    rw [r.get, hund]
    exact h.indices g i (r.live_of hl) (finished_retired r ▸ hf) (r.rest.trace ▸ hm)
  case once => rw [r.rest.trace]; exact h.once
  case released => rw [r.rest.trace]; exact h.released

theorem mem_subDispatches {l : List Event} {g : ℤ} {i : ℕ} :
    (g,i) ∈ subDispatches l ↔ ∃ call, .dispatch call ∈ l ∧ call.origin = .sub g i := by
  simp only [subDispatches, List.mem_filterMap]
  constructor
  · rintro ⟨e,he,hm⟩
    cases e with
    | dispatch call =>
      refine ⟨call,he,?_⟩
      cases ho : call.origin with
      | plain => simp [ho] at hm
      | sub u j =>
        simp only [ho, Option.some.injEq, Prod.mk.injEq] at hm
        rw [hm.1, hm.2]
    | submit u b => cases hm
    | dispatchFn call => cases hm
    | report u => cases hm
  · rintro ⟨call,hc,ho⟩
    exact ⟨_,hc,by simp [ho]⟩

/-- A new task has everything left to hand out and nothing out. -/
theorem Account.entered {s₁ : State} {tid : ℤ} {group : Option ℕ} {prods : List ℤ}
    (h : Account (fun _ => 0) [] [] s) (e : Entered s s₁ tid group prods) :
    Account (Function.update (fun _ => 0) tid (group.getD 0)) [] []
      (s₁.setStatus tid .running) := by
  have f := frame_setStatus s₁ tid .running
  have hlive : ∀ t, (s₁.setStatus tid .running).taskRing.Live t ↔ s.taskRing.Live t ∨ t = tid :=
    fun t => e.live h.shape
  have hne : ∀ t, s.taskRing.Live t → t ≠ tid := fun t ht he => e.not_live (he ▸ ht)
  have hst : ((s₁.setStatus tid .running).get tid).status = .running := by
    rw [get_setStatus, if_pos rfl]
  have hfield : ∀ {α : Type} (F : LinquTaskDescriptor → α), (∀ (d : LinquTaskDescriptor) a b c,
      F { d with depListHead := a, fanoutListHead := b, fanoutCount := c } = F d) →
      ∀ t, s.taskRing.Live t → F ((s₁.setStatus tid .running).get t) = F (s.get t) :=
    fun F hF t ht => entered_field e F hF ht
  have hstatus := hfield LinquTaskDescriptor.status fun _ _ _ _ => rfl
  have hgroup := hfield LinquTaskDescriptor.isGroup fun _ _ _ _ => rfl
  have hsize := hfield LinquTaskDescriptor.groupSize fun _ _ _ _ => rfl
  have hnew : ((s₁.setStatus tid .running).get tid).faninRefcount = 0 ∧
      ((s₁.setStatus tid .running).get tid).subCompleteCount = 0 ∧
      ((s₁.setStatus tid .running).get tid).groupSize = group.getD 0 ∧
      ((s₁.setStatus tid .running).get tid).isGroup = group.isSome := by
    obtain ⟨_,_,_,hn⟩ := e.new
    rw [get_setStatus, if_pos rfl, hn]
    exact ⟨rfl,rfl,rfl,rfl⟩
  have hrun : ∀ t, Running s t → Running (s₁.setStatus tid .running) t := fun t hr =>
    ⟨(hlive t).mpr (Or.inl hr.1),(hstatus t hr.1).trans hr.2⟩
  have htrace : (s₁.setStatus tid .running).trace = _::s.trace := e.trace
  have hmem : ∀ call, .dispatch call ∈ (s₁.setStatus tid .running).trace →
      .dispatch call ∈ s.trace := fun call hc => by
    rw [htrace] at hc
    exact (List.mem_cons.mp hc).resolve_left (by simp)
  have hrep : ∀ u, .report u ∉ (s₁.setStatus tid .running).trace → .report u ∉ s.trace := by
    intro u hu hm
    rw [htrace] at hu
    exact hu (List.mem_cons_of_mem _ hm)
  have hsubs : subDispatches (s₁.setStatus tid .running).trace = subDispatches s.trace := by
    rw [htrace]; rfl
  have htable : (s₁.setStatus tid .running).subDispatchToGroup = s.subDispatchToGroup :=
    e.subDispatchToGroup
  have hund : ∀ g, s.taskRing.Live g →
      undispatched (Function.update (fun _ => 0) tid (group.getD 0)) (s₁.setStatus tid .running) g =
        undispatched (fun _ => 0) s g := fun g hg => by
    rw [undispatched, undispatched, hstatus g hg, hsize g hg, Function.update_of_ne (hne g hg)]
  constructor
  case shape => exact e.shape.of_frame f
  case backend => exact e.backend.trans h.backend
  case chk_live => exact fun c hc => (by cases hc)
  case met =>
    intro c hc
    rcases (hlive c).mp hc with hl | rfl
    · have hlt : ∀ p ∈ s.faninList c, p < tid := fun p hp => by
        have := (h.shape.fanin c hl p hp).2
        have := hl.2
        have := e.tid_eq
        omega
      have hcount := entered_countP (v := .running) e h.shape rfl 0 hlt
      rw [List.replicate_zero, List.nil_append] at hcount
      rw [f.faninList, e.fanin_old c hl, hcount,
        hfield LinquTaskDescriptor.faninRefcount (fun _ _ _ _ => rfl) c hl]
      exact h.met c hl
    · rw [hnew.1]
      exact Nat.zero_le _
  case plain =>
    intro call hc ho
    refine (h.plain call (hmem call hc) ho).imp_right fun hr hn => ?_
    obtain ⟨hr',hgr⟩ := hr (hrep _ hn)
    exact ⟨hrun _ hr',(hgroup _ hr'.1).trans hgr⟩
  case known =>
    intro call g i hc ho
    obtain ⟨h1,h2,h3,h4⟩ := h.known call g i (hmem call hc) ho
    refine ⟨lt_of_eq_of_lt e.nextSubDispatchId h1,h2,?_,fun hn => ?_⟩
    · change g < s₁.taskRing.currentIndex
      rw [e.current, e.tid_eq]
      omega
    · rw [htable]
      exact h4 (hrep _ hn)
  case keys => rw [htable]; exact h.keys
  case next =>
    rw [htable, show (s₁.setStatus tid .running).nextSubDispatchId = _ from e.nextSubDispatchId]
    exact h.next
  case groups =>
    intro x hx
    rw [htable] at hx
    have hg := h.groups x hx
    exact ⟨hrun _ hg.1,(hgroup _ hg.1.1).trans hg.2⟩
  case busy =>
    intro g hg
    by_cases hgt : g = tid
    · subst hgt
      refine ⟨⟨(hlive g).mpr (Or.inr rfl),hst⟩,?_⟩
      rw [Function.update_self] at hg
      cases group with
      | none => exact absurd rfl hg
      | some n => exact hnew.2.2.2
    · rw [Function.update_of_ne hgt] at hg
      exact absurd rfl hg
  case specs =>
    intro g hl hp
    rcases (hlive g).mp hl with hl | rfl
    · rw [hstatus g hl] at hp
      rw [hgroup g hl, hsize g hl,
        show (s₁.setStatus tid .running).pendingGroupSpecs = _ from e.pendingGroupSpecs]
      exact h.specs g hl hp
    · rw [hst] at hp
      cases hp
  case budget =>
    intro g hl hgr hf
    rcases (hlive g).mp hl with hl | rfl
    · rw [entered_finished_old e (lt_of_lt_of_eq hl.2 e.tid_eq.symm)] at hf
      rw [hfield LinquTaskDescriptor.subCompleteCount (fun _ _ _ _ => rfl) g hl, hund g hl,
        hsize g hl, openSubs, htable]
      exact h.budget g hl ((hgroup g hl).symm.trans hgr) hf
    · have hzero : openSubs (s₁.setStatus g .running) g = 0 := by
        rw [openSubs, htable, List.countP_eq_zero]
        intro x hx hxg
        exact e.not_live (of_decide_eq_true hxg ▸ (h.groups x hx).1.1)
      rw [hnew.2.1, hzero, hnew.2.2.1, undispatched, if_neg (by rw [hst]; simp),
        Function.update_self]
      omega
  case indices =>
    intro g i hl hf hm
    rw [hsubs] at hm
    rcases (hlive g).mp hl with hl | rfl
    · rw [entered_finished_old e (lt_of_lt_of_eq hl.2 e.tid_eq.symm)] at hf
      rw [hund g hl, hsize g hl]
      exact h.indices g i hl hf hm
    · obtain ⟨call,hc,ho⟩ := mem_subDispatches.mp hm
      have hlt := (h.known call g i hc ho).2.2.1
      exact absurd (e.tid_eq ▸ hlt) (lt_irrefl _)
  case once => rw [hsubs]; exact h.once
  case released => exact fun call g i hc ho => h.released call g i (hmem call hc) ho

theorem Account.chk_tail {c : ℤ} (h : Account rem ntf (c::chk) s) : Account rem ntf chk s :=
  { h with chk_live := fun d hd => h.chk_live d (List.mem_cons_of_mem c hd) }

/-- The loop over the specs of a group whose wait is over. -/
theorem Account.dispatchFrom {c : ℤ} (k : Option String) (gp : List LinquParam) (n : ℕ)
    (subs : List LinquSubTaskSpec) : ∀ (i : ℕ) (u u' : State),
      Account (Function.update rem c subs.length) ntf chk u → Running u c →
      (u.get c).isGroup = true → i+subs.length = (u.get c).groupSize →
      (∀ p ∈ u.faninList c, finished u p = true) →
      dispatchFrom (fun s _ => .ok s) (fun _ s => .ok s) c k gp n i subs u = .ok u' →
      Account (Function.update rem c 0) ntf chk u' ∧ Running u' c := by
  induction subs with
  | nil =>
    intro i u u' h hc _ _ _ hu
    cases hu
    exact ⟨h,hc⟩
  | cons sub rest ih =>
    intro i u u' h hc hg hi hready hu
    rw [LinquOrchestratorState.dispatchFrom,
      dispatchSubTask_dispatcher c k gp n _ i sub h.backend] at hu
    have hone := h.dispatch k gp sub hc hg (Function.update_self ..) hi
      hready
    rw [Function.update_idem] at hone
    refine ih (i+1) _ u' hone hc hg ?_ hready hu
    change i+1+rest.length = (u.get c).groupSize
    rw [← hi, List.length_cons]
    omega

/-- A full counter means that every producer is finished. -/
theorem Account.satisfied {c : ℤ} (h : Account rem [] chk s) (hc : s.taskRing.Live c)
    (hs : Satisfied s c) : ∀ p ∈ s.faninList c, finished s p = true := by
  have hm := h.met c hc
  have hle := List.countP_le_length (p := finished s) (l := s.faninList c)
  have hfull := hs.1
  rw [h.shape.faninCount c hc] at hfull
  simp only [List.count_nil] at hm
  exact List.countP_eq_length.mp (by omega)

theorem Account.start {c : ℤ} {spec : PendingGroupSpec} (h : Account rem [] (c::chk) s)
    (hs : Satisfied s c) (hspec : s.pendingGroupSpecs.lookup c = some spec)
    (hm : (s.setStatus c .running).dispatchGroupSubTasks (fun s _ => .ok s) (fun _ s => .ok s) c
      (some spec.kernelSo) spec.groupParams spec.subTasks = .ok s') :
    Account rem [] chk (s'.eraseSpec c) := by
  have hc := h.chk_live c List.mem_cons_self
  have f := frame_setStatus s c .running
  have hf : finished s c = false := by rw [finished_live hc, hs.2]; rfl
  have hidle : ∀ t, Running s t → t ≠ c := fun t ht he => by
    have hp := hs.2
    rw [← he, ht.2] at hp
    cases hp
  have hrem : rem c = 0 := by
    by_contra hr
    exact hidle c (h.busy c hr).1 rfl
  obtain ⟨hg,spec',hspec',hlen⟩ := h.specs c hc hs.2
  rw [hspec] at hspec'
  cases hspec'
  have hrun := h.restate (v := .running) (m := s.pendingGroupSpecs)
    (Function.update rem c (s.get c).groupSize) hc hg hf (Or.inl rfl) (fun e he => hidle _ (h.groups e he).1)
    (fun g hgc => Function.update_of_ne hgc _ _)
    (by rw [undispatched, if_pos hs.2, if_neg (by simp), Function.update_self])
    (fun hv => by cases hv) (fun _ _ => rfl)
  rw [← hlen] at hrun
  have hfin : finished (s.setStatus c .running) = finished s :=
    finished_setStatus (by rw [hs.2]; rfl) rfl
  have hst : ((s.setStatus c .running).get c).status = .running := by
    rw [get_setStatus, if_pos rfl]
  have hloop := Account.dispatchFrom (some spec.kernelSo) spec.groupParams spec.subTasks.length
    spec.subTasks 0 (s.setStatus c .running) s' hrun.chk_tail ⟨hc,hst⟩
    ((f.isGroup c).trans hg) (by rw [f.groupSize, ← hlen]; exact Nat.zero_add _)
    (by rw [f.faninList, hfin]; exact h.satisfied hc hs) hm
  rw [show Function.update rem c 0 = rem by rw [← hrem, Function.update_eq_self]] at hloop
  refine hloop.1.eraseSpec ?_
  rw [hloop.2.2]
  simp

end Updates

/-- What a completion does with a dispatcher. -/
theorem account_rule (rem : ℤ → ℕ) : PropagateRule (fun _ ntf _ chk s => Account rem ntf chk s) where
  release p _ _ _ _ s h := (h.raise p).check p
  notify _ _ _ _ _ h hc := h.notify hc
  skip _ _ _ _ h _ := h.chk_tail
  ready c _ _ s h hs hg := by
    have hgr := (h.specs c (h.chk_live c List.mem_cons_self) hs.2).1
    rw [hg] at hgr
    cases hgr
  run c _ _ s h hs _ hor := by
    obtain ⟨-,spec,hspec,-⟩ := h.specs c (h.chk_live c List.mem_cons_self) hs.2
    rcases hor with hb | hn
    · exact absurd h.backend hb
    · rw [hspec] at hn
      cases hn
  dispatch _ _ _ _ _ _ h hs _ _ hspec hm := h.start hs hspec hm
  count _ _ _ _ hb _ h := absurd h.backend hb
  complete _ _ _ _ hb _ h := absurd h.backend hb
  erase _ _ _ _ hb _ h := absurd h.backend hb
  finish t _ _ _ h := h.check t

section Calls

variable {rem : ℤ → ℕ} {s s' : State}

theorem Account.completes {t : ℤ} (h : Account rem [] [] s) (ht : Running s t)
    (hout : ∀ e ∈ s.subDispatchToGroup, e.2 ≠ t) (hrem : rem t = 0)
    (hrep : ∀ call, .dispatch call ∈ s.trace → call.origin = .plain → call.taskId = t →
      .report t ∈ s.trace) (hs : s.complete t = .ok s') : Account rem [] [] s' := by
  have hc := h.complete ht hout hrem hrep
  have f := frame_setStatus s t .completed
  rw [← f.fanoutList] at hc
  refine propagate_rule (account_rule rem) (b := []) (c := []) hs ?_
  rw [List.append_nil]
  exact hc

/-- The last sub-task leaves nothing out and nothing to hand out. -/
theorem Account.last {g : ℤ} (h : Account rem [] [] s) (hg : Running s g)
    (hgr : (s.get g).isGroup = true) (hfull : (s.get g).groupSize ≤ (s.get g).subCompleteCount) :
    rem g = 0 ∧ ∀ e ∈ s.subDispatchToGroup, e.2 ≠ g := by
  have hb := h.budget g hg.1 hgr (by rw [finished_live hg.1, hg.2]; rfl)
  rw [undispatched, if_neg (by rw [hg.2]; simp)] at hb
  refine ⟨by omega,fun e he heg => ?_⟩
  have hz : openSubs s g = 0 := by omega
  exact List.countP_eq_zero.mp hz e he (decide_eq_true heg)

/-- A counted sub-task completes its group when it was the last. -/
theorem Account.counted {g : ℤ} (h : Account rem [] [] (s.countSubTask g)) (hg : Running s g)
    (hgr : (s.get g).isGroup = true)
    (hs : (if ((s.countSubTask g).get g).groupSize ≤ (s.get g).subCompleteCount+1 then
      (s.countSubTask g).complete g else .ok (s.countSubTask g)) = .ok s') :
    Account rem [] [] s' := by
  have f := frame_countSubTask s g
  have hst : ((s.countSubTask g).get g).status = (s.get g).status :=
    get_modify_field LinquTaskDescriptor.status g fun _ => rfl
  have hcnt : ((s.countSubTask g).get g).subCompleteCount = (s.get g).subCompleteCount+1 := by
    rw [countSubTask, get_modify, if_pos rfl]
  have hrun : Running (s.countSubTask g) g := ⟨hg.1,hst.trans hg.2⟩
  have hgr' := (f.isGroup g).trans hgr
  split at hs
  · rename_i hfull
    rw [← hcnt] at hfull
    obtain ⟨hrem,hout⟩ := h.last hrun hgr' hfull
    refine h.completes hrun hout hrem (fun call hc hor hid => ?_) hs
    by_contra hn
    have hp := ((h.plain call hc hor).2 (hid ▸ hn)).2
    rw [hid, hgr'] at hp
    cases hp
  · cases hs
    exact h

/-- An outstanding id is that of a running plain task or of an open sub-task. -/
theorem Account.reported {t : ℤ} (h : Account rem [] [] s) (ho : Outstanding s.trace t)
    (hs : s.onTaskComplete t = .ok s') : Account rem [] [] s' := by
  have hr := h.report t
  unfold onTaskComplete at hs
  dsimp only at hs
  split at hs
  · rename_i g hg
    have hm : (t,g) ∈ s.subDispatchToGroup := mem_of_lookup hg
    obtain ⟨hrun,hgr⟩ := h.groups _ hm
    exact (hr.countSub List.mem_cons_self hm).counted hrun hgr hs
  · rename_i hn
    obtain ⟨⟨call,hc,rfl⟩,hrep⟩ := ho
    cases hor : call.origin with
    | sub g i =>
      obtain ⟨e,he,hek⟩ := (h.known call g i hc hor).2.2.2 hrep
      have hnone := List.lookup_eq_none_iff.mp hn e he
      rw [hek, bne_self_eq_false] at hnone
      cases hnone
    | plain =>
      obtain ⟨hrun,hgr⟩ := (h.plain call hc hor).2 hrep
      have hrun' : ((s.record (.report call.taskId)).get call.taskId).status = .running := hrun.2
      rw [if_pos hrun'] at hs
      have hno : ∀ g, (s.get g).isGroup = true → g ≠ call.taskId := fun g hg he => by
        rw [he, hgr] at hg
        cases hg
      refine hr.completes hrun (fun e he => hno _ (h.groups e he).2) ?_
        (fun _ _ _ _ => List.mem_cons_self) hs
      by_contra hne
      exact hno _ (h.busy _ hne).2 rfl

/-- A plain task goes out. -/
theorem Account.plainDispatch {call : DispatchCall} (h : Account rem [] [] s)
    (ho : call.origin = .plain) (hpos : 0 ≤ call.taskId) (hrun : Running s call.taskId)
    (hg : (s.get call.taskId).isGroup = false) :
    Account rem [] [] (s.record (.dispatch call)) := by
  have hmem : ∀ c, .dispatch c ∈ (s.record (.dispatch call)).trace → c = call ∨
      .dispatch c ∈ s.trace := fun c hc => (List.mem_cons.mp hc).imp_left Event.dispatch.inj
  have hrep : ∀ u, .report u ∉ (s.record (.dispatch call)).trace → .report u ∉ s.trace :=
    fun u hu hm => hu (List.mem_cons_of_mem _ hm)
  have hsub : ∀ c g i, c.origin = .sub g i → .dispatch c ∈ (s.record (.dispatch call)).trace →
      .dispatch c ∈ s.trace := fun c g i hor hc => by
    refine (hmem c hc).resolve_left ?_
    rintro rfl
    rw [ho] at hor
    cases hor
  have hsubs : subDispatches (s.record (.dispatch call)).trace = subDispatches s.trace := by
    change subDispatches (.dispatch call::s.trace) = _
    simp only [subDispatches, List.filterMap_cons, ho]
  exact { h with
    shape := h.shape.of_eq rfl rfl rfl
    plain := fun c hc hor => by
      rcases hmem c hc with rfl | hc
      · exact ⟨hpos,fun _ => ⟨hrun,hg⟩⟩
      · exact (h.plain c hc hor).imp_right fun hr hn => hr (hrep _ hn)
    known := fun c g i hc hor => by
      obtain ⟨h1,h2,h3,h4⟩ := h.known c g i (hsub c g i hor hc) hor
      exact ⟨h1,h2,h3,fun hn => h4 (hrep _ hn)⟩
    indices := fun g i hl hf hm => h.indices g i hl hf (hsubs ▸ hm)
    once := hsubs ▸ h.once
    released := fun c g i hc hor => h.released c g i (hsub c g i hor hc) hor }

/-- Reports leave the fixed part of every descriptor and only add events. -/
theorem deliver_spec {ids : List ℤ} (hs : s.deliver ids = .ok s') :
    (∀ t, fixed (s'.get t) = fixed (s.get t)) ∧ s'.depPool = s.depPool ∧ s.trace <:+ s'.trace := by
  refine foldlM_rule (P := fun _ u => (∀ t, fixed (u.get t) = fixed (s.get t)) ∧
    u.depPool = s.depPool ∧ s.trace <:+ u.trace) (fun t _ u v hu hv => ?_) ids
    ⟨fun _ => rfl,rfl,List.suffix_rfl⟩ hs
  have f := frame_onTaskComplete hv
  exact ⟨fun c => (f.fixed c).trans (hu.1 c),f.depPool.trans hu.2.1,
    hu.2.2.trans ((List.suffix_cons _ _).trans f.suffix)⟩

theorem Account.deliver {ids : List ℤ} (h : ReportsOnce s.trace → Account rem [] [] s)
    (hs : s.deliver ids = .ok s') : ReportsOnce s'.trace → Account rem [] [] s' := by
  refine foldlM_rule (P := fun _ u => ReportsOnce u.trace → Account rem [] [] u)
    (fun t _ u v hu hv ho => ?_) ids h hs
  have hone : ReportsOnce (.report t::u.trace) :=
    reportsOnce_suffix ho (frame_onTaskComplete hv).suffix
  exact (hu hone.2).reported hone.1 hv

/-- The loop of an immediate group; what is reported between two dispatches
cannot complete the group. -/
theorem Account.launchFrom {g : ℤ} {k : Option String} {gp : List LinquParam} {n fuel : ℕ}
    {arrivals : ℕ → List ℤ} (subs : List LinquSubTaskSpec) : ∀ (i : ℕ) (u u' : State),
      u.backend = .dispatcher →
      (ReportsOnce u.trace → Account (Function.update rem g subs.length) [] [] u) →
      i+subs.length = (u.get g).groupSize → u.faninList g = [] →
      LinquOrchestratorState.dispatchFrom (propagateCompletion fuel)
        (fun i s => s.deliver (arrivals i)) g k gp n i subs u = .ok u' →
      u.trace <:+ u'.trace ∧
        (ReportsOnce u'.trace → Account (Function.update rem g 0) [] [] u') := by
  induction subs with
  | nil =>
    intro i u u' _ h _ _ hu
    cases hu
    exact ⟨List.suffix_rfl,h⟩
  | cons sub rest ih =>
    intro i u u' hb h hi hfan hu
    rw [LinquOrchestratorState.dispatchFrom,
      dispatchSubTask_dispatcher g k gp n _ i sub hb] at hu
    obtain ⟨_,hd,hu⟩ := bind_ok.mp hu
    cases hd
    obtain ⟨w,hw,hu⟩ := bind_ok.mp hu
    obtain ⟨hfix,hpool,hsuf⟩ := deliver_spec hw
    have hone : ReportsOnce u.trace → Account (Function.update rem g rest.length) [] []
        ((u.assignSubId g).record (.dispatch (u.subCall u.nextSubDispatchId g k gp i sub))) := by
      intro ho
      have hu := h ho
      obtain ⟨hrun,hgr⟩ := hu.busy g (by rw [Function.update_self]; simp)
      have hd := hu.dispatch k gp sub hrun hgr (Function.update_self ..) hi
        (by rw [hfan]; exact fun p hp => by cases hp)
      rwa [Function.update_idem] at hd
    have hwb : w.backend = .dispatcher := by
      refine foldlM_rule (P := fun _ v => v.backend = .dispatcher) (fun t _ v v' hv hv' => ?_)
        (arrivals i) hb hw
      exact (frame_onTaskComplete hv').backend.trans hv
    have hsize : (w.get g).groupSize = (u.get g).groupSize :=
      (congrArg LinquTaskDescriptor.groupSize (hfix g) :)
    have hlist : w.faninList g = [] := by
      have hh : (w.get g).depListHead = (u.get g).depListHead :=
        (congrArg LinquTaskDescriptor.depListHead (hfix g) :)
      rw [← hfan]
      simp only [LinquOrchestratorState.faninList, hpool, hh]
      rfl
    obtain ⟨hs,hacc⟩ := ih (i+1) w u' hwb (Account.deliver hone hw)
      (by rw [hsize, ← hi, List.length_cons]; omega) hlist hu
    exact ⟨((List.suffix_cons _ _).trans hsuf).trans hs,hacc⟩

end Calls

/-- The account, in runs in which every report was outstanding. -/
structure Grouped (s : State) : Prop where
  shape : Shape s
  backend : s.backend = .dispatcher
  account : ReportsOnce s.trace → Account (fun _ => 0) [] [] s

theorem Grouped.of_settles {s s' : State} (h : Grouped s) (hs : Settles s s')
    (hrc : ∀ t, (s'.get t).faninRefcount = (s.get t).faninRefcount) : Grouped s' :=
  ⟨hs.shape h.shape,hs.backend.trans h.backend,fun ho => (h.account (hs.trace ▸ ho)).of_settles hs hrc⟩

theorem Grouped.launchTask {s s₁ s' : State} {tid : ℤ} {prods : List ℤ} {target : LinquCoordinate}
    {k : Option String} {params : List LinquParam} (h : Grouped s)
    (e : Entered s s₁ tid none prods) (hs : s₁.launchTask tid target k params = .ok s') :
    Grouped s' := by
  obtain ⟨call,hid,hor,-,-,rfl⟩ := launchTask_dispatcher (e.backend.trans h.backend) hs
  refine ⟨(e.shape.of_frame (frame_setStatus _ _ _)).of_eq rfl rfl rfl,e.backend.trans h.backend,
    fun ho => ?_⟩
  change ReportsOnce s₁.trace at ho
  rw [e.trace] at ho
  have hent := (h.account ho).entered e
  rw [show Function.update (fun _ : ℤ => 0) tid ((none : Option ℕ).getD 0) = fun _ => 0 from
    Function.update_eq_self (f := fun _ : ℤ => 0) tid] at hent
  have hpos : 0 ≤ tid := by
    rw [e.tid_eq]
    exact h.shape.ring.alive_nonneg.trans h.shape.ring.alive_le
  obtain ⟨_,_,_,hnew⟩ := e.new
  have hrun : Running (s₁.setStatus tid .running) tid :=
    ⟨e.live_tid h.shape,by rw [get_setStatus, if_pos rfl]⟩
  refine hent.plainDispatch hor (by rw [hid]; exact hpos) (by rw [hid]; exact hrun) ?_
  rw [hid, (frame_setStatus s₁ tid .running).isGroup, hnew]
  rfl

theorem Grouped.launchGroup {s s₁ s' : State} {tid : ℤ} {prods : List ℤ} {k : Option String}
    {params : List LinquParam} {subs : List LinquSubTaskSpec} {arrivals : List (List ℤ)}
    (h : Grouped s) (e : Entered s s₁ tid (some subs.length) prods)
    (hs : s₁.launchGroup tid k params subs arrivals = .ok s') (ho : ReportsOnce s'.trace) :
    Account (fun _ => 0) [] [] s' := by
  have f := frame_setStatus s₁ tid .running
  have hlive : (s₁.setStatus tid .running).taskRing.Live tid := e.live_tid h.shape
  have hrun : Running (s₁.setStatus tid .running) tid := ⟨hlive,by rw [get_setStatus, if_pos rfl]⟩
  have hnew : (s₁.get tid).isGroup = true ∧ (s₁.get tid).groupSize = subs.length ∧
      (s₁.get tid).faninCount = prods.length := by
    obtain ⟨_,_,_,hn⟩ := e.new
    rw [hn]
    exact ⟨rfl,rfl,rfl⟩
  have hgr := (f.isGroup tid).trans hnew.1
  have hent : ReportsOnce s₁.trace → Account (Function.update (fun _ => 0) tid subs.length) [] []
      (s₁.setStatus tid .running) := fun ho => by
    rw [e.trace] at ho
    exact (h.account ho).entered e
  have hzero : Function.update (fun _ : ℤ => 0) tid 0 = fun _ => 0 :=
    Function.update_eq_self (f := fun _ : ℤ => 0) tid
  unfold LinquOrchestratorState.launchGroup at hs
  split at hs
  · rename_i hn
    have hs' : (s₁.setStatus tid .running).complete tid = .ok s' := by
      rw [complete, setStatus_setStatus]
      exact hs
    have hacc := hent (reportsOnce_suffix ho (frame_complete hs).suffix)
    rw [hn, hzero] at hacc
    obtain ⟨hrem,hout⟩ := hacc.last hrun hgr (by
      rw [f.groupSize, hnew.2.1, hn]
      exact Nat.zero_le _)
    refine hacc.completes hrun hout hrem (fun call hc hor hid => ?_) hs'
    by_contra hnr
    have hp := ((hacc.plain call hc hor).2 (hid ▸ hnr)).2
    rw [hid, hgr] at hp
    cases hp
  · rename_i hn
    split at hs
    · rename_i hfan
      have hlist : (s₁.setStatus tid .running).faninList tid = [] := by
        rw [f.faninList, e.fanin_new]
        exact List.length_eq_zero_iff.mp (hnew.2.2.symm.trans hfan)
      have hloop := Account.launchFrom subs 0 (s₁.setStatus tid .running) s'
        (e.backend.trans h.backend) hent (by rw [f.groupSize, hnew.2.1, Nat.zero_add]) hlist hs
      rw [hzero] at hloop
      exact hloop.2 ho
    · cases hs
      have hacc := hent ho
      have hnd : finished (s₁.setStatus tid .running) tid = false := by
        rw [finished_live hlive, hrun.2]
        rfl
      have hsize : ((s₁.setStatus tid .running).get tid).groupSize = subs.length :=
        (f.groupSize tid).trans hnew.2.1
      have hund : undispatched (Function.update (fun _ => 0) tid subs.length)
          (s₁.setStatus tid .running) tid = subs.length := by
        rw [undispatched, if_neg (by rw [hrun.2]; simp), Function.update_self]
      have hpark := hacc.restate (v := .pending)
        (m := mapSet s₁.pendingGroupSpecs tid ⟨k.getD "",params,subs⟩) (fun _ => 0) hlive hgr hnd (Or.inr rfl)
        (fun x hx hxt => ?_) (fun g hg => by rw [Function.update_of_ne hg])
        (by rw [if_pos rfl, hund, hsize])
        (fun _ => ⟨rfl,_,lookup_mapSet_self ..,hsize.symm⟩)
        (fun g hg => ?_)
      · rw [setStatus_setStatus] at hpark
        exact hpark
      · have hb := hacc.budget tid hlive hgr hnd
        rw [hund, hsize] at hb
        have hz : openSubs (s₁.setStatus tid .running) tid = 0 := by omega
        exact List.countP_eq_zero.mp hz x hx (decide_eq_true hxt)
      · exact lookup_mapSet hg

theorem grouped_calls : CallRule Grouped (fun _ _ _ => True) where
  shape _ h := h.shape
  metrics s s' m h := h.of_settles (settles_metrics m) fun t => by
    rw [LinquOrchestratorState.get, LinquOrchestratorState.get, m.taskRing]
  advance s s' cursor r h := ⟨r.shape h.shape,r.rest.backend.trans h.backend,fun ho =>
    (h.account (r.rest.trace ▸ ho)).retired r⟩
  report s t s' h hs := by
    have f := frame_onTaskComplete hs
    have hshape : Shape (s.record (.report t)) := h.shape.of_eq rfl rfl rfl
    refine ⟨hshape.of_frame f,f.backend.trans h.backend,fun ho => ?_⟩
    have hone : ReportsOnce (.report t::s.trace) := reportsOnce_suffix ho f.suffix
    exact (h.account hone.2).reported hone.1 hs
  task _ _ _ _ _ _ _ _ h _ _ e hs := h.launchTask e hs
  group _ _ _ _ _ _ _ _ _ h _ _ e hs := by
    have hf := follows_launchGroup hs
    exact ⟨hf.shape e.shape,hf.backend.trans (e.backend.trans h.backend),h.launchGroup e hs⟩
  scopeBegin s s' h hs := by
    refine h.of_settles (settles_scopeBegin hs) fun t => ?_
    obtain ⟨st,-,hs⟩ := bind_ok.mp hs
    cases hs
    rfl
  closeScope s s' h hs := by
    have hrc : ∀ t, (s'.get t).faninRefcount = (s.get t).faninRefcount :=
      closeScope_rule (P := fun u => ∀ t, (u.get t).faninRefcount = (s.get t).faninRefcount)
        (fun _ _ _ => rfl) (fun u t hu c => by rw [get_raiseFanout]; exact hu c)
        (fun u t hu c => (checkTaskConsumed_field LinquTaskDescriptor.faninRefcount
          (fun _ _ => rfl) u t c).trans (hu c)) hs
    exact h.of_settles (settles_closeScope hs) hrc
  scopeRelease s t h := h.of_settles (settles_check s t)
    (checkTaskConsumed_field LinquTaskDescriptor.faninRefcount (fun _ _ => rfl) s t)

theorem init_grouped {cfg : LinquOrchConfigInternal} {s : State}
    (h : init .dispatcher cfg = .ok s) : Grouped s := by
  obtain ⟨hb,htr,-,-,hsub,-,hnext⟩ := init_rest h
  have hnl := init_not_live h
  refine ⟨init_shape h,hb,fun _ => ?_⟩
  constructor
  case shape => exact init_shape h
  case backend => exact hb
  case chk_live => exact fun c hc => (by cases hc)
  case met => exact fun c hc => absurd hc (hnl c)
  case plain => exact fun call hc => (by rw [htr] at hc; cases hc)
  case known => exact fun call g i hc => (by rw [htr] at hc; cases hc)
  case keys => rw [hsub]; exact List.nodup_nil
  case next => rw [hsub, hnext]; exact ⟨by decide,fun e he => by cases he⟩
  case groups => exact fun e he => (by rw [hsub] at he; cases he)
  case busy => exact fun g hg => absurd rfl hg
  case specs => exact fun g hg => absurd hg (hnl g)
  case budget => exact fun g hg => absurd hg (hnl g)
  case indices => exact fun g i hg => absurd hg (hnl g)
  case once => rw [htr]; exact List.nodup_nil
  case released => exact fun call g i hc => (by rw [htr] at hc; cases hc)

/-- Over every run with a dispatcher in which an id is reported only while it
is out: no spec of a group is handed out twice, and none before every producer
of the group has completed or is retired. -/
theorem sub_tasks_dispatched_once {cfg : LinquOrchConfigInternal} {s₀ s : State} {ops : List Op}
    (hinit : init .dispatcher cfg = .ok s₀) (hrun : Run Steps ops s₀ s)
    (honce : ReportsOnce s.trace) :
    (subDispatches s.trace).Nodup ∧
      ∀ call g i, .dispatch call ∈ s.trace → call.origin = .sub g i → Released call g := by
  have h := (run_rule grouped_calls (init_grouped hinit) (guarded_true ops s₀) hrun).account honce
  exact ⟨h.once,h.released⟩

/-- A group of two waits for a task, is started by its report, and then feeds
a second group. -/
def groupFeedsGroup : List Op :=
  [.submitTask {} none [linquMakeOutput 1] [],
    .submitTaskGroup none [linquMakeInput 1,linquMakeOutput 2] [⟨{},none,[]⟩,⟨{},none,[]⟩] [] [],
    .submitTaskGroup none [linquMakeInput 2] [⟨{},none,[]⟩] [] [],
    .onTaskComplete 0,.onTaskComplete (-2),.onTaskComplete (-1)]

theorem sub_tasks_dispatched_once_chain : ∃ s₀ s, init .dispatcher {} = .ok s₀ ∧
    Run Steps groupFeedsGroup s₀ s ∧ subDispatches s.trace = [(2,0),(1,1),(1,0)] ∧
    (subDispatches s.trace).Nodup ∧
    ∀ call g i, .dispatch call ∈ s.trace → call.origin = .sub g i → Released call g := by
  obtain ⟨s₀,s,h₀,hr,-,ht⟩ := run_of_check (b := .dispatcher) (c := {})
    (l := groupFeedsGroup) (g := fun _ => true)
    (t := fun s => decide (ReportsOnce s.trace ∧
      subDispatches s.trace = [(2,0),(1,1),(1,0)])) (by decide +kernel)
  obtain ⟨honce,hsubs⟩ := of_decide_eq_true ht
  exact ⟨s₀,s,h₀,hr,hsubs,sub_tasks_dispatched_once h₀ hr honce⟩

end Linqu.GroupDispatch
