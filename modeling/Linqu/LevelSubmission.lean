import Linqu.LevelWiring

/-!
# What a submission keeps

The steps of the submitting thread. An edge enters the fanin chain of the new
task while its inputs are scanned, and the fanout chain of the producer when
the task is exposed to it; in between it is with the submitter.
-/

set_option autoImplicit false

namespace Linqu.LevelSubmission
open Linqu.TaskRing Linqu.DepPool Linqu.ReadyQueue Linqu.Ownership Linqu.Transition
open Linqu.Level Linqu.Level.LevelRuntime Linqu.LevelMoves Linqu.LevelLayout Linqu.LevelWiring

variable {exact : Prop} {s s' : LevelRuntime} {t : ℤ} {ntf wat crd clm : List ℤ} {d : Debts}

/-- The submitter goes on with the same edges. -/
theorem Wired.setSubmitter (h : Wired exact d s) {pc : SubmitPc}
    (hin : SubmitterIn s.tensorMap s.taskRing.currentIndex pc)
    (hexp : unexposed pc = unexposed s.submitter)
    (hprep : ∀ c, preparing pc = some c → preparing s.submitter = some c)
    (hreq : ∀ c, preparing s.submitter = some c → preparing pc ≠ some c →
      (s.get c).faninCount = (s.faninList c).length+externals s c)
    (hsub : Submitting s pc)
    (hwatch : ∀ c, preparing s.submitter = some c ∨ inspecting s.submitter = some c →
      preparing pc ≠ some c → (s.get c).status = .pending →
      inspecting pc = some c ∨ (s.get c).atomicFaninRefcount < (s.get c).faninCount)
    (hex : Exclusive (Function.update (owns s) .submitter (submitOwns pc)) s.readyQueue.contents)
    (hown : ∀ t, submitOwns pc = some t → Known s t ∧ (s.get t).status = .ready ∧ t ∉ entered s)
    (hclm : ∀ t ∈ clm, Known s t ∧ (s.get t).status = .ready ∧ t ∉ entered s ∧
      Free (Function.update (owns s) .submitter (submitOwns pc)) s.readyQueue.contents t)
    (hcomp : ∀ c, (c ∈ d.clm ∨ submitOwns s.submitter = some c) →
      c ∈ clm ∨ submitOwns pc = some c) :
    Wired exact { d with clm := clm } (s.setSubmitter pc) := by
  have hnot : ∀ c, preparing s.submitter ≠ some c → preparing pc ≠ some c :=
    fun c hc he => hc (hprep c he)
  refine ⟨h.laid.setSubmitter hin,h.placed,h.alive,⟨fun p c hp hc => ?_,h.graph.spare⟩,
    ⟨fun c hc => ?_,fun he c hc => ?_,fun c hc hp => ?_,hsub,fun k i count hk => ?_,
      fun c hc hp hst => ?_⟩,
    h.owned.setEnterer (owns_setSubmitter s pc) ?_ rfl hex hown hclm hcomp (fun c hc hp => ?_)
      ⟨_,_,rfl⟩,{ h.ledger with },h.history⟩
  · change _+(unexposed pc c).count p = _
    rw [hexp]
    exact h.graph.edges p c hp hc
  · change _ ≤ _+_+(unexposed pc c).countP (walked s)+_
    rw [hexp]
    exact h.counts.lower c hc
  · change _+_+(unexposed pc c).countP (walked s)+_ ≤ _
    rw [hexp]
    exact h.counts.upper he c hc
  · by_cases hold : preparing s.submitter = some c
    · exact hreq c hold hp
    · exact h.counts.required c hc hold
  · obtain ⟨hle,hp⟩ := h.counts.scheduling k i count hk
    exact ⟨hle,hnot i hp⟩
  · have hnew : preparing s.submitter = some c ∨ inspecting s.submitter = some c →
        Watched (s.setSubmitter pc) c ∨ c ∈ d.wat ∨
          (s.get c).atomicFaninRefcount < (s.get c).faninCount := by
      intro hb
      rcases hwatch c hb hp hst with hi | hlt
      · exact Or.inl (Or.inl hi)
      · exact Or.inr (Or.inr hlt)
    by_cases hold : preparing s.submitter = some c
    · exact hnew (Or.inl hold)
    · rcases h.counts.watched c hc hold hst with (hw | hw) | hw
      · exact hnew (Or.inr hw)
      · exact Or.inl (Or.inr hw)
      · exact Or.inr hw
  · funext th
    cases th <;> rfl
  · obtain ⟨hp1,hp2⟩ := h.owned.started c hc hp
    refine ⟨hnot c hp1,fun he => ?_⟩
    change unexposed pc c = [] ∧ _
    rw [hexp]
    exact hp2 he

/-- The submitter goes on without owning a task. -/
theorem Wired.proceed (h : Wired exact d s) (hclm : d.clm = []) {pc : SubmitPc}
    (hin : SubmitterIn s.tensorMap s.taskRing.currentIndex pc)
    (hexp : unexposed pc = unexposed s.submitter) (hprep : preparing pc = preparing s.submitter)
    (hsub : Submitting s pc)
    (hwatch : ∀ c, inspecting s.submitter = some c → (s.get c).status = .pending →
      inspecting pc = some c ∨ (s.get c).atomicFaninRefcount < (s.get c).faninCount)
    (hown : submitOwns s.submitter = none) (hown' : submitOwns pc = none) :
    Wired exact d (s.setSubmitter pc) := by
  refine Wired.setSubmitter h hin hexp (fun c hc => hprep ▸ hc)
    (fun c hc hn => absurd (hprep ▸ hc) hn) hsub (fun c hc hn hst => ?_) ?_ (fun t ht => ?_)
    (fun t ht => ?_) (fun c hc => ?_)
  · rcases hc with hc | hc
    · exact absurd (hprep ▸ hc) hn
    · exact hwatch c hc hst
  · rw [hown']
    exact h.owned.exclusive.drop .submitter
  · rw [hown'] at ht
    cases ht
  · rw [hclm] at ht
    cases ht
  · rw [hown] at hc
    exact Or.inl (hc.resolve_right (fun he => by cases he))

/-- The submitter takes a claimed task, to put it into the queue. -/
theorem Wired.take (h : Wired exact d s) (hclm : d.clm = [t])
    (hin : Newest s.taskRing.currentIndex t)
    (hexp : unexposed s.submitter = unexposed .idle)
    (hreq : (s.get t).faninCount = (s.faninList t).length+externals s t)
    (hbusy : ∀ c, preparing s.submitter = some c ∨ inspecting s.submitter = some c → c = t)
    (hown : submitOwns s.submitter = none) :
    Wired exact { d with clm := [] } (s.setSubmitter (.enqueuing t)) := by
  obtain ⟨ht,hready,hent,hfree⟩ := h.owned.claimed t (hclm ▸ List.mem_singleton_self t)
  refine Wired.setSubmitter h hin hexp.symm (fun c hc => by cases hc) (fun c hc _ => ?_) trivial
    (fun c hc _ hst => ?_) (h.owned.exclusive.take .submitter hfree) (fun u hu => ?_)
    (fun u hu => by cases hu) (fun c hc => ?_)
  · rw [hbusy c (Or.inl hc)]
    exact hreq
  · rw [hbusy c hc, hready] at hst
    cases hst
  · cases hu
    exact ⟨ht,hready,hent⟩
  · rw [hclm, hown] at hc
    rcases hc with hc | hc
    · exact Or.inr (by rw [List.mem_singleton.mp hc]; rfl)
    · cases hc

/-- The submitter leaves the task to be put into the queue. -/
theorem Wired.leave (h : Wired exact d s) (hclm : d.clm = [])
    (hpc : s.submitter = .enqueuing t) :
    Wired exact { d with clm := [t] } (s.setSubmitter .idle) := by
  have howns : owns s .submitter = some t := by
    rw [owns, hpc]
    rfl
  obtain ⟨ht,hst,-⟩ := h.owned.phases .submitter t howns
  have hready : (s.get t).status = .ready := by
    rcases hst with hst | ⟨hst,-⟩
    · exact hst
    · cases hst
  refine Wired.setSubmitter h trivial (by rw [hpc]; rfl) (fun c hc => by cases hc)
    (fun c hc => ?_) trivial (fun c hc => ?_) (h.owned.exclusive.drop .submitter)
    (fun u hu => by cases hu) (fun u hu => ?_) (fun c hc => ?_)
  · rw [hpc] at hc
    cases hc
  · rw [hpc] at hc
    rcases hc with hc | hc <;> cases hc
  · rw [List.mem_singleton.mp hu]
    exact ⟨ht,hready,h.owned.entering .submitter t rfl howns,
      h.owned.exclusive.free_of_drop howns⟩
  · rw [hclm, hpc] at hc
    rcases hc with hc | hc
    · cases hc
    · cases hc
      exact Or.inl (List.mem_singleton_self t)

theorem Wired.storeFanin (h : Wired exact d s) {n : ℕ} {ps : List ℤ}
    (hpc : s.submitter = .storingFanin t n ps) (ht : Known s t) :
    Wired exact d (s.storeFanin t n) := by
  refine ⟨h.laid.storeFanin t n,h.placed,h.alive,h.graph.modify fun _ => ⟨rfl,rfl,rfl⟩,?_,
    h.owned.modify fun _ => ⟨rfl,rfl⟩,h.ledger.modify fun _ => ⟨rfl,rfl⟩,h.history⟩
  have hlist : ∀ u, (s.storeFanin t n).faninList u = s.faninList u := fun u =>
    faninList_modify (fun _ => by rfl) s t u
  have href : ∀ u, ((s.storeFanin t n).get u).atomicFaninRefcount =
      (s.get u).atomicFaninRefcount := fun u =>
    proj_modify (·.atomicFaninRefcount) (fun _ => by rfl) s t u
  have hneed : ∀ c, Known s c → preparing s.submitter ≠ some c →
      ((s.storeFanin t n).get c).faninCount = (s.get c).faninCount := by
    intro c hc hp
    have hne : c ≠ t := by
      rintro rfl
      rw [hpc] at hp
      exact hp rfl
    rw [LevelRuntime.storeFanin, Known.get_modify h.placed ht hc, if_neg hne]
  constructor
  case lower =>
    intro c hc
    rw [hlist, href]
    exact h.counts.lower c hc
  case upper =>
    intro he c hc
    rw [hlist, href]
    exact h.counts.upper he c hc
  case required =>
    intro c hc hp
    rw [hlist, hneed c hc hp]
    exact h.counts.required c hc hp
  case submitting =>
    have hsub := h.counts.submitting
    change Submitting (s.storeFanin t n) s.submitter
    rw [hpc] at hsub ⊢
    exact Prepared.modify hsub (fun _ => rfl)
  case scheduling =>
    intro k i count hk
    rw [href]
    exact h.counts.scheduling k i count hk
  case watched =>
    intro c hc hp hst
    rw [LevelRuntime.storeFanin, proj_modify (·.status) (fun _ => by rfl)] at hst
    rw [href, hneed c hc hp]
    refine (h.counts.watched c hc hp hst).imp_left ?_
    rintro (hw | ⟨k,count,hk,hle⟩)
    · exact Or.inl hw
    · exact Or.inr ⟨k,count,hk,by rw [hneed c hc hp]; exact hle⟩

/-- Only the chains and the fanout counts differ. -/
structure Relinked (s s' : LevelRuntime) : Prop where
  state : ∃ ring pool, s' = { s with taskRing := ring, depPool := pool }
  window : s'.taskRing.windowSize = s.taskRing.windowSize
  current : s'.taskRing.currentIndex = s.taskRing.currentIndex
  alive : s'.taskRing.lastTaskAlive = s.taskRing.lastTaskAlive
  status : ∀ u, (s'.get u).status = (s.get u).status
  refcount : ∀ u, (s'.get u).atomicFaninRefcount = (s.get u).atomicFaninRefcount
  faninCount : ∀ u, (s'.get u).faninCount = (s.get u).faninCount
  released : ∀ u, (s'.get u).atomicFanoutRefcount = (s.get u).atomicFanoutRefcount

theorem relinked_modify (s : LevelRuntime) (pool : LinquDepListPool) (t : ℤ)
    {f : LinquTaskDescriptor → LinquTaskDescriptor}
    (hf : ∀ d, (f d).status = d.status ∧ (f d).atomicFaninRefcount = d.atomicFaninRefcount ∧
      (f d).faninCount = d.faninCount ∧ (f d).atomicFanoutRefcount = d.atomicFanoutRefcount) :
    Relinked s ({ s with depPool := pool }.modify t f) :=
  ⟨⟨_,_,rfl⟩,rfl,rfl,rfl,proj_modify (·.status) (fun d => (hf d).1) _ t,
    proj_modify (·.atomicFaninRefcount) (fun d => (hf d).2.1) _ t,
    proj_modify (·.faninCount) (fun d => (hf d).2.2.1) _ t,
    proj_modify (·.atomicFanoutRefcount) (fun d => (hf d).2.2.2) _ t⟩

theorem Relinked.refl (s : LevelRuntime) : Relinked s s :=
  ⟨⟨_,_,rfl⟩,rfl,rfl,rfl,fun _ => rfl,fun _ => rfl,fun _ => rfl,fun _ => rfl⟩

theorem linkFanin_relinked {p : ℤ} (hl : s.linkFanin t p = some s') : Relinked s s' := by
  obtain ⟨idx,pool,-,rfl⟩ := linkFanin_spec hl
  exact relinked_modify s pool t fun _ => ⟨rfl,rfl,rfl,rfl⟩

theorem linkFanout_relinked {c : ℤ} (hl : s.linkFanout t c = some s') : Relinked s s' := by
  obtain ⟨idx,pool,-,rfl⟩ := linkFanout_spec hl
  exact relinked_modify s pool t fun _ => ⟨rfl,rfl,rfl,rfl⟩

section Relink

variable (hr : Relinked s s')
include hr

theorem Relinked.known (u : ℤ) : Known s' u ↔ Known s u := by
  rw [Known, Known, hr.current]

theorem Relinked.slot (u : ℤ) : s'.taskRing.slot u = s.taskRing.slot u := by
  rw [LinquTaskRing.slot, LinquTaskRing.slot, hr.window]

theorem Relinked.walks : s'.walks = s.walks := by
  obtain ⟨ring,pool,rfl⟩ := hr.state
  rfl

theorem Relinked.enqueues : s'.enqueues = s.enqueues := by
  obtain ⟨ring,pool,rfl⟩ := hr.state
  rfl

theorem Relinked.walked : walked s' = walked s := by
  funext p
  rw [LevelWiring.walked, LevelWiring.walked, hr.walks]

theorem Relinked.externals (u : ℤ) : externals s' u = externals s u := by
  have hs := hr.slot u
  obtain ⟨ring,pool,rfl⟩ := hr.state
  rw [LevelWiring.externals, LevelWiring.externals, hs]

theorem Relinked.owed (u : ℤ) : owed s' u = owed s u := by
  have hs := hr.slot u
  obtain ⟨ring,pool,rfl⟩ := hr.state
  rw [LevelWiring.owed, LevelWiring.owed, hs]
  rfl

/-- The statuses are the same, so only the edges of started tasks matter. -/
theorem Owned.relink (h : Owned exact clm s) {pc : SubmitPc}
    (hown : submitOwns pc = submitOwns s.submitter)
    (hstart : ∀ c, Known s c → (s.get c).status ≠ .pending → preparing pc ≠ some c ∧
      (exact → unexposed pc c = [] ∧ ∀ p ∈ s'.faninList c, p ∈ s.walks)) :
    Owned exact clm (s'.setSubmitter pc) := by
  have hst := hr.status
  have hwindow := hr.window
  have hknown := hr.known
  obtain ⟨ring,pool,rfl⟩ := hr.state
  have howns : owns ({ s with taskRing := ring, depPool := pool }.setSubmitter pc) = owns s := by
    funext th
    cases th with
    | submitter => exact hown
    | _ => rfl
  have hphase : phase ({ s with taskRing := ring, depPool := pool }.setSubmitter pc) = phase s := by
    funext th
    cases th <;> rfl
  constructor
  case walked =>
    intro p hp
    obtain ⟨hk,hd⟩ := h.walked p hp
    exact ⟨(hknown p).mpr hk,(congrArg Status.isDone (hst p)).trans hd⟩
  case started =>
    intro c hc hp
    exact hstart c ((hknown c).mp hc) ((hst c).symm.trans_ne hp)
  case kept =>
    intro he c hc
    exact (hst c).trans_ne (h.kept he c ((hknown c).mp hc))
  case exclusive =>
    rw [howns]
    exact h.exclusive
  case queued =>
    intro u hu
    obtain ⟨hk,hd⟩ := h.queued u hu
    exact ⟨(hknown u).mpr hk,(hst u).trans hd⟩
  case phases =>
    intro th u hu
    rw [howns] at hu
    obtain ⟨hk,hd,hn⟩ := h.phases th u hu
    rw [hphase]
    exact ⟨(hknown u).mpr hk,hd.imp (hst u).trans (And.imp_right (hst u).trans),hn⟩
  case targets =>
    intro i u target more hi
    obtain ⟨hk,hd⟩ := h.targets i u target more hi
    exact ⟨(hknown target).mpr hk,(congrArg Status.isDone (hst target)).trans hd⟩
  case once => exact h.once
  case unentered =>
    intro u hu
    obtain ⟨hk,hd⟩ := h.unentered u hu
    exact ⟨(hknown u).mpr hk,(hst u).trans_ne hd⟩
  case entering =>
    rw [howns]
    exact h.entering
  case claimed =>
    intro u hu
    obtain ⟨hk,hd,hn⟩ := h.claimed u hu
    rw [howns]
    exact ⟨(hknown u).mpr hk,(hst u).trans hd,hn⟩
  case complete =>
    intro c hc hp
    rw [howns]
    exact h.complete c ((hknown c).mp hc) ((hst c).symm.trans_ne hp)
  case head_le => exact h.head_le
  case room => exact hwindow.trans_le h.room

theorem Ledger.relink (h : Ledger exact crd s) {pc : SubmitPc}
    (hfo : ∀ u, Known s u →
      (s.fanoutList u).countP (walked s) ≤ (s'.fanoutList u).countP (walked s)) :
    Ledger exact crd (s'.setSubmitter pc) := by
  have hreleases : releases (s'.setSubmitter pc) = releases s := by
    obtain ⟨ring,pool,rfl⟩ := hr.state
    rfl
  refine ⟨fun he p hp => ?_,?_,?_⟩
  · have hk := (hr.known p).mp hp
    have hb := h.bound he p hk
    have hf := hfo p hk
    rw [hreleases]
    change (s'.get p).atomicFanoutRefcount+_+_ ≤ (s'.fanoutList p).countP (walked s')
    rw [hr.released, hr.walked]
    omega
  · obtain ⟨ring,pool,rfl⟩ := hr.state
    exact h.idle
  · obtain ⟨ring,pool,rfl⟩ := hr.state
    exact h.retains

/-- The account of the tasks whose edges are the same. -/
theorem Counts.relink {ntf' : List ℤ} (h : Counts exact ntf wat s) {pc : SubmitPc}
    (hntf : ∀ c, ntf.count c ≤ ntf'.count c)
    (hlower : ∀ c, Known s c → (s'.faninList c).countP (walked s)+externals s c ≤
      (s.get c).atomicFaninRefcount+ntf'.count c+(unexposed pc c).countP (walked s)+owed s c)
    (hupper : exact → ∀ c, Known s c →
      (s.get c).atomicFaninRefcount+ntf'.count c+(unexposed pc c).countP (walked s)+owed s c ≤
        (s'.faninList c).countP (walked s)+externals s c)
    (hprep : preparing pc = preparing s.submitter) (hinsp : inspecting pc = inspecting s.submitter)
    (hfi : ∀ c, Known s c → preparing s.submitter ≠ some c → s'.faninList c = s.faninList c)
    (hsub : Submitting s' pc) : Counts exact ntf' wat (s'.setSubmitter pc) := by
  have hsch : s'.schedulers = s.schedulers := by
    obtain ⟨ring,pool,rfl⟩ := hr.state
    rfl
  constructor
  case lower =>
    intro c hc
    change (s'.faninList c).countP (walked s')+externals s' c ≤
      (s'.get c).atomicFaninRefcount+_+(unexposed pc c).countP (walked s')+owed s' c
    rw [hr.refcount, hr.walked, hr.owed, hr.externals]
    exact hlower c ((hr.known c).mp hc)
  case upper =>
    intro he c hc
    change (s'.get c).atomicFaninRefcount+_+(unexposed pc c).countP (walked s')+owed s' c ≤
      (s'.faninList c).countP (walked s')+externals s' c
    rw [hr.refcount, hr.walked, hr.owed, hr.externals]
    exact hupper he c ((hr.known c).mp hc)
  case required =>
    intro c hc hp
    change preparing pc ≠ some c at hp
    rw [hprep] at hp
    have hk := (hr.known c).mp hc
    change (s'.get c).faninCount = (s'.faninList c).length+externals s' c
    rw [hr.faninCount, hr.externals, hfi c hk hp]
    exact h.required c hk hp
  case submitting => exact hsub
  case scheduling =>
    intro k i count hk
    change raised (s'.schedulers k) = _ at hk
    rw [hsch] at hk
    change count ≤ (s'.get i).atomicFaninRefcount+_ ∧ preparing pc ≠ some i
    rw [hr.refcount, hprep]
    obtain ⟨hle,hp⟩ := h.scheduling k i count hk
    exact ⟨hle.trans (Nat.add_le_add_left (hntf i) _),hp⟩
  case watched =>
    intro c hc hp hst
    change preparing pc ≠ some c at hp
    rw [hprep] at hp
    change (s'.get c).status = _ at hst
    rw [hr.status] at hst
    change Watched (s'.setSubmitter pc) c ∨ c ∈ wat ∨
      (s'.get c).atomicFaninRefcount < (s'.get c).faninCount
    rw [hr.refcount, hr.faninCount]
    refine (h.watched c ((hr.known c).mp hc) hp hst).imp_left ?_
    rintro (hw | ⟨k,count,hk,hle⟩)
    · refine Or.inl ?_
      change inspecting pc = some c
      rw [hinsp]
      exact hw
    · refine Or.inr ⟨k,count,?_,?_⟩
      · change raised (s'.schedulers k) = _
        rw [hsch]
        exact hk
      · change (s'.get c).faninCount ≤ _
        rw [hr.faninCount]
        exact hle

end Relink

section Steps

variable {tid p : ℤ} {fanin : ℕ} {outputs rest : List LinquTensor} {input : LinquTensor}
  {ps : List ℤ}

theorem Newest.known (ht : Newest s.taskRing.currentIndex t) : Known s t :=
  ⟨ht.1,by have := ht.2; omega⟩

/-- An input with a producer: the edge is in the fanin chain and with the submitter. -/
theorem Wired.link (h : Wired exact d s)
    (hpc : s.submitter = .scanning tid outputs (input::rest) fanin ps)
    (hlook : s.tensorMap.lookup input.handle = some (some p))
    (hl : s.linkFanin tid p = some s') :
    Wired exact d (s'.setSubmitter (.scanning tid outputs rest (fanin+1) (ps++[p]))) := by
  have hsub := h.laid.submitter
  have hprep := h.counts.submitting
  rw [hpc] at hsub hprep
  have htid : Known s tid := Newest.known hsub.1
  have hr := linkFanin_relinked hl
  have hlists := h.laid.linkFanin_lists hl
  have hfi : ∀ u, Known s u →
      s'.faninList u = if u = tid then p::s.faninList u else s.faninList u := by
    intro u hu
    rw [(hlists u).1]
    simp only [Known.slot_eq_iff h.placed htid hu]
  have huse : ∀ u, (s'.get u).fanoutCount = (s.get u).fanoutCount := by
    obtain ⟨idx,pool,-,rfl⟩ := linkFanin_spec hl
    exact proj_modify (·.fanoutCount) (fun _ => by rfl) { s with depPool := pool } tid
  have hexp : ∀ c, unexposed s.submitter c = if c = tid then ps else [] := by
    rw [hpc]
    exact fun _ => rfl
  have hne : ∀ c, preparing s.submitter ≠ some c → c ≠ tid := by
    rw [hpc]
    rintro c hc rfl
    exact hc rfl
  refine ⟨laid_submit h.laid (.link hpc hlook hl),?_,fun he => hr.alive.trans (h.alive he),
    ⟨fun q c hq hc => ?_,fun q hq => ?_⟩,
    Counts.relink hr h.counts (fun _ => le_rfl) (fun c hc => ?_) (fun he c hc => ?_)
      (by rw [hpc]; rfl) (by rw [hpc]; rfl) (fun c hc hp => ?_) ⟨?_,fun q => ?_⟩,
    Owned.relink hr h.owned (by rw [hpc]; rfl) (fun c hc hst => ?_),
    Ledger.relink hr h.ledger (fun u _ => ?_),?_⟩
  · change s'.taskRing.currentIndex ≤ s'.taskRing.windowSize
    rw [hr.current, hr.window]
    exact h.placed
  · have he := h.graph.edges q c ((hr.known q).mp hq) ((hr.known c).mp hc)
    rw [hexp] at he
    change (s'.fanoutList q).count c+(if c = tid then ps++[p] else []).count q =
      (s'.faninList c).count q
    rw [(hlists q).2, hfi c ((hr.known c).mp hc)]
    split
    · rename_i hct
      rw [if_pos hct] at he
      simp only [List.count_append, List.count_cons, List.count_nil]
      omega
    · rename_i hct
      rw [if_neg hct] at he
      exact he
  · change (s'.get q).fanoutCount = (s'.fanoutList q).length+1
    rw [huse, (hlists q).2]
    exact h.graph.spare q ((hr.known q).mp hq)
  · have ha := h.counts.lower c hc
    rw [hexp] at ha
    change _ ≤ _+_+(if c = tid then ps++[p] else []).countP (walked s)+_
    rw [hfi c hc]
    split
    · rename_i hct
      rw [if_pos hct] at ha
      simp only [List.countP_append, List.countP_cons, List.countP_nil]
      omega
    · rename_i hct
      rw [if_neg hct] at ha
      exact ha
  · have ha := h.counts.upper he c hc
    rw [hexp] at ha
    change _+_+(if c = tid then ps++[p] else []).countP (walked s)+_ ≤ _
    rw [hfi c hc]
    split
    · rename_i hct
      rw [if_pos hct] at ha
      simp only [List.countP_append, List.countP_cons, List.countP_nil]
      omega
    · rename_i hct
      rw [if_neg hct] at ha
      exact ha
  · rw [hfi c hc, if_neg (hne c hp)]
  · have hn := hprep.1
    change fanin+1 = (ps++[p]).length+externals s' tid
    rw [hr.externals, List.length_append, List.length_singleton]
    omega
  · have hn := hprep.2 q
    change (ps++[p]).count q = (s'.faninList tid).count q
    rw [hfi tid htid, if_pos rfl]
    simp only [List.count_append, List.count_cons, List.count_nil]
    omega
  · obtain ⟨h1,h2⟩ := h.owned.started c hc hst
    have hct := hne c h1
    rw [hpc] at h1
    rw [hfi c hc, if_neg hct]
    exact ⟨h1,fun he => ⟨if_neg hct,(h2 he).2⟩⟩
  · rw [(hlists u).2]
  · change exact → ∀ e ∈ s'.enqueues, _
    rw [hr.enqueues]
    exact h.history

/-- Another external input of the task that is being prepared. -/
theorem externals_push (h : Wired exact d s) (hprep : preparing s.submitter = some tid)
    (htid : Known s tid) (handle : UInt64) {c : ℤ} (hc : Known s c) :
    externals (s.pushExternal tid handle) c = externals s c+(if c = tid then 1 else 0) ∧
      owed (s.pushExternal tid handle) c = owed s c+(if c = tid then 1 else 0) := by
  have hpush : ∀ f : ℤ → List UInt64,
      (Function.update f (s.taskRing.slot tid) (f (s.taskRing.slot tid)++[handle])
        (s.taskRing.slot c)).length = (f (s.taskRing.slot c)).length+if c = tid then 1 else 0 := by
    intro f
    rw [Function.update_apply]
    simp only [Known.slot_eq_iff h.placed htid hc]
    split
    · rename_i hct
      rw [List.length_append, hct]
      rfl
    · rfl
  refine ⟨hpush s.externalInputs,?_⟩
  -- no scheduler is counting a task that is being prepared
  have hclear : ¬Clears s tid := by
    rintro ⟨j,-,hj⟩
    revert hj
    cases hs : s.schedulers j with
    | clearing i cur count =>
      rintro ⟨⟩
      exact (h.counts.scheduling j tid count (by rw [hs]; rfl)).2 hprep
    | _ => intro hj; cases hj
  change (if Clears s c then 0 else _) = (if Clears s c then 0 else _)+_
  split
  · rename_i hcl
    rw [if_neg (by rintro rfl; exact hclear hcl)]
  · exact hpush s.externalReady

/-- An external input that is not ready. -/
theorem Wired.push (h : Wired exact d s)
    (hpc : s.submitter = .scanning tid outputs (input::rest) fanin ps)
    (hvalid : input.isValid = true) (hlook : s.tensorMap.lookup input.handle = some none)
    (hready : s.tensorReady input.handle = false) :
    Wired exact d ((s.pushExternal tid input.handle).setSubmitter
      (.scanning tid outputs rest (fanin+1) ps)) := by
  have hsub := h.laid.submitter
  have hprep := h.counts.submitting
  rw [hpc] at hsub hprep
  have htid : Known s tid := Newest.known hsub.1
  have hp : preparing s.submitter = some tid := by
    rw [hpc]
    rfl
  have hexp : unexposed s.submitter = unexposed (.scanning tid outputs rest (fanin+1) ps) := by
    rw [hpc]
    rfl
  have hpush : ∀ c, Known s c → _ := fun c hc => externals_push h hp htid input.handle hc
  have hown : Owned exact d.clm (s.setSubmitter (.scanning tid outputs rest (fanin+1) ps)) := by
    refine Owned.relink (Relinked.refl s) h.owned (by rw [hpc]; rfl) (fun c hc hst => ?_)
    rw [← hexp]
    have hstart := h.owned.started c hc hst
    rw [hp] at hstart
    exact hstart
  refine ⟨laid_submit h.laid (.push hpc hvalid hlook hready),h.placed,h.alive,
    ⟨fun q c hq hc => ?_,h.graph.spare⟩,
    ⟨fun c hc => ?_,fun he c hc => ?_,fun c hc hp' => ?_,⟨?_,hprep.2⟩,fun k i count hk => ?_,
      fun c hc hp' hst => ?_⟩,{ hown with },{ h.ledger with },h.history⟩
  · have he := h.graph.edges q c hq hc
    rw [hexp] at he
    exact he
  · have ha := h.counts.lower c hc
    rw [hexp] at ha
    have hc' := hpush c hc
    change _+externals (s.pushExternal tid input.handle) c ≤
      _+_+_+owed (s.pushExternal tid input.handle) c
    rw [hc'.1, hc'.2]
    change (s.faninList c).countP (walked s)+_ ≤
      (s.get c).atomicFaninRefcount+_+
        (unexposed (.scanning tid outputs rest (fanin+1) ps) c).countP (walked s)+_
    omega
  · have ha := h.counts.upper he c hc
    rw [hexp] at ha
    have hc' := hpush c hc
    change _+_+_+owed (s.pushExternal tid input.handle) c ≤
      _+externals (s.pushExternal tid input.handle) c
    rw [hc'.1, hc'.2]
    change (s.get c).atomicFaninRefcount+_+
        (unexposed (.scanning tid outputs rest (fanin+1) ps) c).countP (walked s)+_ ≤
      (s.faninList c).countP (walked s)+_
    omega
  · have hne : c ≠ tid := by
      rintro rfl
      exact hp' rfl
    have hreq := h.counts.required c hc (by rw [hp]; exact hp')
    change (s.get c).faninCount = (s.faninList c).length+
      externals (s.pushExternal tid input.handle) c
    rw [(hpush c hc).1, if_neg hne]
    exact hreq
  · have hn := hprep.1
    change fanin+1 = ps.length+externals (s.pushExternal tid input.handle) tid
    rw [(hpush tid htid).1, if_pos rfl]
    omega
  · obtain ⟨hle,hne⟩ := h.counts.scheduling k i count hk
    rw [hp] at hne
    exact ⟨hle,hne⟩
  · rcases h.counts.watched c hc (by rw [hp]; exact hp') hst with (hw | hw) | hw
    · rw [hpc] at hw
      cases hw
    · exact Or.inl (Or.inr hw)
    · exact Or.inr hw

theorem linkFanout_uses (hle : s.taskRing.currentIndex ≤ s.taskRing.windowSize) (hp : Known s p)
    (ht : Known s t) (hl : s.linkFanout p tid = some s') :
    (s'.get t).fanoutCount = (s.get t).fanoutCount+if t = p then 1 else 0 := by
  obtain ⟨idx,pool,-,rfl⟩ := linkFanout_spec hl
  have hget := Known.get_modify (s := { s with depPool := pool })
    (f := fun d => { d with fanoutListHead := some idx, fanoutCount := d.fanoutCount+1 }) hle hp ht
  rw [hget]
  split <;> rfl

/-- The edge to a walked producer is counted when it is made. -/
theorem edge_lower (h : Owned exact clm s) (p tid : ℤ) (ps : List ℤ) (c : ℤ) :
    (if c = tid then p::ps else []).countP (walked s) ≤
      (if (s.get p).status.isDone then [tid] else []).count c+
        (if c = tid then ps else []).countP (walked s) := by
  by_cases hw : p ∈ s.walks
  · have hdone := (h.walked p hw).2
    by_cases hct : c = tid <;> simp [hct, hw, hdone, walked, Nat.add_comm]
  · by_cases hct : c = tid <;> simp [hct, hw, walked]

/-- No other edge is, if finished producers are walked. -/
theorem edge_upper (hrace : (s.get p).status.isDone = true → p ∈ s.walks) (tid : ℤ) (ps : List ℤ)
    (c : ℤ) :
    (if (s.get p).status.isDone then [tid] else []).count c+
        (if c = tid then ps else []).countP (walked s) ≤
      (if c = tid then p::ps else []).countP (walked s) := by
  by_cases hd : (s.get p).status.isDone = true
  · have hw := hrace hd
    by_cases hct : c = tid
    · simp [hct, hw, hd, walked, Nat.add_comm]
    · simp [hct, hd, Ne.symm hct]
  · by_cases hct : c = tid <;> simp [hct, hd, List.countP_cons]

/-- The task is exposed to a producer; the producer may be done. -/
theorem Wired.linkFanout (h : Wired exact {} s)
    (hpc : s.submitter = .exposing tid fanin (p::ps)) (hl : s.linkFanout p tid = some s')
    (hrace : exact → (s.get p).status.isDone = true → p ∈ s.walks) :
    Wired exact { ntf := if (s.get p).status.isDone then [tid] else [] }
      (s'.setSubmitter (.exposing tid fanin ps)) := by
  have hsub := h.laid.submitter
  rw [hpc] at hsub
  have htid : Known s tid := Newest.known hsub.1
  obtain ⟨hp,hps⟩ := List.forall_mem_cons.mp hsub.2
  have hpk : Known s p := ⟨hp.1,hp.2.trans htid.2⟩
  have hr := linkFanout_relinked hl
  have hlists := h.laid.linkFanout_lists hl
  have hfo : ∀ u, Known s u →
      s'.fanoutList u = if u = p then tid::s.fanoutList u else s.fanoutList u := by
    intro u hu
    rw [(hlists u).1]
    simp only [Known.slot_eq_iff h.placed hpk hu]
  have hexp : ∀ c, unexposed s.submitter c = if c = tid then p::ps else [] := by
    rw [hpc]
    exact fun _ => rfl
  refine ⟨(h.laid.linkFanout htid hl).setSubmitter ?_,?_,fun he => hr.alive.trans (h.alive he),
    ⟨fun q c hq hc => ?_,fun q hq => ?_⟩,
    Counts.relink hr h.counts (fun c => ?_) (fun c hc => ?_) (fun he c hc => ?_)
      (by rw [hpc]; rfl) (by rw [hpc]; rfl) (fun c hc _ => (hlists c).2) ?_,
    Owned.relink hr h.owned (by rw [hpc]; rfl) (fun c hc hst => ⟨fun he => (by cases he),fun he => ?_⟩),
    Ledger.relink hr h.ledger (fun u hu => ?_),?_⟩
  · obtain ⟨idx,pool,-,rfl⟩ := linkFanout_spec hl
    exact ⟨hsub.1,hps⟩
  · change s'.taskRing.currentIndex ≤ s'.taskRing.windowSize
    rw [hr.current, hr.window]
    exact h.placed
  · have he := h.graph.edges q c ((hr.known q).mp hq) ((hr.known c).mp hc)
    rw [hexp] at he
    change (s'.fanoutList q).count c+(if c = tid then ps else []).count q = (s'.faninList c).count q
    rw [hfo q ((hr.known q).mp hq), (hlists c).2, ← he]
    by_cases hct : c = tid
    · subst hct
      by_cases hqp : q = p
      · subst hqp
        simp only [if_true, List.count_cons_self]
        omega
      · simp only [if_true, if_neg hqp, List.count_cons_of_ne (Ne.symm hqp)]
    · by_cases hqp : q = p
      · subst hqp
        simp only [if_true, if_neg hct, List.count_cons_of_ne (Ne.symm hct)]
      · simp only [if_neg hct, if_neg hqp]
  · change (s'.get q).fanoutCount = (s'.fanoutList q).length+1
    have hq' := (hr.known q).mp hq
    have hs := h.graph.spare q hq'
    rw [linkFanout_uses h.placed hpk hq' hl, hfo q hq', hs]
    split <;> rfl
  · exact Nat.zero_le _
  · have ha := h.counts.lower c hc
    rw [hexp] at ha
    have hc' := edge_lower h.owned p tid ps c
    change _ ≤ _+(if (s.get p).status.isDone then [tid] else []).count c+
      (if c = tid then ps else []).countP (walked s)+_
    rw [(hlists c).2]
    change _ ≤ _+0+_+_ at ha
    omega
  · have ha := h.counts.upper he c hc
    rw [hexp] at ha
    have hc' := edge_upper (hrace he) tid ps c
    change _+(if (s.get p).status.isDone then [tid] else []).count c+
      (if c = tid then ps else []).countP (walked s)+_ ≤ _
    rw [(hlists c).2]
    change _+0+_+_ ≤ _ at ha
    omega
  · change (s'.get tid).faninCount = fanin
    rw [hr.faninCount]
    have hs := h.counts.submitting
    rw [hpc] at hs
    exact hs
  · obtain ⟨hnil,hwalk⟩ := (h.owned.started c hc hst).2 he
    rw [hexp] at hnil
    have hct : c ≠ tid := by
      rintro rfl
      rw [if_pos rfl] at hnil
      cases hnil
    rw [(hlists c).2]
    exact ⟨if_neg hct,hwalk⟩
  · rw [hfo u hu]
    split
    · rw [List.countP_cons]
      omega
    · exact le_rfl
  · change exact → ∀ e ∈ s'.enqueues, _
    rw [hr.enqueues]
    exact h.history

theorem Wired.expose (h : Wired exact {} s)
    (hpc : s.submitter = .exposing tid fanin (p::ps))
    (ha : s.addConsumerToProducer p tid = some s')
    (hrace : exact → (s.get p).status.isDone = true → p ∈ s.walks) :
    Wired exact {} (s'.setSubmitter (.exposing tid fanin ps)) := by
  obtain ⟨m,hm,ha⟩ := Option.bind_eq_some_iff.mp ha
  cases ha
  have hlink := Wired.linkFanout h hpc hm hrace
  have htid : Known s tid := by
    have hsub := h.laid.submitter
    rw [hpc] at hsub
    exact Newest.known hsub.1
  have hr := linkFanout_relinked hm
  split
  · rename_i hd
    rw [hr.status] at hd
    rw [if_pos hd] at hlink
    exact (hlink.raiseFanin (n := 1) rfl ((hr.known tid).mpr htid)).compared rfl
      fun _ _ _ => Or.inl (Or.inl rfl)
  · rename_i hd
    rw [hr.status] at hd
    rw [if_neg hd] at hlink
    exact hlink

end Steps

section Alloc

variable {req : Request}

theorem WorkerIn.rest {n : ℤ} {pc : WorkerPc} (h : WorkerIn n pc) : Earlier n (rest pc) := by
  cases pc with
  | releasing tid ps => exact h.2
  | checking tid target more => exact h.2.2
  | _ =>
    intro p hp
    cases hp

theorem Allocates.known_iff (ha : Allocates s req s') (hl : Laid s) (u : ℤ) :
    Known s' u ↔ Known s u ∨ u = s.taskRing.currentIndex := by
  have hpos := hl.windowed.alive_nonneg.trans hl.windowed.alive_le
  rw [Known, Known, ha.current]
  omega

/-- The other descriptors are the same. -/
theorem Allocates.get_known (ha : Allocates s req s') (hl : Laid s)
    (hle : s'.taskRing.currentIndex ≤ s'.taskRing.windowSize) {u : ℤ} (hu : Known s u) :
    s.taskRing.slot u ≠ s.taskRing.slot s.taskRing.currentIndex ∧ s'.get u = s.get u := by
  have hslot : ∀ v, s'.taskRing.slot v = s.taskRing.slot v := fun v => by
    rw [LinquTaskRing.slot, LinquTaskRing.slot, ha.window]
  have hne : s.taskRing.slot u ≠ s.taskRing.slot s.taskRing.currentIndex := by
    intro heq
    rw [← hslot, ← hslot] at heq
    have hu' := (Allocates.known_iff ha hl u).mpr (Or.inl hu)
    have hcur := (Allocates.known_iff ha hl _).mpr (Or.inr rfl)
    have := (Known.slot_eq_iff hle hcur hu').mp heq
    have := hu.2
    omega
  refine ⟨hne,?_⟩
  rw [ha.get, if_neg hne]

/-- A new task has no edges and nothing to wait for; the others are the same. -/
structure Grown (s s' : LevelRuntime) : Prop where
  known : ∀ u, Known s' u ↔ Known s u ∨ u = s.taskRing.currentIndex
  get : ∀ u, Known s u → s'.get u = s.get u
  faninList : ∀ u, Known s u → s'.faninList u = s.faninList u
  fanoutList : ∀ u, Known s u → s'.fanoutList u = s.fanoutList u
  externals : ∀ u, Known s u → externals s' u = externals s u ∧ owed s' u = owed s u
  status : (s'.get s.taskRing.currentIndex).status = .pending
  spare : (s'.get s.taskRing.currentIndex).fanoutCount = 1
  refcount : (s'.get s.taskRing.currentIndex).atomicFaninRefcount = 0
  released : (s'.get s.taskRing.currentIndex).atomicFanoutRefcount = 0
  producers : s'.faninList s.taskRing.currentIndex = []
  consumers : s'.fanoutList s.taskRing.currentIndex = []
  outside : LevelWiring.externals s' s.taskRing.currentIndex = 0 ∧
    LevelWiring.owed s' s.taskRing.currentIndex = 0
  walked : walked s' = walked s
  owns : submitOwns s.submitter = none → owns s' = owns s
  phase : phase s' = phase s

theorem Allocates.grown (ha : Allocates s req s') (hl : Laid s)
    (hle : s'.taskRing.currentIndex ≤ s'.taskRing.windowSize) : Grown s s' := by
  have hslot : ∀ v, s'.taskRing.slot v = s.taskRing.slot v := fun v => by
    rw [LinquTaskRing.slot, LinquTaskRing.slot, ha.window]
  have hget := fun u (hu : Known s u) => (Allocates.get_known ha hl hle hu).2
  have hnew : s'.get s.taskRing.currentIndex =
      { taskId := s.taskRing.currentIndex, kernelSo := req.name } := by
    rw [ha.get, if_pos rfl]
  have hclears : ∀ u, Clears s' u ↔ Clears s u := fun u => by
    rw [Clears, Clears, ha.schedCount, ha.schedulers]
  constructor
  case known => exact Allocates.known_iff ha hl
  case get => exact hget
  case faninList =>
    intro u hu
    rw [LevelRuntime.faninList, LevelRuntime.faninList, ha.depPool, hget u hu]
  case fanoutList =>
    intro u hu
    rw [LevelRuntime.fanoutList, LevelRuntime.fanoutList, ha.depPool, hget u hu]
  case externals =>
    intro u hu
    have hne := (Allocates.get_known ha hl hle hu).1
    constructor
    · rw [LevelWiring.externals, LevelWiring.externals, hslot, ha.externalInputs,
        Function.update_of_ne hne]
    · rw [owed, owed, hslot, ha.externalReady, Function.update_of_ne hne]
      exact if_congr (hclears u) rfl rfl
  case status => rw [hnew]
  case spare => rw [hnew]
  case refcount => rw [hnew]
  case released => rw [hnew]
  case producers =>
    rw [LevelRuntime.faninList, hnew]
    exact LinquDepListPool.tasks_none _
  case consumers =>
    rw [LevelRuntime.fanoutList, hnew]
    exact LinquDepListPool.tasks_none _
  case outside =>
    constructor
    · rw [LevelWiring.externals, hslot, ha.externalInputs, Function.update_self]
      rfl
    · rw [owed, hslot, ha.externalReady, Function.update_self]
      exact ite_self 0
  case walked =>
    funext p
    rw [LevelWiring.walked, LevelWiring.walked, ha.walks]
  case owns =>
    intro hnone
    funext th
    cases th with
    | submitter =>
      rw [LevelWiring.owns, LevelWiring.owns, ha.submitter, hnone]
      rfl
    | scheduler k => rw [LevelWiring.owns, LevelWiring.owns, ha.schedulers]
    | worker i => rw [LevelWiring.owns, LevelWiring.owns, ha.workers]
  case phase =>
    funext th
    cases th with
    | worker i => rw [LevelWiring.phase, LevelWiring.phase, ha.workers]
    | _ => rfl

theorem Graph.alloc (h : Graph s) (hg : Grown s s') (hl : Laid s)
    (hold : ∀ c, unexposed s.submitter c = []) (hnew : ∀ c, unexposed s'.submitter c = []) :
    Graph s' := by
  have hfresh : ∀ p c, Known s p → c ∈ s.fanoutList p → c ≠ s.taskRing.currentIndex := by
    rintro p c - hc rfl
    have := hl.fanout p _ hc
    omega
  have hfresh' : ∀ c p, Known s c → p ∈ s.faninList c → p ≠ s.taskRing.currentIndex := by
    rintro c p - hp rfl
    have := hl.fanin c _ hp
    omega
  refine ⟨fun p c hp hc => ?_,fun p hp => ?_⟩
  · rw [hnew]
    rcases (hg.known p).mp hp with hp | rfl <;> rcases (hg.known c).mp hc with hc | rfl
    · rw [hg.fanoutList p hp, hg.faninList c hc, ← hold c]
      exact h.edges p c hp hc
    · rw [hg.fanoutList p hp, hg.producers,
        List.count_eq_zero_of_not_mem fun hc => hfresh p _ hp hc rfl]
      rfl
    · rw [hg.consumers, hg.faninList c hc,
        List.count_eq_zero_of_not_mem fun hp => hfresh' c _ hc hp rfl]
      rfl
    · rw [hg.consumers, hg.producers]
      rfl
  · rcases (hg.known p).mp hp with hp | rfl
    · rw [hg.get p hp, hg.fanoutList p hp]
      exact h.spare p hp
    · rw [hg.spare, hg.consumers]
      rfl

theorem Counts.alloc (h : Counts exact [] [] s) (hg : Grown s s') (hl : Laid s)
    (ha : Allocates s req s') {spins : ℕ} {req' : Request}
    (hpc : s.submitter = .waiting req' spins) : Counts exact [] [] s' := by
  have hprep : ∀ c, preparing s.submitter ≠ some c := by
    rw [hpc]
    exact fun c he => by cases he
  have hold : ∀ c, unexposed s.submitter c = [] := by
    rw [hpc]
    exact fun _ => rfl
  have hun : ∀ c, unexposed s'.submitter c = [] := by
    rw [ha.submitter]
    exact fun _ => ite_self []
  have hknown : ∀ c, Known s' c → preparing s'.submitter ≠ some c → Known s c := by
    intro c hc hp
    refine ((hg.known c).mp hc).resolve_right ?_
    rintro rfl
    rw [ha.submitter] at hp
    exact hp rfl
  constructor
  case lower =>
    intro c hc
    rw [hun, hg.walked]
    rcases (hg.known c).mp hc with hc | rfl
    · have ha := h.lower c hc
      rw [hold c] at ha
      rw [hg.faninList c hc, hg.get c hc, (hg.externals c hc).1, (hg.externals c hc).2]
      exact ha
    · rw [hg.producers, hg.outside.1]
      exact Nat.zero_le _
  case upper =>
    intro he c hc
    rw [hun, hg.walked]
    rcases (hg.known c).mp hc with hc | rfl
    · have ha := h.upper he c hc
      rw [hold c] at ha
      rw [hg.faninList c hc, hg.get c hc, (hg.externals c hc).1, (hg.externals c hc).2]
      exact ha
    · rw [hg.refcount, hg.outside.2]
      exact Nat.zero_le _
  case required =>
    intro c hc hp
    have hk := hknown c hc hp
    rw [hg.get c hk, hg.faninList c hk, (hg.externals c hk).1]
    exact h.required c hk (hprep c)
  case submitting =>
    rw [ha.submitter]
    refine ⟨?_,fun p => ?_⟩
    · rw [hg.outside.1]
      rfl
    · rw [hg.producers]
  case scheduling =>
    intro k i count hk
    rw [ha.schedulers] at hk
    have hi := Laid.raised_known hl hk
    rw [hg.get i hi, ha.submitter]
    refine ⟨(h.scheduling k i count hk).1,fun he => ?_⟩
    cases he
    exact absurd hi.2 (lt_irrefl _)
  case watched =>
    intro c hc hp hst
    have hk := hknown c hc hp
    rw [hg.get c hk] at hst ⊢
    rcases h.watched c hk (hprep c) hst with (hw | hw) | hw
    · rw [hpc] at hw
      cases hw
    · refine Or.inl (Or.inr ?_)
      rw [ha.schedulers, hg.get c hk]
      exact hw
    · exact Or.inr hw

theorem Owned.alloc (h : Owned exact [] s) (hg : Grown s s') (ha : Allocates s req s')
    {spins : ℕ} {req' : Request} (hpc : s.submitter = .waiting req' spins) :
    Owned exact [] s' := by
  have howns := hg.owns (by rw [hpc]; rfl)
  have hentered : entered s' = entered s := by
    rw [entered, entered, ha.enqueues]
  have hlift : ∀ u, Known s u → Known s' u := fun u hu => (hg.known u).mpr (Or.inl hu)
  have hstarted : ∀ c, Known s' c → (s'.get c).status ≠ .pending →
      Known s c ∧ (s.get c).status ≠ .pending := by
    intro c hc hst
    have hk := ((hg.known c).mp hc).resolve_right (by rintro rfl; exact hst hg.status)
    rw [hg.get c hk] at hst
    exact ⟨hk,hst⟩
  constructor
  case walked =>
    intro p hp
    rw [ha.walks] at hp
    obtain ⟨hk,hd⟩ := h.walked p hp
    rw [hg.get p hk]
    exact ⟨hlift p hk,hd⟩
  case started =>
    intro c hc hst
    obtain ⟨hk,hst⟩ := hstarted c hc hst
    obtain ⟨-,hw⟩ := h.started c hk hst
    rw [ha.submitter, ha.walks, hg.faninList c hk]
    refine ⟨fun he => ?_,fun he => ⟨ite_self [],(hw he).2⟩⟩
    cases he
    exact absurd hk.2 (lt_irrefl _)
  case kept =>
    intro he c hc hst
    obtain ⟨hk,-⟩ := hstarted c hc (by rw [hst]; decide)
    rw [hg.get c hk] at hst
    exact h.kept he c hk hst
  case exclusive =>
    rw [howns, ha.readyQueue]
    exact h.exclusive
  case queued =>
    intro t ht
    rw [ha.readyQueue] at ht
    obtain ⟨hk,hst⟩ := h.queued t ht
    rw [hg.get t hk]
    exact ⟨hlift t hk,hst⟩
  case phases =>
    intro th t ht
    rw [howns] at ht
    obtain ⟨hk,hst⟩ := h.phases th t ht
    rw [hg.get t hk, hg.phase, ha.walks]
    exact ⟨hlift t hk,hst⟩
  case targets =>
    intro i t target more hi
    rw [ha.workers] at hi
    obtain ⟨hk,hst⟩ := h.targets i t target more hi
    rw [hg.get target hk]
    exact ⟨hlift target hk,hst⟩
  case once =>
    rw [hentered]
    exact h.once
  case unentered =>
    intro t ht
    rw [hentered] at ht
    obtain ⟨hk,hst⟩ := h.unentered t ht
    rw [hg.get t hk]
    exact ⟨hlift t hk,hst⟩
  case entering =>
    rw [howns, hentered]
    exact h.entering
  case claimed =>
    intro t ht
    cases ht
  case complete =>
    intro c hc hst
    obtain ⟨hk,hst⟩ := hstarted c hc hst
    rw [howns, hentered]
    exact h.complete c hk hst
  case head_le =>
    rw [ha.readyQueue]
    exact h.head_le
  case room =>
    rw [ha.window, ha.readyQueue]
    exact h.room

theorem Ledger.alloc (h : Ledger exact [] s) (hg : Grown s s') (hl : Laid s)
    (ha : Allocates s req s') : Ledger exact [] s' := by
  have hreleases : releases s' = releases s := by
    funext p
    rw [releases, releases, ha.workerCount, ha.workers]
  refine ⟨fun he p hp => ?_,fun i hi => ?_,fun he i => ?_⟩
  · rw [hreleases, hg.walked]
    rcases (hg.known p).mp hp with hp | rfl
    · rw [hg.get p hp, hg.fanoutList p hp]
      exact h.bound he p hp
    · have hzero : releases s s.taskRing.currentIndex = 0 := by
        refine Finset.sum_eq_zero fun i _ => List.count_eq_zero_of_not_mem fun hmem => ?_
        have := WorkerIn.rest (hl.workers i) _ hmem
        omega
      rw [hg.released, hzero]
      exact Nat.zero_le _
  · rw [ha.workers]
    rw [ha.workerCount] at hi
    exact h.idle i hi
  · rw [ha.workers]
    exact h.retains he i

theorem Wired.alloc (h : Wired exact {} s) (ha : Allocates s req s') {spins : ℕ} {req' : Request}
    (hpc : s.submitter = .waiting req' spins)
    (hle : s'.taskRing.currentIndex ≤ s'.taskRing.windowSize) : Wired exact {} s' := by
  have hg := Allocates.grown ha h.laid hle
  refine ⟨h.laid.alloc ha,hle,fun he => ha.alive.trans (h.alive he),
    Graph.alloc h.graph hg h.laid (by rw [hpc]; exact fun _ => rfl)
      (by rw [ha.submitter]; exact fun _ => ite_self []),
    Counts.alloc h.counts hg h.laid ha hpc,Owned.alloc h.owned hg ha hpc,
    Ledger.alloc h.ledger hg h.laid ha,?_⟩
  rw [ha.enqueues]
  exact h.history

end Alloc

section Moves

variable {tid : ℤ} {fanin : ℕ} {outputs : List LinquTensor} {ps : List ℤ}

/-- Retirement touches no descriptor, and retires nothing if nothing is consumed. -/
theorem Wired.advance (h : Wired exact d s) : Wired exact d s.tryAdvanceRingPointers := by
  have hlaid := h.laid.advance
  have halive : exact → s.consumedUpTo s.taskRing.activeCount.toNat s.taskRing.lastTaskAlive = 0 := by
    intro he
    have h0 := h.alive he
    have hstop : s.consumedUpTo s.taskRing.activeCount.toNat 0 ≤ 0 := by
      by_cases hpos : 0 < s.taskRing.currentIndex
      · exact consumedUpTo_le s (h.owned.kept he 0 ⟨le_rfl,hpos⟩) _ le_rfl
      · have hz : s.taskRing.activeCount.toNat = 0 := by
          rw [LinquTaskRing.activeCount, h0]
          omega
        rw [hz]
        exact le_rfl
    rw [h0]
    exact le_antisymm hstop (consumedUpTo_ge s _ 0)
  obtain ⟨tm,heap,-,heq⟩ := tryAdvance_spec s
  rw [heq] at hlaid ⊢
  exact ⟨hlaid,h.placed,halive,{ h.graph with },{ h.counts with },{ h.owned with },
    { h.ledger with },h.history⟩

theorem Wired.buffers (h : Wired exact {} s)
    (hpc : s.submitter = .scanning tid outputs [] fanin ps)
    (hb : s.allocBuffers outputs = some s') :
    Wired exact {} (s'.setSubmitter (.registering tid outputs fanin ps)) := by
  have hin := (laid_submit h.laid (.buffers hpc hb)).submitter
  have hsub := h.counts.submitting
  obtain ⟨heap,rfl⟩ := allocBuffers_spec hb
  rw [hpc] at hsub
  have hheap : Wired exact {} { s with heapRing := heap } :=
    ⟨{ h.laid with },h.placed,h.alive,{ h.graph with },{ h.counts with },{ h.owned with },
      { h.ledger with },h.history⟩
  refine Wired.proceed hheap rfl hin ?_ ?_ hsub (fun c hc => ?_) ?_ rfl
  · change _ = unexposed s.submitter
    rw [hpc]
    rfl
  · change _ = preparing s.submitter
    rw [hpc]
    rfl
  · change inspecting s.submitter = _ at hc
    rw [hpc] at hc
    cases hc
  · change submitOwns s.submitter = _
    rw [hpc]
    rfl

theorem Wired.register (h : Wired exact {} s)
    (hpc : s.submitter = .registering tid outputs fanin ps)
    (hr : s.registerTask tid outputs = some s') :
    Wired exact {} (s'.setSubmitter (.storingFanin tid fanin ps)) := by
  have hin := (laid_submit h.laid (.register hpc hr)).submitter
  have hlaid := h.laid.register hpc hr
  have hsub := h.counts.submitting
  obtain ⟨tm,scopes,top,-,rfl⟩ := registerTask_spec hr
  rw [hpc] at hsub
  have hfields : Graph { s with tensorMap := tm, scopeStack := scopes } ∧
      Counts exact [] [] { s with tensorMap := tm, scopeStack := scopes } ∧
      Owned exact [] { s with tensorMap := tm, scopeStack := scopes } ∧
      Ledger exact [] { s with tensorMap := tm, scopeStack := scopes } :=
    ⟨{ h.graph with },{ h.counts with },{ h.owned with },{ h.ledger with }⟩
  have htop : Wired exact {} ({ s with tensorMap := tm, scopeStack := scopes }.modify tid
      (fun d => { d with heapEnd := top })) :=
    ⟨hlaid,h.placed,h.alive,hfields.1.modify fun _ => ⟨rfl,rfl,rfl⟩,
      hfields.2.1.modify (fun _ => ⟨rfl,rfl,rfl⟩) (fun _ hp => hp),
      hfields.2.2.1.modify fun _ => ⟨rfl,rfl⟩,hfields.2.2.2.modify fun _ => ⟨rfl,rfl⟩,h.history⟩
  refine Wired.proceed htop rfl hin ?_ ?_ ?_ (fun c hc => ?_) ?_ rfl
  · change _ = unexposed s.submitter
    rw [hpc]
    rfl
  · change _ = preparing s.submitter
    rw [hpc]
    rfl
  · exact Prepared.modify (s := { s with tensorMap := tm, scopeStack := scopes }) hsub
      (fun _ => by rfl)
  · change inspecting s.submitter = _ at hc
    rw [hpc] at hc
    cases hc
  · change submitOwns s.submitter = _
    rw [hpc]
    rfl

/-- The task is ready to be exposed. Its status is still the one of a new task. -/
theorem Wired.prepared (h : Wired exact {} s)
    (hpc : s.submitter = .storingStatus tid fanin ps) :
    Wired exact {} (s.setSubmitter (.exposing tid fanin ps)) ∧
      (s.get tid).status = .pending := by
  have hin := h.laid.submitter
  have hsub := h.counts.submitting
  rw [hpc] at hin hsub
  obtain ⟨hprep,hneed⟩ := hsub
  have htid : Known s tid := Newest.known hin.1
  have hst : (s.get tid).status = .pending := by
    by_contra hne
    have := (h.owned.started tid htid hne).1
    rw [hpc] at this
    exact this rfl
  have hlen : ps.length = (s.faninList tid).length :=
    (List.perm_iff_count.mpr hprep.2).length_eq
  have hbusy : ∀ c, preparing s.submitter = some c ∨ inspecting s.submitter = some c → c = tid := by
    rw [hpc]
    rintro c (hc | hc)
    · exact (Option.some.inj hc).symm
    · cases hc
  refine ⟨Wired.setSubmitter h hin (by rw [hpc]; rfl) (fun c hc => by cases hc)
    (fun c hc _ => ?_) hneed (fun c hc _ _ => ?_) (h.owned.exclusive.drop .submitter)
    (fun u hu => by cases hu) (fun u hu => by cases hu) (fun c hc => ?_),hst⟩
  · rw [hbusy c (Or.inl hc)]
    have := hprep.1
    omega
  · rw [hbusy c hc]
    exact Or.inl rfl
  · rw [hpc] at hc
    rcases hc with hc | hc <;> cases hc

theorem Wired.storeReady (h : Wired exact {} s) (hpc : s.submitter = .storingStatus tid 0 ps) :
    Wired exact {} ((s.setStatus tid .ready).setSubmitter (.enqueuing tid)) := by
  obtain ⟨hw,hst⟩ := Wired.prepared h hpc
  have hin := h.laid.submitter
  have hsub := h.counts.submitting
  rw [hpc] at hin hsub
  obtain ⟨hprep,hneed⟩ := hsub
  have htid : Known s tid := Newest.known hin.1
  have hps : ps = [] := by
    have := hprep.1
    exact List.length_eq_zero_iff.mp (by omega)
  subst hps
  have hfi : s.faninList tid = [] :=
    List.eq_nil_iff_forall_not_mem.mpr fun p hp => by
      have := hprep.2 p
      have := List.count_pos_iff.mpr hp
      rw [List.count_nil] at *
      omega
  have hc := hw.claim rfl htid (fun he => by cases he) (fun _ => ⟨if_pos rfl,?_⟩) hst
  · refine Wired.take hc rfl hin.1 ?_ ?_ (fun c hc => ?_) rfl
    · funext c
      exact ite_self []
    · exact hc.counts.required tid htid (fun he => by cases he)
    · rcases hc with hc | hc
      · cases hc
      · exact (Option.some.inj hc).symm
  · change ∀ p ∈ s.faninList tid, p ∈ s.walks
    rw [hfi]
    exact fun p hp => by cases hp

theorem setStatus_self {v : Status} (h : (s.get t).status = v) : s.setStatus t v = s := by
  have hring : s.taskRing.modify t (fun d => { d with status := v }) = s.taskRing := by
    rw [LinquTaskRing.modify]
    subst h
    exact congrArg (fun ds => { s.taskRing with descriptors := ds })
      (Function.update_eq_self (s.taskRing.slot t) s.taskRing.descriptors)
  exact congrArg (fun ring => { s with taskRing := ring }) hring

/-- The producer the submitter is about to expose its task to. -/
def exposed : SubmitPc → Option ℤ
  | .exposing _ _ (p::_) => some p
  | _ => none

/-- Every step of the submitter keeps the account. It is exact as long as the
submitter does not look at a producer that is done but not walked. -/
theorem wired_submit (h : Wired exact {} s) (hm : Move s .submit s')
    (hrace : exact → ∀ p ∈ exposed s.submitter, (s.get p).status.isDone = true → p ∈ s.walks)
    (hle : ¬exact → s'.taskRing.currentIndex ≤ s'.taskRing.windowSize) : Wired exact {} s' := by
  have hin := (laid_submit h.laid hm).submitter
  have hsub := h.counts.submitting
  cases hm with
  | alloc hpc ha =>
    have ha := allocTask_spec ha
    refine Wired.alloc h ha hpc ?_
    by_cases he : exact
    · have hspace := (LinquTaskRing.hasSpace_iff _).mp ha.space
      have h0 := h.alive he
      rw [ha.current, ha.window]
      omega
    · exact hle he
  | advance hpc => exact Wired.advance h
  | spin hpc =>
    have hsame : s.tryAdvanceRingPointers.submitter = s.submitter := by
      obtain ⟨tm,heap,-,heq⟩ := tryAdvance_spec s
      rw [heq]
    refine Wired.proceed (Wired.advance h) rfl hin ?_ ?_ trivial (fun c hc => ?_) ?_ rfl
    · rw [hsame, hpc]
      rfl
    · rw [hsame, hpc]
      rfl
    · rw [hsame, hpc] at hc
      cases hc
    · rw [hsame, hpc]
      rfl
  | link hpc hlook hl => exact Wired.link h hpc hlook hl
  | push hpc hvalid hlook hready => exact Wired.push h hpc hvalid hlook hready
  | skip hpc =>
    rw [hpc] at hsub
    refine Wired.proceed h rfl hin (by rw [hpc]; rfl) (by rw [hpc]; rfl) hsub (fun c hc => ?_)
      (by rw [hpc]; rfl) rfl
    rw [hpc] at hc
    cases hc
  | buffers hpc hb => exact Wired.buffers h hpc hb
  | register hpc hr => exact Wired.register h hpc hr
  | storeFanin hpc =>
    rename_i tid fanin ps
    have htid : Known s tid := by
      have := h.laid.submitter
      rw [hpc] at this
      exact Newest.known this.1
    have hw := Wired.storeFanin h hpc htid
    have hsub' := hw.counts.submitting
    change Submitting (s.storeFanin tid fanin) s.submitter at hsub'
    rw [hpc] at hsub'
    refine Wired.proceed hw rfl hin ?_ ?_ ⟨hsub',?_⟩ (fun c hc => ?_) ?_ rfl
    · change _ = unexposed s.submitter
      rw [hpc]
      rfl
    · change _ = preparing s.submitter
      rw [hpc]
      rfl
    · rw [LevelRuntime.storeFanin, LevelLayout.get_modify, if_pos rfl]
    · change inspecting s.submitter = _ at hc
      rw [hpc] at hc
      cases hc
    · change submitOwns s.submitter = _
      rw [hpc]
      rfl
  | storeReady hpc => exact Wired.storeReady h hpc
  | storePending hpc hne =>
    obtain ⟨hw,hst⟩ := Wired.prepared h hpc
    rw [setStatus_self hst]
    exact hw
  | expose hpc ha =>
    refine Wired.expose h hpc ha fun he hd => hrace he _ ?_ hd
    rw [hpc]
    rfl
  | satisfied hpc hle' =>
    rw [hpc] at hsub
    refine Wired.proceed h rfl hin ?_ (by rw [hpc]; rfl) (hsub.trans_le hle') (fun c hc _ => ?_)
      (by rw [hpc]; rfl) rfl
    · rw [hpc]
      funext c
      exact (ite_self []).symm
    · rw [hpc] at hc
      exact Or.inl hc
  | unsatisfied hpc hlt =>
    rw [hpc] at hsub
    refine Wired.proceed h rfl trivial ?_ (by rw [hpc]; rfl) trivial (fun c hc _ => ?_)
      (by rw [hpc]; rfl) rfl
    · rw [hpc]
      funext c
      exact (ite_self []).symm
    · rw [hpc] at hc
      cases hc
      exact Or.inr (hlt.trans_eq hsub.symm)
  | claim hpc hst =>
    have hnew := h.laid.submitter
    rw [hpc] at hsub hnew
    have htid := Newest.known hnew
    have hprep : ∀ c, preparing s.submitter ≠ some c := by
      rw [hpc]
      exact fun c he => by cases he
    have hc := h.claim rfl htid (hprep _) (fun he => h.satisfied he htid (hprep _) hsub) hst
    refine Wired.take hc rfl hnew ?_ (hc.counts.required _ htid (hprep _)) (fun c hc => ?_) ?_
    · change unexposed s.submitter = _
      rw [hpc]
      rfl
    · change preparing s.submitter = _ ∨ inspecting s.submitter = _ at hc
      rw [hpc] at hc
      rcases hc with hc | hc
      · cases hc
      · exact (Option.some.inj hc).symm
    · change submitOwns s.submitter = _
      rw [hpc]
      rfl
  | lost hpc hst =>
    refine Wired.proceed h rfl trivial (by rw [hpc]; rfl) (by rw [hpc]; rfl) trivial
      (fun c hc hp => ?_) (by rw [hpc]; rfl) rfl
    rw [hpc] at hc
    cases hc
    exact absurd hp hst
  | enqueue hpc => exact (Wired.leave h rfl hpc).enqueueReady rfl

end Moves

end Linqu.LevelSubmission
