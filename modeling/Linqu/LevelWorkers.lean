import Linqu.LevelSubmission

/-!
# What workers and schedulers keep

A worker owns its task from the queue up to the walk of its fanout chain, and
releases the producers afterwards. A scheduler counts the external inputs of a
task and then claims it, unless somebody else has.
-/

set_option autoImplicit false

namespace Linqu.LevelWorkers
open Linqu.TaskRing Linqu.DepPool Linqu.ReadyQueue Linqu.Ownership Linqu.Transition
open Linqu.Level Linqu.Level.LevelRuntime Linqu.LevelMoves Linqu.LevelLayout Linqu.LevelWiring
open Linqu.LevelSubmission

variable {exact : Prop} {s s' : LevelRuntime} {t : ℤ} {crd : List ℤ} {d : Debts}

section Workers

variable {w : ℕ} {pc : WorkerPc}

theorem Ledger.busy (h : Ledger exact crd s) (hw : s.workers w ≠ .idle) : w < s.workerCount := by
  by_contra hle
  exact hw (h.idle w (by omega))

/-- A worker without a task stays without one. -/
theorem Wired.onward (h : Wired exact d s) (hclm : d.clm = []) (hi : w < s.workerCount)
    (hin : WorkerIn s.taskRing.currentIndex pc) (hret : exact → Retains pc)
    (hown : workOwns pc = none)
    (htarget : ∀ t target more, pc = .consuming t target more →
      Known s target ∧ (s.get target).status.isDone = true)
    (hrest : exact → ∀ p,
      (rest pc).count p+crd.count p ≤ (rest (s.workers w)).count p+d.crd.count p) :
    Wired exact { d with crd := crd } (s.setWorker w pc) := by
  refine h.setWorker hclm hi hin hret ?_ (fun t ht => ?_) htarget hrest
  · rw [hown]
    exact h.owned.exclusive.drop (.worker w)
  · rw [hown] at ht
    cases ht

/-- A worker gives up its task, which is in nobody's hands then. -/
theorem Wired.drop (h : Wired exact {} s) (hown : workOwns (s.workers w) = some t) :
    Wired exact {} (s.setWorker w .idle) ∧
      Free (owns (s.setWorker w .idle)) s.readyQueue.contents t ∧ Known s t ∧
      t ∈ entered s ∧ w < s.workerCount := by
  have hi : w < s.workerCount := Ledger.busy h.ledger (fun he => by rw [he] at hown; cases hown)
  have hth : owns s (.worker w) = some t := hown
  obtain ⟨hk,hst,-⟩ := h.owned.phases (.worker w) t hth
  have hnp : (s.get t).status ≠ .pending := by
    rcases hst with hst | ⟨-,hst⟩
    · exact hst.trans_ne (phase_ne_pending s _)
    · rw [hst]
      decide
  refine ⟨Wired.onward h rfl hi trivial (fun _ => trivial) rfl
    (fun _ _ _ he => by cases he) (fun _ p => Nat.zero_le _),?_,hk,?_,hi⟩
  · rw [owns_setWorker]
    exact h.owned.exclusive.free_of_drop hth
  · rcases h.owned.complete t hk hnp with hm | hm | ⟨th,hen,hm⟩
    · exact hm
    · cases hm
    · rw [h.owned.exclusive.single th _ t hm hth] at hen
      cases hen

theorem setWorker_setWorker (s : LevelRuntime) (w : ℕ) (pc pc' : WorkerPc) :
    (s.setWorker w pc).setWorker w pc' = s.setWorker w pc' := by
  rw [LevelRuntime.setWorker, LevelRuntime.setWorker, LevelRuntime.setWorker, Function.update_idem]

theorem workers_self (s : LevelRuntime) (w : ℕ) (pc : WorkerPc) :
    (s.setWorker w pc).workers w = pc := Function.update_self ..

/-- The worker starts its task, or completes it. -/
theorem Wired.nextStatus (h : Wired exact {} s) {v : Status}
    (hown : workOwns (s.workers w) = some t) (hbusy : (workStatus (s.workers w)).isDone = false)
    (hin : WorkerIn s.taskRing.currentIndex pc) (hret : Retains pc) (hown' : workOwns pc = some t)
    (hv : workStatus pc = v) (hnp : v ≠ .pending) (hnc : v ≠ .consumed) (hnil : rest pc = []) :
    Wired exact {} ((s.setStatus t v).setWorker w pc) := by
  obtain ⟨hw,hfree,hk,hent,hi⟩ := Wired.drop h hown
  have hst : (s.get t).status = workStatus (s.workers w) := by
    rcases (h.owned.phases (.worker w) t hown).2.1 with hst | ⟨hc,-⟩
    · exact hst
    · change workStatus (s.workers w) = _ at hc
      rw [hc] at hbusy
      cases hbusy
  have hnot : (s.get t).status.isDone = false := by rw [hst, hbusy]
  have hwalks : t ∉ s.walks := fun hm => by
    rw [(h.owned.walked t hm).2] at hnot
    cases hnot
  have hp := hw.progress rfl hk hnp hnc hfree
    (fun he => phase_ne_pending s (.worker w) (hst.symm.trans he)) hnot hent
  rw [← setWorker_setWorker _ w .idle]
  refine Wired.setWorker hp rfl hi hin (fun _ => hret) ?_ (fun u hu => ?_)
    (fun u target more he => ?_) (fun _ p => ?_)
  · rw [hown']
    exact hp.owned.exclusive.take (.worker w) hfree
  · have hut : u = t := Option.some.inj (hu.symm.trans hown')
    subst hut
    exact ⟨hk,Or.inl ((status_setStatus _ u v).trans hv.symm),fun _ => hwalks⟩
  · rw [he] at hown'
    cases hown'
  · rw [hnil]
    exact Nat.zero_le _

/-- An id comes out of the queue. -/
theorem Wired.pop (h : Wired exact {} s) {queue : Queue}
    (hq : s.readyQueue.dequeueReady = some (t,queue)) :
    Wired exact {} { s with readyQueue := queue } ∧ Known s t ∧ (s.get t).status = .ready ∧
      Free (owns s) queue.contents t := by
  have hcont := contents_dequeue hq
  have hmem : t ∈ s.readyQueue.contents := hcont ▸ List.mem_cons_self
  obtain ⟨hk,hst⟩ := h.owned.queued t hmem
  have hsub : ∀ u ∈ queue.contents, u ∈ s.readyQueue.contents := fun u hu =>
    hcont ▸ List.mem_cons_of_mem t hu
  have hnodup := h.owned.exclusive.nodup
  rw [hcont] at hnodup
  obtain ⟨ht,hnodup⟩ := List.nodup_cons.mp hnodup
  refine ⟨?_,hk,hst,fun th hth => h.owned.exclusive.apart th t hth hmem,ht⟩
  have hspec := dequeueReady_spec hq
  have hlt : s.readyQueue.head < s.readyQueue.tail := by
    by_contra hle
    have hnil : s.readyQueue.contents = [] := by
      rw [Queue.contents, Nat.sub_eq_zero_of_le (by omega)]
      rfl
    rw [hnil] at hmem
    cases hmem
  refine ⟨{ h.laid with queue := ?_ },h.placed,h.alive,{ h.graph with },{ h.counts with },
    { h.owned with
      exclusive := ⟨h.owned.exclusive.single,hnodup,fun th u hu hm =>
        h.owned.exclusive.apart th u hu (hsub u hm)⟩
      queued := fun u hu => h.owned.queued u (hsub u hu)
      claimed := fun u hu => by cases hu
      head_le := ?_
      room := ?_ },{ h.ledger with },h.history⟩
  · rw [hspec.2]
    exact h.laid.queue
  · rw [hspec.2]
    exact hlt
  · rw [hspec.2]
    exact h.owned.room

theorem walkFanout_setWorker (s : LevelRuntime) (t : ℤ) (w : ℕ) (pc : WorkerPc) :
    (s.setWorker w pc).walkFanout t = (s.walkFanout t).setWorker w pc := by
  have hwake : ∀ (u : LevelRuntime) (c : ℤ),
      (u.setWorker w pc).wake c = (u.wake c).setWorker w pc := by
    intro u c
    rw [wake, wake]
    refine Eq.trans ?_ (apply_ite (fun m : LevelRuntime => m.setWorker w pc) _ _ _).symm
    rfl
  have hnotify : ∀ (u : LevelRuntime) (c : ℤ),
      (u.setWorker w pc).notifyConsumer c = (u.notifyConsumer c).setWorker w pc := by
    intro u c
    rw [notifyConsumer, notifyConsumer]
    refine Eq.trans ?_ (apply_ite (fun m : LevelRuntime => m.setWorker w pc) _ _ _).symm
    rw [← hwake]
    rfl
  have hfold : ∀ (l : List ℤ) (u : LevelRuntime), l.foldl notifyConsumer (u.setWorker w pc) =
      (l.foldl notifyConsumer u).setWorker w pc := by
    intro l
    induction l with
    | nil => exact fun _ => rfl
    | cons c l ih =>
      intro u
      rw [List.foldl_cons, List.foldl_cons, hnotify, ih]
  exact hfold (s.fanoutList t) (s.recordWalk t)

/-- The chain of the task is walked; the producers are still to be released. -/
theorem Wired.walk (h : Wired exact {} s) (hpc : s.workers w = .completed t) :
    Wired exact {} ((s.walkFanout t).setWorker w
      (.releasing t ((s.walkFanout t).faninList t))) := by
  have hown : workOwns (s.workers w) = some t := by rw [hpc]; rfl
  obtain ⟨hw,hfree,hk,hent,hi⟩ := Wired.drop h hown
  obtain ⟨-,hst,hnew⟩ := h.owned.phases (.worker w) t hown
  have hphase : phase s (.worker w) = .completed := by rw [phase, hpc]; rfl
  rw [hphase] at hst hnew
  have hdone : (s.get t).status.isDone = true := by
    rcases hst with hst | ⟨-,hst⟩ <;> rw [hst] <;> rfl
  obtain ⟨hwalk,hn⟩ := hw.walkFanout hk hdone (hnew rfl) hfree.1
  rw [walkFanout_setWorker] at hwalk hn
  have hlaid := hwalk.laid.fanin t
  rw [← setWorker_setWorker _ w .idle]
  refine Wired.onward hwalk rfl (hn.workerCount.symm ▸ hi)
    ⟨⟨hk.1,hn.current.symm ▸ hk.2⟩,hlaid⟩ (fun _ => trivial) rfl (fun _ _ _ he => by cases he)
    (fun _ p => ?_)
  rw [workers_self]
  change ((s.walkFanout t).faninList t).count p+0 ≤ 0+(s.faninList t).count p
  have hlist : (s.walkFanout t).faninList t = s.faninList t := hn.faninList t
  rw [hlist, Nat.zero_add, Nat.add_zero]

/-- As long as the account is exact, no task has been released by all its edges. -/
theorem Wired.unreleased (h : Wired exact d s) (he : exact) (ht : Known s t) :
    (s.get t).atomicFanoutRefcount < (s.get t).fanoutCount := by
  have hb := h.ledger.bound he t ht
  have hs := h.graph.spare t ht
  have hlen : (s.fanoutList t).countP (walked s) ≤ (s.fanoutList t).length := List.countP_le_length
  omega

theorem rest_resume (t : ℤ) (more : Option (List ℤ)) : rest (resume t more) = more.getD [] := by
  cases more <;> rfl

theorem retains_resume (t : ℤ) (more : Option (List ℤ)) : Retains (resume t more) := by
  cases more <;> trivial

theorem workOwns_resume (t : ℤ) (more : Option (List ℤ)) : workOwns (resume t more) = none := by
  cases more <;> rfl

theorem Wired.resume (h : Wired exact {} s) {more : Option (List ℤ)}
    (hrest : exact → rest (s.workers w) = more.getD []) (hi : w < s.workerCount)
    (hin : WorkerIn s.taskRing.currentIndex (resume t more)) :
    Wired exact {} (s.setWorker w (resume t more)) := by
  refine Wired.onward h rfl hi hin (fun _ => retains_resume t more)
    (workOwns_resume t more) (fun u target more' he => ?_) (fun he p => ?_)
  · cases more <;> cases he
  · rw [rest_resume, hrest he]

theorem wired_work (h : Wired exact {} s) (hm : Move s (.work w) s') : Wired exact {} s' := by
  have hlaid := laid_work h.laid (apart_of_le h.placed _) hm
  have hin := hlaid.workers w
  have hw := h.laid.workers w
  have hbusy : s.workers w ≠ .idle → w < s.workerCount := Ledger.busy h.ledger
  have hretains : exact → Retains (s.workers w) := fun he => h.ledger.retains he w
  cases hm with
  | dequeueNone hpc hq _ => exact (Wired.pop h hq).1
  | @dequeue _ t queue hpc hq _ hi =>
    obtain ⟨hpop,hk,hst,hfree⟩ := Wired.pop h hq
    refine hpop.setWorker rfl hi ⟨hk.1,hk.2⟩ (fun _ => trivial)
      (hpop.owned.exclusive.take (.worker w) hfree) (fun u hu => ?_) (fun _ _ _ he => by cases he)
      (fun _ p => Nat.zero_le _)
    cases hu
    exact ⟨hk,Or.inl hst,fun he => by cases he⟩
  | start hpc =>
    rw [workers_self] at hin
    refine Wired.nextStatus h (by rw [hpc]; rfl) (by rw [hpc]; rfl) hin trivial rfl rfl
      (by decide) (by decide) rfl
  | @ran _ t hpc =>
    rw [workers_self] at hin
    have hown : owns s (.worker w) = some t := by rw [owns, hpc]; rfl
    have hmark : Wired exact {} (s.markOutputs (s.taskOutputs (s.taskRing.slot t))) :=
      ⟨{ h.laid with },h.placed,h.alive,{ h.graph with },{ h.counts with },{ h.owned with },
        { h.ledger with },h.history⟩
    have hi : w < s.workerCount := hbusy (by rw [hpc]; exact fun he => by cases he)
    refine hmark.setWorker rfl hi hin (fun _ => trivial) ?_ (fun u hu => ?_)
      (fun _ _ _ he => by cases he) (fun _ p => Nat.zero_le _)
    · change Exclusive (Function.update (owns s) _ (some t)) _
      rw [← hown, Function.update_eq_self]
      exact h.owned.exclusive
    · cases hu
      have hphase := h.owned.phases (.worker w) t hown
      rw [phase, hpc] at hphase
      exact hphase
  | complete hpc =>
    rw [workers_self] at hin
    refine Wired.nextStatus h (by rw [hpc]; rfl) (by rw [hpc]; rfl) hin trivial rfl rfl
      (by decide) (by decide) rfl
  | walk hpc => exact Wired.walk h hpc
  | @release _ t p ps hpc =>
    rw [workers_self] at hin
    rw [hpc] at hw
    have hp := List.forall_mem_cons.mp hw.2
    have hset : Wired exact { crd := [p] } (s.setWorker w (.checking t p (some ps))) := by
      refine Wired.onward h rfl (hbusy (by rw [hpc]; exact fun he => by cases he)) hin
        (fun _ => trivial) rfl (fun _ _ _ he => by cases he) (fun _ q => ?_)
      rw [hpc]
      change ps.count q+[p].count q ≤ (p::ps).count q+0
      rw [List.count_cons, List.count_cons, List.count_nil]
      omega
    exact hset.raiseFanout rfl hin.2.1 hp.1.2
  | released hpc =>
    rw [workers_self] at hin
    refine Wired.onward h rfl (hbusy (by rw [hpc]; exact fun he => by cases he)) hin
      (fun _ => trivial) rfl (fun _ _ _ he => by cases he) (fun _ p => Nat.zero_le _)
  | consumable hpc hdone hle =>
    rw [workers_self] at hin
    rw [hpc] at hw
    refine Wired.onward h rfl (hbusy (by rw [hpc]; exact fun he => by cases he)) hin
      (fun he => ?_) rfl (fun u target more he => ?_) (fun _ p => Nat.zero_le _)
    · exact absurd (Wired.unreleased h he hw.2.1) (not_lt.mpr hle)
    · cases he
      exact ⟨hw.2.1,by rw [hdone]; rfl⟩
  | kept hpc =>
    rw [workers_self] at hin
    exact Wired.resume h (fun _ => by rw [hpc]; rfl)
      (hbusy (by rw [hpc]; exact fun he => by cases he)) hin
  | @consume _ t target more hpc =>
    rw [workers_self] at hin
    rw [hpc] at hw
    rw [hpc] at hretains
    have hex : ¬exact := hretains
    obtain ⟨hk,hdone⟩ := h.owned.targets w t target more hpc
    have hapart := apart_of_le h.placed (.work w)
    rw [WritesApart, hpc] at hapart
    have hc := h.consume hex rfl hk (hapart target rfl hw.2.1.1 hw.2.1.2) hdone
    refine Wired.onward hc rfl (hbusy (by rw [hpc]; exact fun he => by cases he)) hin
      (fun he => absurd he hex) rfl (fun _ _ _ he => by cases he) (fun _ p => Nat.zero_le _)
  | retire hpc =>
    rw [workers_self] at hin
    rw [hpc] at hretains
    have hi := hbusy (by rw [hpc]; exact fun he => by cases he)
    have hframe : s.tryAdvanceRingPointers.workerCount = s.workerCount := by
      obtain ⟨tm,heap,-,heq⟩ := tryAdvance_spec s
      rw [heq]
    exact Wired.resume (Wired.advance h) (fun he => absurd he hretains) (hframe.symm ▸ hi) hin
  | retained hpc =>
    rw [workers_self] at hin
    rw [hpc] at hretains
    exact Wired.resume h (fun he => absurd he hretains)
      (hbusy (by rw [hpc]; exact fun he => by cases he)) hin

end Workers

section Schedulers

variable {k : ℕ} {i cur : ℤ} {count : ℕ}

/-- A scheduler that has neither counted nor claimed anything goes on. -/
theorem Wired.scan (h : Wired exact {} s) {pc : SchedulePc}
    (hin : SchedulerIn s.taskRing.currentIndex pc) (hown : scheduleOwns (s.schedulers k) = none)
    (hclear : clearing pc = clearing (s.schedulers k)) (hown' : scheduleOwns pc = none)
    (hraised : raised pc = none)
    (hwatch : ∀ c count, raised (s.schedulers k) = some (c,count) → (s.get c).status = .pending →
      count < (s.get c).faninCount) : Wired exact {} (s.setScheduler k pc) := by
  refine Wired.setScheduler h hin ?_ (fun t ht => ?_)
    (fun t ht => by cases ht) (fun c hc => ?_) (fun c => le_rfl)
    (fun c _ => ?_) (fun _ c _ => ?_) (fun j n hj => ?_) (fun c n hc hle hst => ?_)
  · rw [hown']
    exact h.owned.exclusive.drop (.scheduler k)
  · rw [hown'] at ht
    cases ht
  · rw [hown] at hc
    rcases hc with hc | hc <;> cases hc
  · rw [owed_setScheduler hclear]
  · rw [owed_setScheduler hclear]
  · rw [hraised] at hj
    cases hj
  · have := hwatch c n hc hst
    omega

/-- Everything that was ready is counted now. -/
theorem Wired.raise (h : Wired exact {} s) (hpc : s.schedulers k = .scanning i cur)
    (hlt : i < cur) (hk : k < s.schedCount) (hprep : preparing s.submitter ≠ some i)
    (hclears : exact → ¬Clears s i) {n : ℕ}
    (hn : n = (s.externalReady (s.taskRing.slot i)).length) :
    Wired exact {} ((s.raiseFanin i n).setScheduler k
      (.clearing i cur ((s.raiseFanin i n).get i).atomicFaninRefcount)) := by
  have hin := h.laid.schedulers k
  rw [hpc] at hin
  have hi : Known s i := ⟨hin.1,hlt.trans_le hin.2⟩
  have href : ((s.raiseFanin i n).get i).atomicFaninRefcount = (s.get i).atomicFaninRefcount+n := by
    rw [raiseFanin, LevelLayout.get_modify, if_pos rfl]
  rw [href]
  have hclear : ∀ c, Clears (s.setScheduler k (.clearing i cur ((s.get i).atomicFaninRefcount+n))) c ↔
      c = i ∨ Clears s c := by
    intro c
    constructor
    · rintro ⟨j,hj,hc⟩
      rw [schedulers_setScheduler] at hc
      split at hc
      · exact Or.inl (Option.some.inj hc).symm
      · exact Or.inr ⟨j,hj,hc⟩
    · rintro (rfl | ⟨j,hj,hc⟩)
      · exact ⟨k,hk,by rw [schedulers_setScheduler, if_pos rfl]; rfl⟩
      · refine ⟨j,hj,?_⟩
        rw [schedulers_setScheduler, if_neg]
        · exact hc
        · rintro rfl
          rw [hpc] at hc
          cases hc
  have howed : ∀ c, owed (s.setScheduler k (.clearing i cur ((s.get i).atomicFaninRefcount+n))) c =
      if c = i then 0 else owed s c := by
    intro c
    rw [owed, if_congr (hclear c) rfl rfl]
    by_cases hc : c = i
    · rw [if_pos (Or.inl hc), if_pos hc]
    · rw [if_neg hc, owed]
      exact if_congr (or_iff_right hc) rfl rfl
  have hset : Wired exact { ntf := List.replicate n i }
      (s.setScheduler k (.clearing i cur ((s.get i).atomicFaninRefcount+n))) := by
    refine Wired.setScheduler h ⟨hin.1,hlt,hin.2⟩ (h.owned.exclusive.drop (.scheduler k))
      (fun t ht => by cases ht) (fun t ht => by cases ht) (fun c hc => ?_)
      (fun c => Nat.zero_le _) (fun c hc => ?_) (fun he c hc => ?_) (fun j m hj => ?_)
      (fun c m hc => ?_)
    · rw [hpc] at hc
      rcases hc with hc | hc <;> cases hc
    · rw [howed]
      change 0+owed s c ≤ (List.replicate n i).count c+_
      split
      · rename_i hci
        subst hci
        rw [List.count_replicate_self, hn, owed]
        split <;> omega
      · omega
    · rw [howed]
      change (List.replicate n i).count c+_ ≤ 0+owed s c
      split
      · rename_i hci
        subst hci
        rw [List.count_replicate_self, hn, owed, if_neg (hclears he)]
        omega
      · rename_i hci
        rw [List.count_replicate, if_neg (by simpa using Ne.symm hci)]
    · cases hj
      rw [List.count_replicate_self]
      exact ⟨le_rfl,hprep⟩
    · rw [hpc] at hc
      cases hc
  have hr := hset.raiseFanin (n := n) (List.append_nil _).symm hi
  refine hr.compared rfl fun _ _ _ => ?_
  change _ ∨ ((s.raiseFanin i n).get i).atomicFaninRefcount < ((s.raiseFanin i n).get i).faninCount
  rw [href]
  rcases lt_or_ge ((s.get i).atomicFaninRefcount+n) ((s.raiseFanin i n).get i).faninCount
    with hlt | hge
  · exact Or.inr hlt
  · refine Or.inl (Or.inr ⟨k,_,?_,hge⟩)
    change raised ((s.setScheduler k _).schedulers k) = _
    rw [schedulers_setScheduler, if_pos rfl]
    rfl

/-- What is counted need not be looked at again. -/
theorem Wired.clear (h : Wired exact {} s) (hpc : s.schedulers k = .clearing i cur count)
    (hk : k < s.schedCount) :
    Wired exact {} ((s.clearReady i).setScheduler k (.setting i cur count)) := by
  have hin := h.laid.schedulers k
  rw [hpc] at hin
  have hi : Known s i := ⟨hin.1,hin.2.1.trans_le hin.2.2⟩
  have hc := h.clearReady hi ⟨k,hk,by rw [hpc]; rfl⟩
  have howed : ∀ c, Known s c →
      owed ((s.clearReady i).setScheduler k (.setting i cur count)) c = owed (s.clearReady i) c := by
    intro c hkc
    by_cases hci : c = i
    · subst hci
      have hnil : (s.clearReady c).externalReady (s.taskRing.slot c) = [] :=
        Function.update_self ..
      rw [owed, owed]
      change (if _ then 0 else ((s.clearReady c).externalReady (s.taskRing.slot c)).length) =
        (if _ then 0 else ((s.clearReady c).externalReady (s.taskRing.slot c)).length)
      rw [hnil]
      exact (ite_self 0).trans (ite_self 0).symm
    · refine if_congr ?_ rfl rfl
      constructor
      · rintro ⟨j,hj,hcl⟩
        rw [schedulers_setScheduler] at hcl
        split at hcl
        · cases hcl
        · exact ⟨j,hj,hcl⟩
      · rintro ⟨j,hj,hcl⟩
        refine ⟨j,hj,?_⟩
        rw [schedulers_setScheduler, if_neg]
        · exact hcl
        · rintro rfl
          change clearing (s.schedulers j) = _ at hcl
          rw [hpc] at hcl
          exact hci (Option.some.inj hcl).symm
  refine Wired.setScheduler hc hin
    (h.owned.exclusive.drop (.scheduler k)) (fun t ht => by cases ht) (fun t ht => by cases ht)
    (fun c hc => ?_) (fun c => le_rfl) (fun c hkc => ?_) (fun _ c hkc => ?_)
    (fun j m hj => ?_) (fun c m hc _ _ => ?_)
  · change _ ∨ scheduleOwns (s.schedulers k) = _ at hc
    rw [hpc] at hc
    rcases hc with hc | hc <;> cases hc
  · rw [howed c hkc]
  · rw [howed c hkc]
  · cases hj
    exact h.counts.scheduling k i count (by rw [hpc]; rfl)
  · change raised (s.schedulers k) = _ at hc
    rw [hpc] at hc
    exact hc

theorem Wired.promote (h : Wired exact {} s) (hpc : s.schedulers k = .setting i cur count)
    (hle : (s.get i).faninCount ≤ count) (hst : (s.get i).status = .pending) :
    Wired exact {} ((s.setStatus i .ready).setScheduler k (.enqueuing i cur)) := by
  have hin := h.laid.schedulers k
  rw [hpc] at hin
  have hi : Known s i := ⟨hin.1,hin.2.1.trans_le hin.2.2⟩
  obtain ⟨hcount,hprep⟩ := h.counts.scheduling k i count (by rw [hpc]; rfl)
  have hclaim := h.claim rfl hi hprep (fun he => h.satisfied he hi hprep (hle.trans hcount)) hst
  obtain ⟨-,hready,hent,hfree⟩ := hclaim.owned.claimed i (List.mem_singleton_self i)
  have hclear : clearing (SchedulePc.enqueuing i cur) =
      clearing ((s.setStatus i .ready).schedulers k) := by
    change none = clearing (s.schedulers k)
    rw [hpc]
    rfl
  refine Wired.setScheduler hclaim hin
    (hclaim.owned.exclusive.take (.scheduler k) hfree) (fun t ht => ?_) (fun t ht => by cases ht)
    (fun c hc => ?_) (fun c => le_rfl) (fun c _ => ?_) (fun _ c _ => ?_)
    (fun j m hj => by cases hj) (fun c m hc _ hp => ?_)
  · cases ht
    exact ⟨hi,hready,hent⟩
  · rcases hc with hc | hc
    · exact Or.inr (by rw [List.mem_singleton.mp hc]; rfl)
    · change scheduleOwns (s.schedulers k) = _ at hc
      rw [hpc] at hc
      cases hc
  · rw [owed_setScheduler hclear]
  · rw [owed_setScheduler hclear]
  · change raised (s.schedulers k) = _ at hc
    rw [hpc] at hc
    cases hc
    rw [hready] at hp
    cases hp

theorem Wired.promoted (h : Wired exact {} s) (hpc : s.schedulers k = .enqueuing i cur) :
    Wired exact {} ((s.enqueueReady i).setScheduler k (.scanning (i+1) cur)) := by
  have hin := h.laid.schedulers k
  rw [hpc] at hin
  have hown : owns s (.scheduler k) = some i := by rw [owns, hpc]; rfl
  obtain ⟨hi,hst,-⟩ := h.owned.phases (.scheduler k) i hown
  have hready : (s.get i).status = .ready := by
    rcases hst with hst | ⟨hst,-⟩
    · exact hst
    · cases hst
  have hclear : clearing (SchedulePc.scanning (i+1) cur) = clearing (s.schedulers k) := by
    rw [hpc]
    rfl
  have hleave : Wired exact { clm := [i] } (s.setScheduler k (.scanning (i+1) cur)) := by
    refine Wired.setScheduler h ⟨by have := hin.1; omega,hin.2.2⟩
      (h.owned.exclusive.drop (.scheduler k)) (fun t ht => by cases ht) (fun t ht => ?_)
      (fun c hc => ?_) (fun c => le_rfl) (fun c _ => ?_) (fun _ c _ => ?_)
      (fun j m hj => by cases hj) (fun c m hc => ?_)
    · rw [List.mem_singleton.mp ht]
      exact ⟨hi,hready,h.owned.entering (.scheduler k) i rfl hown,
        h.owned.exclusive.free_of_drop hown⟩
    · rw [hpc] at hc
      rcases hc with hc | hc
      · cases hc
      · cases hc
        exact Or.inl (List.mem_singleton_self i)
    · rw [owed_setScheduler hclear]
    · rw [owed_setScheduler hclear]
    · rw [hpc] at hc
      cases hc
  exact hleave.enqueueReady rfl

theorem wired_schedule (h : Wired exact {} s) (hm : Move s (.schedule k) s')
    (hlate : LateScan s (.schedule k))
    (hrace : exact → ∀ i ∈ counted s (s.schedulers k), ¬Clears s i) : Wired exact {} s' := by
  have hin := (laid_schedule h.laid hm).schedulers k
  cases hm with
  | beginPass hpc =>
    rw [schedulers_setScheduler, if_pos rfl] at hin
    refine Wired.scan h hin (by rw [hpc]; rfl) (by rw [hpc]; rfl) rfl rfl (fun c n hc => ?_)
    rw [hpc] at hc
    cases hc
  | endPass hpc =>
    refine Wired.scan h trivial (by rw [hpc]; rfl) (by rw [hpc]; rfl) rfl rfl (fun c n hc => ?_)
    rw [hpc] at hc
    cases hc
  | raise hpc hlt hext hk =>
    have hc : ∀ j ∈ counted s (s.schedulers k), _ := fun j hj => And.intro (hlate j hj)
      (fun he => hrace he j hj)
    rw [hpc, counted, if_pos ⟨hlt,hext⟩] at hc
    obtain ⟨hprep,hcl⟩ := hc _ rfl
    exact Wired.raise h hpc hlt hk hprep hcl rfl
  | pass hpc =>
    rw [schedulers_setScheduler, if_pos rfl] at hin
    refine Wired.scan h hin (by rw [hpc]; rfl) (by rw [hpc]; rfl) rfl rfl (fun c n hc => ?_)
    rw [hpc] at hc
    cases hc
  | clear hpc hk => exact Wired.clear h hpc hk
  | promote hpc hle hst => exact Wired.promote h hpc hle hst
  | giveUp hpc hlt =>
    rw [schedulers_setScheduler, if_pos rfl] at hin
    refine Wired.scan h hin (by rw [hpc]; rfl) (by rw [hpc]; rfl) rfl rfl (fun c n hc hst => ?_)
    rw [hpc] at hc
    cases hc
    exact hlt hst
  | promoted hpc => exact Wired.promoted h hpc

end Schedulers

end Linqu.LevelWorkers
