import Linqu.LevelWakeups
import Linqu.Waiting

/-!
# No deadlock within a level

A task that was put into the queue waits there, is with a worker, or has been
walked. Once no thread of the level can do anything but look for work, a task
that was not walked has a producer that was not, or an external input that is
not ready. Producers are older than their consumers, so that behind every
unfinished task there is one that waits for another level.
-/

set_option autoImplicit false

namespace Linqu.LevelProgress
open Linqu.TaskRing Linqu.DepPool Linqu.TensorMapNames Linqu.ReadyQueue Linqu.Ownership
open Linqu.Transition
open Linqu.Level Linqu.Level.LevelRuntime Linqu.LevelMoves Linqu.LevelLayout Linqu.LevelWiring
open Linqu.LevelSubmission Linqu.LevelWorkers Linqu.LevelOrder Linqu.LevelWakeups

/-- Where a task that was put into the queue can be. -/
def Placed (s : LevelRuntime) (c : ℤ) : Prop :=
  c ∈ s.readyQueue.contents ∨ (∃ w, workOwns (s.workers w) = some c) ∨ c ∈ s.walks

def Followed (s : LevelRuntime) : Prop := ∀ c ∈ entered s, Placed s c

variable {exact : Prop} {s s' : LevelRuntime} {a : Act} {t : ℤ} {d : Debts}

section Following

variable {w : ℕ} {pc : WorkerPc}

/-- A step that takes nothing out of the queue, from a worker or from the walks. -/
theorem Followed.mono (h : Followed s) (hent : entered s' = entered s)
    (hqueue : ∀ c ∈ s.readyQueue.contents, Placed s' c)
    (hwork : ∀ v c, workOwns (s.workers v) = some c → Placed s' c)
    (hwalk : ∀ c ∈ s.walks, c ∈ s'.walks) : Followed s' := by
  intro c hc
  rw [hent] at hc
  rcases h c hc with hm | ⟨v,hv⟩ | hm
  · exact hqueue c hm
  · exact hwork v c hv
  · exact Or.inr (Or.inr (hwalk c hm))

theorem Followed.frame (h : Followed s) (hent : entered s' = entered s)
    (hqueue : s'.readyQueue = s.readyQueue) (hwork : s'.workers = s.workers)
    (hwalk : s'.walks = s.walks) : Followed s' := by
  refine h.mono hent (fun c hc => Or.inl (hqueue ▸ hc))
    (fun v c hv => Or.inr (Or.inl ⟨v,?_⟩)) (fun c hc => hwalk ▸ hc)
  rw [hwork]
  exact hv

/-- The worker keeps its task, or the chain of the task has been walked. -/
theorem Followed.setWorker (h : Followed s)
    (hown : ∀ c, workOwns (s.workers w) = some c → workOwns pc = some c ∨ c ∈ s.walks) :
    Followed (s.setWorker w pc) := by
  refine h.mono rfl (fun c hc => Or.inl hc) (fun v c hv => ?_) (fun c hc => hc)
  by_cases hvw : v = w
  · subst hvw
    rcases hown c hv with hc | hc
    · exact Or.inr (Or.inl ⟨v,by rw [workers_self]; exact hc⟩)
    · exact Or.inr (Or.inr hc)
  · refine Or.inr (Or.inl ⟨v,?_⟩)
    rw [workers_setWorker, if_neg hvw]
    exact hv

/-- A worker goes on with its task, or has none. -/
theorem Followed.onward (h : Followed s) {pc' : WorkerPc} (hpc : s.workers w = pc)
    (hown : workOwns pc = none ∨ workOwns pc' = workOwns pc) : Followed (s.setWorker w pc') := by
  refine h.setWorker fun c hc => ?_
  rw [hpc] at hc
  rcases hown with ho | ho
  · rw [ho] at hc
    cases hc
  · exact Or.inl (ho.trans hc)

theorem Followed.enqueueReady (hw : Wired exact d s) (h : Followed s) (ht : Known s t)
    (hq : t ∉ s.readyQueue.contents) : Followed (s.enqueueReady t) := by
  have hcont : (s.enqueueReady t).readyQueue.contents = s.readyQueue.contents++[t] :=
    contents_enqueue hw.owned.head_le (hw.contents_lt ht hq) t
  intro c hc
  rw [Placed, hcont]
  rcases List.mem_cons.mp hc with rfl | hc
  · exact Or.inl (List.mem_append_right _ (List.mem_singleton_self _))
  · rcases h c hc with hm | hm
    · exact Or.inl (List.mem_append_left _ hm)
    · exact Or.inr hm

theorem Followed.notify (hw : Wired exact d s) (h : Followed s) (ht : Known s t) :
    Followed (s.notifyConsumer t) := by
  have hst : ((s.raiseFanin t 1).get t).status = (s.get t).status :=
    proj_modify (·.status) (fun _ => by rfl) s t t
  unfold LevelRuntime.notifyConsumer LevelRuntime.wake
  dsimp only
  split
  · split
    · rename_i hp
      have hfree := hw.owned.free_of_pending (hst.symm.trans hp)
      exact (h.enqueueReady hw ht hfree.2).frame rfl rfl rfl rfl
    · exact h.frame rfl rfl rfl rfl
  · exact h.frame rfl rfl rfl rfl

/-- What every notification keeps holds once the chain has been walked. -/
theorem walkFanout_rule {P : LevelRuntime → Prop} (h : Wired exact {} s) (ht : Known s t)
    (hdone : (s.get t).status.isDone = true) (hnew : t ∉ s.walks)
    (hidle : ∀ th, owns s th ≠ some t) (hrec : P (s.recordWalk t))
    (hstep : ∀ l u c, Wired exact { ntf := c::l, crd := s.faninList t } u → Known u c →
      preparing u.submitter ≠ some c → P u → P (u.notifyConsumer c)) :
    P (s.walkFanout t) := by
  have hall : ∀ c ∈ s.fanoutList t, Known s c ∧ preparing s.submitter ≠ some c := by
    intro c hc
    have hk : Known s c := h.laid.fanout t c hc
    refine ⟨hk,fun hp => ?_⟩
    have hedge := h.graph.edges t c ht hk
    have hsame := h.counts.unexposed_of_preparing hp t
    have hpos := List.count_pos_iff.mpr hc
    omega
  have hfold := foldl_rule (f := LevelRuntime.notifyConsumer)
    (P := fun l u => Wired exact { ntf := l, crd := s.faninList t } u ∧ Notified s u ∧ P u ∧
      ∀ c ∈ l, Known s c ∧ preparing s.submitter ≠ some c)
    (fun c l u ⟨hu,hn,hP,hl⟩ => ?_) (s.fanoutList t) (s := s.recordWalk t)
    ⟨h.recordWalk ht hdone hnew hidle,⟨rfl,rfl,rfl,fun _ => rfl⟩,hrec,hall⟩
  · exact hfold.2.2.1
  · obtain ⟨⟨hc,hp⟩,hl⟩ := List.forall_mem_cons.mp hl
    have hs := notifyConsumer_notified u c
    have hk : Known u c := ⟨hc.1,hn.current ▸ hc.2⟩
    have hp : preparing u.submitter ≠ some c := hn.submitter ▸ hp
    refine ⟨hu.notify rfl rfl rfl hk hp,?_,hstep l u c hu hk hp hP,hl⟩
    exact ⟨hs.current.trans hn.current,hs.submitter.trans hn.submitter,
      hs.workerCount.trans hn.workerCount,fun v => (hs.faninList v).trans (hn.faninList v)⟩

theorem Followed.walk (hw : Wired exact {} s) (h : Followed s) (hpc : s.workers w = .completed t) :
    Followed ((s.walkFanout t).setWorker w pc) := by
  have hown : workOwns (s.workers w) = some t := by rw [hpc]; rfl
  obtain ⟨hdrop,hfree,hk,-,-⟩ := Wired.drop hw hown
  obtain ⟨-,hst,hnew⟩ := hw.owned.phases (.worker w) t hown
  have hphase : phase s (.worker w) = .completed := by rw [phase, hpc]; rfl
  rw [hphase] at hst hnew
  have hdone : (s.get t).status.isDone = true := by
    rcases hst with hst | ⟨-,hst⟩ <;> rw [hst] <;> rfl
  have hrec : Followed ((s.recordWalk t).setWorker w .idle) := by
    refine Followed.setWorker ?_ fun c hc => ?_
    · exact h.mono rfl (fun c hc => Or.inl hc) (fun v c hv => Or.inr (Or.inl ⟨v,hv⟩))
        (fun c hc => List.mem_cons_of_mem t hc)
    · exact Or.inr (List.mem_cons.mpr (Or.inl (Option.some.inj (hc.symm.trans hown))))
  have hwalk := walkFanout_rule hdrop hk hdone (hnew rfl) hfree.1 hrec
    (fun _ _ _ hu hc _ hf => hf.notify hu hc)
  rw [walkFanout_setWorker] at hwalk
  rw [← setWorker_setWorker _ w .idle]
  exact hwalk.onward (workers_self _ w .idle) (Or.inl rfl)

end Following

/-- No thread loses sight of a task that was put into the queue. -/
theorem followed_move (hw : Wired exact {} s) (h : Followed s) (hm : Move s a s') :
    Followed s' := by
  cases hm with
  | alloc hpc ha =>
    have ha := allocTask_spec ha
    exact h.frame (by rw [entered, entered, ha.enqueues]) ha.readyQueue ha.workers ha.walks
  | advance hpc =>
    obtain ⟨tm,heap,-,heq⟩ := tryAdvance_spec s
    rw [heq]
    exact h.frame rfl rfl rfl rfl
  | spin hpc =>
    obtain ⟨tm,heap,-,heq⟩ := tryAdvance_spec s
    rw [heq]
    exact h.frame rfl rfl rfl rfl
  | link hpc hlook hl =>
    obtain ⟨idx,pool,-,rfl⟩ := linkFanin_spec hl
    exact h.frame rfl rfl rfl rfl
  | buffers hpc hb =>
    obtain ⟨heap,rfl⟩ := allocBuffers_spec hb
    exact h.frame rfl rfl rfl rfl
  | register hpc hr =>
    obtain ⟨tm,scopes,top,-,rfl⟩ := registerTask_spec hr
    exact h.frame rfl rfl rfl rfl
  | expose hpc he =>
    obtain ⟨m,hm,he⟩ := Option.bind_eq_some_iff.mp he
    obtain ⟨idx,pool,-,rfl⟩ := linkFanout_spec hm
    cases he
    split
    · exact h.frame rfl rfl rfl rfl
    · exact h.frame rfl rfl rfl rfl
  | @enqueue tid hpc =>
    have hown : owns s .submitter = some tid := by rw [owns, hpc]; rfl
    exact (h.enqueueReady hw (hw.owned.phases _ _ hown).1
      (hw.owned.exclusive.apart _ _ hown)).frame rfl rfl rfl rfl
  | @promoted k i cur hpc =>
    have hown : owns s (.scheduler k) = some i := by rw [owns, hpc]; rfl
    exact (h.enqueueReady hw (hw.owned.phases _ _ hown).1
      (hw.owned.exclusive.apart _ _ hown)).frame rfl rfl rfl rfl
  | @dequeueNone w tid queue hpc hq hneg =>
    have hk := (Wired.pop hw hq).2.1
    exact absurd hk.1 (not_le.mpr hneg)
  | @dequeue w tid queue hpc hq hpos hi =>
    refine h.mono rfl (fun c hc => ?_) (fun v c hv => ?_) (fun c hc => hc)
    · rw [contents_dequeue hq] at hc
      rcases List.mem_cons.mp hc with rfl | hc
      · exact Or.inr (Or.inl ⟨w,by rw [workers_self]; rfl⟩)
      · exact Or.inl hc
    · refine Or.inr (Or.inl ⟨v,?_⟩)
      rw [workers_setWorker, if_neg]
      · exact hv
      · rintro rfl
        rw [hpc] at hv
        cases hv
  | start hpc => exact Followed.onward (h.frame rfl rfl rfl rfl) hpc (Or.inr rfl)
  | ran hpc => exact Followed.onward (h.frame rfl rfl rfl rfl) hpc (Or.inr rfl)
  | complete hpc => exact Followed.onward (h.frame rfl rfl rfl rfl) hpc (Or.inr rfl)
  | walk hpc => exact h.walk hw hpc
  | release hpc => exact Followed.onward (h.frame rfl rfl rfl rfl) hpc (Or.inl rfl)
  | released hpc => exact h.onward hpc (Or.inl rfl)
  | consumable hpc hdone hle => exact h.onward hpc (Or.inl rfl)
  | kept hpc => exact h.onward hpc (Or.inl rfl)
  | consume hpc => exact Followed.onward (h.frame rfl rfl rfl rfl) hpc (Or.inl rfl)
  | retire hpc =>
    obtain ⟨tm,heap,-,heq⟩ := tryAdvance_spec s
    rw [heq]
    exact Followed.onward (h.frame rfl rfl rfl rfl) hpc (Or.inl rfl)
  | retained hpc => exact h.onward hpc (Or.inl rfl)
  | _ => exact h.frame rfl rfl rfl rfl

/-- Producers are older than their consumers, and no retired task is PENDING. -/
structure Aged (s : LevelRuntime) : Prop where
  producers : ∀ c, Known s c → ∀ p ∈ s.faninList c, 0 ≤ p ∧ p < c
  retired : ∀ c, 0 ≤ c → c < s.taskRing.lastTaskAlive → (s.get c).status ≠ .pending

section Ageing

theorem Aged.frame (h : Aged s) (hcur : s'.taskRing.currentIndex = s.taskRing.currentIndex)
    (halive : s'.taskRing.lastTaskAlive = s.taskRing.lastTaskAlive)
    (hlist : ∀ c, s'.faninList c = s.faninList c)
    (hst : ∀ c, (s'.get c).status = .pending → (s.get c).status = .pending) : Aged s' := by
  constructor
  case producers =>
    intro c hc p hp
    rw [hlist] at hp
    exact h.producers c ⟨hc.1,hcur ▸ hc.2⟩ p hp
  case retired =>
    intro c h0 hc hp
    exact h.retired c h0 (halive ▸ hc) (hst c hp)

theorem Aged.modify (h : Aged s) (t : ℤ) {f : LinquTaskDescriptor → LinquTaskDescriptor}
    (hf : ∀ d, (f d).depListHead = d.depListHead)
    (hst : ∀ d, (f d).status = .pending → d.status = .pending) : Aged (s.modify t f) := by
  refine h.frame rfl rfl (faninList_modify hf s t) fun c hp => ?_
  rw [LevelLayout.get_modify] at hp
  split at hp
  · exact hst _ hp
  · exact hp

theorem Aged.setStatus (h : Aged s) (t : ℤ) {v : Status} (hv : v ≠ .pending) :
    Aged (s.setStatus t v) :=
  h.modify t (fun _ => by rfl) (fun _ hp => absurd hp hv)

theorem Aged.raiseFanin (h : Aged s) (t : ℤ) (n : ℕ) : Aged (s.raiseFanin t n) :=
  h.modify t (fun _ => by rfl) (fun _ hp => hp)

theorem Aged.raiseFanout (h : Aged s) (t : ℤ) : Aged (s.raiseFanout t) :=
  h.modify t (fun _ => by rfl) (fun _ hp => hp)

theorem Aged.storeFanin (h : Aged s) (t : ℤ) (n : ℕ) : Aged (s.storeFanin t n) :=
  h.modify t (fun _ => by rfl) (fun _ hp => hp)

theorem Aged.setSubmitter (h : Aged s) (pc : SubmitPc) : Aged (s.setSubmitter pc) :=
  ⟨h.producers,h.retired⟩

theorem Aged.setWorker (h : Aged s) (w : ℕ) (pc : WorkerPc) : Aged (s.setWorker w pc) :=
  ⟨h.producers,h.retired⟩

theorem Aged.setScheduler (h : Aged s) (k : ℕ) (pc : SchedulePc) : Aged (s.setScheduler k pc) :=
  ⟨h.producers,h.retired⟩

theorem consumedUpTo_consumed (s : LevelRuntime) (n : ℕ) {cursor c : ℤ} (hge : cursor ≤ c)
    (hlt : c < s.consumedUpTo n cursor) : (s.get c).status = .consumed := by
  induction n generalizing cursor with
  | zero => exact absurd hlt (not_lt.mpr hge)
  | succ n ih =>
    rw [consumedUpTo] at hlt
    split at hlt
    · rename_i hc
      rcases hge.eq_or_lt with rfl | hgt
      · exact hc.2
      · exact ih hgt hlt
    · exact absurd hlt (not_lt.mpr hge)

theorem Aged.advance (h : Aged s) : Aged s.tryAdvanceRingPointers := by
  obtain ⟨tm,heap,-,heq⟩ := tryAdvance_spec s
  rw [heq]
  refine ⟨h.producers,fun c h0 hc => ?_⟩
  by_cases hlt : c < s.taskRing.lastTaskAlive
  · exact h.retired c h0 hlt
  · have hcons := consumedUpTo_consumed s _ (not_lt.mp hlt) hc
    exact hcons.trans_ne (by decide)

theorem Aged.notify (h : Aged s) (c : ℤ) : Aged (s.notifyConsumer c) := by
  have hr := h.raiseFanin c 1
  unfold LevelRuntime.notifyConsumer LevelRuntime.wake
  dsimp only
  split
  · split
    · exact ⟨(hr.setStatus c (by decide)).producers,(hr.setStatus c (by decide)).retired⟩
    · exact hr
  · exact hr

theorem Aged.walkFanout (h : Aged s) (t : ℤ) : Aged (s.walkFanout t) :=
  foldl_rule (P := fun _ u => Aged u) (fun c _ _ hu => hu.notify c) (s.fanoutList t)
    ⟨h.producers,h.retired⟩

/-- Only the submission of a task extends its fanin chain, by older tasks, and
makes it PENDING. -/
theorem aged_move (hw : Wired exact {} s) (h : Aged s)
    (hle : s'.taskRing.currentIndex ≤ s'.taskRing.windowSize) (hm : Move s a s') :
    Aged s' := by
  have hsub := hw.laid.submitter
  cases hm with
  | alloc hpc ha =>
    have ha := allocTask_spec ha
    have hg := Allocates.grown ha hw.laid hle
    constructor
    case producers =>
      intro c hc p hp
      rcases (hg.known c).mp hc with hk | rfl
      · rw [hg.faninList c hk] at hp
        exact h.producers c hk p hp
      · rw [hg.producers] at hp
        cases hp
    case retired =>
      intro c h0 hc
      rw [ha.alive] at hc
      have hk : Known s c := ⟨h0,hc.trans_le hw.laid.windowed.alive_le⟩
      rw [hg.get c hk]
      exact h.retired c h0 hc
  | advance hpc => exact h.advance
  | spin hpc => exact h.advance.setSubmitter _
  | @link tid producer fanin outputs more input producers m hpc hlook hl =>
    have hlists := hw.laid.linkFanin_lists hl
    obtain ⟨idx,pool,-,heq⟩ := linkFanin_spec hl
    have hring : m.taskRing.currentIndex = s.taskRing.currentIndex ∧
        m.taskRing.lastTaskAlive = s.taskRing.lastTaskAlive := by
      rw [heq]
      exact ⟨rfl,rfl⟩
    have hst : ∀ c, (m.get c).status = (s.get c).status := fun c => by
      rw [heq]
      exact proj_modify (·.status) (fun _ => by rfl) { s with depPool := pool } tid c
    rw [hpc] at hsub
    have hnew := lookup_bounds hsub.2.2 hlook
    refine Aged.setSubmitter (s := m) ⟨fun c hc p hp => ?_,fun c h0 hc => ?_⟩ _
    · have hk : Known s c := ⟨hc.1,hring.1 ▸ hc.2⟩
      rw [(hlists c).1] at hp
      split at hp
      · rename_i he
        rw [Known.slot_eq_iff hw.placed (Newest.known hsub.1) hk] at he
        subst he
        rcases List.mem_cons.mp hp with rfl | hp
        · exact ⟨hnew.1,hnew.2.2⟩
        · exact h.producers c hk p hp
      · exact h.producers c hk p hp
    · rw [hst]
      exact h.retired c h0 (hring.2 ▸ hc)
  | buffers hpc hb =>
    obtain ⟨heap,rfl⟩ := allocBuffers_spec hb
    exact ⟨h.producers,h.retired⟩
  | @register tid fanin outputs producers m hpc hr =>
    obtain ⟨tm,scopes,top,-,rfl⟩ := registerTask_spec hr
    refine Aged.setSubmitter ?_ _
    exact Aged.modify (s := { s with tensorMap := tm, scopeStack := scopes })
      ⟨h.producers,h.retired⟩ tid (fun _ => by rfl) (fun _ hp => hp)
  | storeFanin hpc => exact (h.storeFanin _ _).setSubmitter _
  | storeReady hpc => exact (h.setStatus _ (by decide)).setSubmitter _
  | @storePending tid fanin producers hpc h0 =>
    rw [hpc] at hsub
    have hlast := hw.laid.last (by have := hsub.1.1; have := hsub.1.2; omega)
    refine Aged.setSubmitter ⟨fun c hc p hp => ?_,fun c h0 hc => ?_⟩ _
    · rw [faninList_setStatus] at hp
      exact h.producers c hc p hp
    · -- the task that becomes PENDING is the last one, which is not retired
      have hc : c < s.taskRing.lastTaskAlive := hc
      have hk : Known s c := ⟨h0,hc.trans hlast.1⟩
      have hne : c ≠ tid := by
        have := hsub.1.2
        have := hlast.1
        omega
      rw [LevelRuntime.setStatus, Known.get_modify hw.placed (Newest.known hsub.1) hk,
        if_neg hne]
      exact h.retired c h0 hc
  | claim hpc => exact (h.setStatus _ (by decide)).setSubmitter _
  | expose hpc he =>
    obtain ⟨m,hm,he⟩ := Option.bind_eq_some_iff.mp he
    have hlists := hw.laid.linkFanout_lists hm
    have hmid : Aged m := by
      obtain ⟨idx,pool,-,rfl⟩ := linkFanout_spec hm
      refine h.frame rfl rfl (fun c => (hlists c).2) fun c hp => ?_
      exact (proj_modify (·.status) (fun _ => by rfl) s _ c).symm.trans hp
    cases he
    split
    · exact (hmid.raiseFanin _ 1).setSubmitter _
    · exact hmid.setSubmitter _
  | start hpc => exact (h.setStatus _ (by decide)).setWorker _ _
  | complete hpc => exact (h.setStatus _ (by decide)).setWorker _ _
  | walk hpc => exact (h.walkFanout _).setWorker _ _
  | release hpc => exact (h.raiseFanout _).setWorker _ _
  | consume hpc => exact (h.setStatus _ (by decide)).setWorker _ _
  | retire hpc => exact h.advance.setWorker _ _
  | raise hpc => exact (h.raiseFanin _ _).setScheduler _ _
  | promote hpc => exact (h.setStatus _ (by decide)).setScheduler _ _
  | _ => exact ⟨h.producers,h.retired⟩

end Ageing

section Resting

/-- The schedulers there are none of. -/
def Parked (s : LevelRuntime) : Prop := ∀ k, s.schedCount ≤ k → s.schedulers k = .waiting

/-- Only the schedulers move their program counters. -/
theorem move_schedulers (hm : Move s a s') (hother : ∀ k, a ≠ .schedule k) :
    s'.schedulers = s.schedulers ∧ s'.schedCount = s.schedCount := by
  cases hm with
  | alloc hpc ha =>
    have ha := allocTask_spec ha
    exact ⟨ha.schedulers,ha.schedCount⟩
  | advance hpc =>
    obtain ⟨tm,heap,-,heq⟩ := tryAdvance_spec s
    rw [heq]
    exact ⟨rfl,rfl⟩
  | spin hpc =>
    obtain ⟨tm,heap,-,heq⟩ := tryAdvance_spec s
    rw [heq]
    exact ⟨rfl,rfl⟩
  | link hpc hlook hl =>
    obtain ⟨idx,pool,-,rfl⟩ := linkFanin_spec hl
    exact ⟨rfl,rfl⟩
  | buffers hpc hb =>
    obtain ⟨heap,rfl⟩ := allocBuffers_spec hb
    exact ⟨rfl,rfl⟩
  | register hpc hr =>
    obtain ⟨tm,scopes,top,-,rfl⟩ := registerTask_spec hr
    exact ⟨rfl,rfl⟩
  | expose hpc he =>
    obtain ⟨m,hm,he⟩ := Option.bind_eq_some_iff.mp he
    obtain ⟨idx,pool,-,rfl⟩ := linkFanout_spec hm
    cases he
    split
    · exact ⟨rfl,rfl⟩
    · exact ⟨rfl,rfl⟩
  | @walk w t hpc =>
    obtain ⟨ring,queue,enqueues,heq,-⟩ := walkFanout_frame s t
    rw [heq]
    exact ⟨rfl,rfl⟩
  | retire hpc =>
    obtain ⟨tm,heap,-,heq⟩ := tryAdvance_spec s
    rw [heq]
    exact ⟨rfl,rfl⟩
  | beginPass hpc => exact absurd rfl (hother _)
  | endPass hpc => exact absurd rfl (hother _)
  | raise hpc => exact absurd rfl (hother _)
  | pass hpc => exact absurd rfl (hother _)
  | clear hpc => exact absurd rfl (hother _)
  | promote hpc => exact absurd rfl (hother _)
  | giveUp hpc => exact absurd rfl (hother _)
  | promoted hpc => exact absurd rfl (hother _)
  | _ => exact ⟨rfl,rfl⟩

theorem scheduleStep_others (s : LevelRuntime) {j k : ℕ} (hne : j ≠ k) :
    (s.scheduleStep k).schedulers j = s.schedulers j ∧
      (s.scheduleStep k).schedCount = s.schedCount := by
  have hset : ∀ (u : LevelRuntime) (pc : SchedulePc), (u.setScheduler k pc).schedulers j =
      u.schedulers j := fun u pc => by rw [schedulers_setScheduler, if_neg hne]
  unfold scheduleStep
  split
  · exact ⟨hset s _,rfl⟩
  · split
    · exact ⟨hset s _,rfl⟩
    · split
      · exact ⟨hset (s.raiseFanin _ _) _,rfl⟩
      · exact ⟨hset s _,rfl⟩
  · exact ⟨hset (s.clearReady _) _,rfl⟩
  · split
    · exact ⟨hset (s.setStatus _ _) _,rfl⟩
    · exact ⟨hset s _,rfl⟩
  · exact ⟨hset (s.enqueueReady _) _,rfl⟩

theorem parked_step (h : Parked s) (ht : Steps s a s') : Parked s' := by
  intro j hj
  by_cases hother : ∃ k, a = .schedule k
  · obtain ⟨k,rfl⟩ := hother
    rw [Steps, step] at ht
    split at ht
    · rename_i hk
      cases ht
      have hcount : (s.scheduleStep k).schedCount = s.schedCount :=
        (scheduleStep_others s (Nat.succ_ne_self k)).2
      have hne : j ≠ k := by omega
      rw [(scheduleStep_others s hne).1]
      exact h j (hcount ▸ hj)
    · cases ht
  · have hframe := move_schedulers (step_move ht) (fun k hk => hother ⟨k,hk⟩)
    rw [hframe.1]
    exact h j (hframe.2 ▸ hj)

/-- No thread of the level is busy with a task, and none is in the queue. -/
structure Halted (s : LevelRuntime) : Prop where
  submitter : s.submitter = .idle
  workers : ∀ w < s.workerCount, s.workers w = .idle
  queue : s.readyQueue.contents = []
  schedulers : ∀ k < s.schedCount,
    raised (s.schedulers k) = none ∧ scheduleOwns (s.schedulers k) = none

/-- No thread of the level can do anything but look for work. -/
structure AtRest (s : LevelRuntime) : Prop extends Halted s where
  inputs : ∀ c ∈ Finset.Ico s.taskRing.lastTaskAlive s.taskRing.currentIndex,
    s.externalsReady c = false

theorem Halted.scheduler (h : Halted s) (hp : Parked s) (k : ℕ) :
    raised (s.schedulers k) = none ∧ scheduleOwns (s.schedulers k) = none := by
  by_cases hk : k < s.schedCount
  · exact h.schedulers k hk
  · rw [hp k (by omega)]
    exact ⟨rfl,rfl⟩

/-- A task that has been started in some way was finished. -/
theorem Halted.walked (h : Halted s) (hp : Parked s) (hw : Wired exact {} s) (hf : Followed s)
    {c : ℤ} (hc : Known s c) (hst : (s.get c).status ≠ .pending) : c ∈ s.walks := by
  have hent : c ∈ entered s := by
    rcases hw.owned.complete c hc hst with hm | hm | ⟨th,hth,hm⟩
    · exact hm
    · cases hm
    · cases th with
      | submitter =>
        rw [owns, h.submitter] at hm
        cases hm
      | scheduler k =>
        rw [owns, (h.scheduler hp k).2] at hm
        cases hm
      | worker i => cases hth
  rcases hf c hent with hm | ⟨w,hm⟩ | hm
  · rw [h.queue] at hm
    cases hm
  · by_cases hlt : w < s.workerCount
    · rw [h.workers w hlt] at hm
      cases hm
    · rw [hw.ledger.idle w (by omega)] at hm
      cases hm
  · exact hm

/-- A task that no thread is busy with waits for a producer, or has external
inputs that no scheduler has counted. -/
theorem Halted.waits (h : Halted s) (hp : Parked s) (hw : Wired exact {} s) (hf : Followed s)
    {c : ℤ} (hc : Known s c) (hopen : c ∉ s.walks) :
    (∃ p ∈ s.faninList c, p ∉ s.walks) ∨ s.externalReady (s.taskRing.slot c) ≠ [] := by
  have hst : (s.get c).status = .pending := by
    by_contra hst
    exact hopen (h.walked hp hw hf hc hst)
  have hsched := h.scheduler hp
  by_cases hnil : s.externalReady (s.taskRing.slot c) = []
  · left
    have howed : owed s c = 0 := by
      rw [owed, hnil]
      exact ite_self 0
    have hsub : unexposed s.submitter c = [] ∧ preparing s.submitter ≠ some c ∧
        inspecting s.submitter ≠ some c := by
      rw [h.submitter]
      exact ⟨rfl,fun he => (by cases he),fun he => by cases he⟩
    have hlow := hw.counts.lower c hc
    have hreq := hw.counts.required c hc hsub.2.1
    rw [hsub.1, howed, List.count_nil, List.countP_nil] at hlow
    have hlt : (s.get c).atomicFaninRefcount < (s.get c).faninCount := by
      rcases hw.counts.watched c hc hsub.2.1 hst with (hi | ⟨k,count,hk,-⟩) | hm | hlt
      · exact absurd hi hsub.2.2
      · rw [(hsched k).1] at hk
        cases hk
      · cases hm
      · exact hlt
    by_contra hall
    have hfull : (s.faninList c).countP (LevelWiring.walked s) = (s.faninList c).length := by
      refine List.countP_eq_length.mpr fun p hp => decide_eq_true ?_
      by_contra hnot
      exact hall ⟨p,hp,hnot⟩
    omega
  · exact Or.inr hnil

/-- A task at rest waits for a producer or for an external input. -/
theorem AtRest.waits (h : AtRest s) (hp : Parked s) (hw : Wired exact {} s) (hf : Followed s)
    (hg : Aged s) {c : ℤ} (hc : Known s c) (hopen : c ∉ s.walks) :
    (∃ p ∈ s.faninList c, p ∉ s.walks) ∨
      ∃ x ∈ s.externalReady (s.taskRing.slot c), s.tensorReady x = false := by
  have hst : (s.get c).status = .pending := by
    by_contra hst
    exact hopen (h.walked hp hw hf hc hst)
  have hlive : s.taskRing.lastTaskAlive ≤ c := by
    by_contra hlt
    exact hg.retired c hc.1 (not_le.mp hlt) hst
  rcases h.toHalted.waits hp hw hf hc hopen with hproducer | hnil
  · exact Or.inl hproducer
  · right
    have hready := h.inputs c (Finset.mem_Ico.mpr ⟨hlive,hc.2⟩)
    by_contra hall
    have htrue : ∀ x ∈ s.externalReady (s.taskRing.slot c), s.tensorReady x = true := by
      intro x hx
      by_contra hnot
      exact hall ⟨x,hx,Bool.eq_false_of_not_eq_true hnot⟩
    have hyes : s.externalsReady c = true := by
      simp only [externalsReady, decide_eq_true_eq, List.all_eq_true]
      exact ⟨hst,hnil,htrue⟩
    rw [hready] at hyes
    cases hyes

/-- What a run keeps for its states at rest. -/
def Sound (s : LevelRuntime) : Prop := Wired False {} s ∧ Followed s ∧ Aged s

theorem Initial.sound {cfg : LevelRuntimeConfig} (h : Initial cfg s)
    (hcap : cfg.taskRingWindow ≤ cfg.readyQueueCapacity) : Sound s := by
  refine ⟨Initial.wired h hcap,fun c hc => ?_,fun c hc => ?_,fun c h0 hc => ?_⟩
  · rw [entered, h.enqueues] at hc
    cases hc
  · have h0 := hc.1
    have h1 := hc.2
    rw [h.current] at h1
    omega
  · rw [h.alive] at hc
    omega

theorem sound_run {schedThreads workerThreads : ℤ} {cfg : LevelRuntimeConfig}
    {s₀ : LevelRuntime} {acts : List Act} (hinit : init schedThreads workerThreads cfg = some s₀)
    (hcap : cfg.taskRingWindow ≤ cfg.readyQueueCapacity) (hrun : Run Steps acts s₀ s)
    (hlate : Guarded Steps LateScan acts s₀) :
    Parked s ∧ (s.taskRing.currentIndex ≤ s.taskRing.windowSize → Sound s) := by
  have hspec := init_spec hinit
  refine run_invariant (P := fun u => Parked u ∧
    (u.taskRing.currentIndex ≤ u.taskRing.windowSize → Sound u))
    (fun u a u' ⟨hp,hu⟩ hl ht => ?_) ⟨?_,?_⟩ hlate hrun
  · refine ⟨parked_step hp ht,fun hle => ?_⟩
    have hm := step_move ht
    obtain ⟨hwindow,hcur⟩ := move_current hm
    obtain ⟨hw,hf,hg⟩ := hu (by omega)
    exact ⟨wired_move hw hl (fun he => he.elim) (fun _ => hle) hm,followed_move hw hf hm,
      aged_move hw hg hle hm⟩
  · intro k _
    rw [hspec.schedulers]
  · exact fun _ => Initial.sound hspec hcap

/-- The second task waits for the first, and that for a tensor of another level. -/
def awaiting : List Act := List.flatten [
  [.call ⟨"first",[⟨7,4⟩],[⟨1,4⟩]⟩],List.replicate 7 .submit,
  [.call ⟨"second",[⟨1,4⟩],[]⟩],List.replicate 8 .submit,List.replicate 4 (.schedule 0)]

end Resting

end Linqu.LevelProgress
