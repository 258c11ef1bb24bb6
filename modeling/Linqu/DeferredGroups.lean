import Linqu.Submissions
import Linqu.Tables

/-!
# Group submissions kept for later

What a caller passes to `submit_task_group` are pointers into its own memory.
A group that waits for producers is copied into a `PendingGroupSpec` and
dispatched from there when the memory may read otherwise. Each kind of object
has its own addresses here, an address without an object being a dangling one.
-/

set_option autoImplicit false

namespace Linqu.DeferredGroups
open Linqu.OrchestrationApi Linqu.Orchestrator Linqu.Submissions Linqu.Tables

/-- The C struct. The array of private parameters is at a place of type `α`,
`none` is the null pointer. -/
structure SubTaskSpec (α : Type) where
  target : LinquCoordinate
  kernelSo : Option ℕ
  privateParams : Option α
  numPrivateParams : ℤ

structure Memory where
  text : ℕ → Option String
  param : ℕ → Option LinquParam
  subTask : ℕ → Option (SubTaskSpec ℕ)

/-- An array is the caller's, or the data of a vector in the kept spec. -/
inductive ParamArray where
  | caller (a : ℕ)
  | stored (i : ℕ)
  deriving DecidableEq, Repr

structure GroupCall where
  kernelSo : Option ℕ
  groupParams : ℕ
  numGroupParams : ℕ
  subTasks : ℕ
  numSubTasks : ℕ

structure PendingGroupSpec where
  kernelSo : String
  groupParams : List LinquParam
  subTasks : List (SubTaskSpec ParamArray)
  privateParamsStorage : List (List LinquParam)

def elems {β : Type} (read : ℕ → Option β) : ℕ → ℕ → Option (List β)
  | _, 0 => some []
  | a, n+1 => (read a).bind fun x => (elems read (a+1) n).map (x::·)

/-- The string behind a pointer that may be null. -/
def string (m : Memory) : Option ℕ → Option (Option String)
  | none => some none
  | some a => (m.text a).map some

def SubTaskSpec.inPlace (sub : SubTaskSpec ℕ) : SubTaskSpec ParamArray :=
  { sub with privateParams := sub.privateParams.map .caller }

/-- The loop over the private parameters. -/
def privateParams (m : Memory) (storage : List (List LinquParam))
    (sub : SubTaskSpec ParamArray) : Option (List LinquParam) :=
  if sub.numPrivateParams ≤ 0 then some []
  else
    match sub.privateParams with
    | none => none
    | some (.caller a) => elems m.param a sub.numPrivateParams.toNat
    | some (.stored i) =>
      storage[i]?.bind fun ps => elems (fun j => ps[j]?) 0 sub.numPrivateParams.toNat

/-- One turn of the loop of `dispatch_group_sub_tasks`. No vector reserves a
negative size. -/
def dispatchSubTask (m : Memory) (storage : List (List LinquParam)) (kernelSo : Option String)
    (groupParams : List LinquParam) (sub : SubTaskSpec ParamArray) : Option Work :=
  (if sub.kernelSo.isSome then string m sub.kernelSo else some kernelSo).bind fun k =>
    if groupParams.length+sub.numPrivateParams < 0 then none
    else (privateParams m storage sub).map fun ps => ⟨sub.target,k.getD "",groupParams++ps⟩

/-- The memory may change from one sub-task to the next. -/
def dispatchGroupSubTasks (during : ℕ → Memory) (storage : List (List LinquParam))
    (kernelSo : Option String) (groupParams : List LinquParam) :
    ℕ → List (SubTaskSpec ParamArray) → Option (List Work)
  | _, [] => some []
  | i, sub::rest =>
    (dispatchSubTask (during i) storage kernelSo groupParams sub).bind fun w =>
      (dispatchGroupSubTasks during storage kernelSo groupParams (i+1) rest).map (w::·)

/-- What is dispatched when nothing has to be waited for. The kernel's name is
read in any case, for the descriptor. -/
def dispatchNow (m : Memory) (call : GroupCall) : Option (List Work) :=
  (string m call.kernelSo).bind fun kernelSo =>
    (elems m.param call.groupParams call.numGroupParams).bind fun groupParams =>
      (elems m.subTask call.subTasks call.numSubTasks).bind fun subTasks =>
        dispatchGroupSubTasks (fun _ => m) [] kernelSo groupParams 0
          (subTasks.map SubTaskSpec.inPlace)

/-- One turn of the loop that fills a spec: the struct is copied as it is, and
parameters that are there go to a vector that the copy then points to. -/
def keepSubTask (m : Memory) (i : ℕ) (sub : SubTaskSpec ℕ) :
    Option (SubTaskSpec ParamArray × List LinquParam) :=
  match sub.privateParams with
  | some a =>
    if 0 < sub.numPrivateParams then
      (elems m.param a sub.numPrivateParams.toNat).map fun ps =>
        ({ sub.inPlace with privateParams := some (.stored i) },ps)
    else some (sub.inPlace,[])
  | none => some (sub.inPlace,[])

def keepSubTasks (m : Memory) : ℕ → List (SubTaskSpec ℕ) →
    Option (List (SubTaskSpec ParamArray) × List (List LinquParam))
  | _, [] => some ([],[])
  | i, sub::rest =>
    (keepSubTask m i sub).bind fun k =>
      (keepSubTasks m (i+1) rest).map fun ks => (k.1::ks.1,k.2::ks.2)

/-- The deferred branch of `submit_task_group`. -/
def keep (m : Memory) (call : GroupCall) : Option PendingGroupSpec :=
  (string m call.kernelSo).bind fun kernelSo =>
    (elems m.param call.groupParams call.numGroupParams).bind fun groupParams =>
      (elems m.subTask call.subTasks call.numSubTasks).bind fun subTasks =>
        (keepSubTasks m 0 subTasks).map fun ks =>
          ⟨kernelSo.getD "",groupParams,ks.1,ks.2⟩

def fixupSubTask (storage : List (List LinquParam)) (i : ℕ) (sub : SubTaskSpec ParamArray) :
    SubTaskSpec ParamArray :=
  if storage[i]?.any (fun ps => !ps.isEmpty) then
    { sub with privateParams := some (.stored i) }
  else sub

/-- The loop of `check_consumers_ready` over the kept sub-tasks. -/
def fixup (storage : List (List LinquParam)) : ℕ → List (SubTaskSpec ParamArray) →
    List (SubTaskSpec ParamArray)
  | _, [] => []
  | i, sub::rest => fixupSubTask storage i sub::fixup storage (i+1) rest

def dispatchKept (during : ℕ → Memory) (spec : PendingGroupSpec) : Option (List Work) :=
  dispatchGroupSubTasks during spec.privateParamsStorage (some spec.kernelSo) spec.groupParams 0
    (fixup spec.privateParamsStorage 0 spec.subTasks)

structure State where
  memory : Memory
  pendingGroupSpecs : List (ℤ × PendingGroupSpec) := []

inductive Op where
  | write (m : Memory)
  | submit (tid : ℤ) (call : GroupCall)
  | ready (tid : ℤ) (during : ℕ → Memory)

def Op.tid : Op → Option ℤ
  | .write _ => none
  | .submit tid _ => some tid
  | .ready tid _ => some tid

/-- What the dispatcher is passed when a group's producers are done. -/
def ready (s : State) (tid : ℤ) (during : ℕ → Memory) : Option (List Work) :=
  (s.pendingGroupSpecs.lookup tid).bind (dispatchKept during)

def exec (s : State) : Op → Option State
  | .write m => some { s with memory := m }
  | .submit tid call =>
    (keep s.memory call).map fun spec =>
      { s with pendingGroupSpecs := mapSet s.pendingGroupSpecs tid spec }
  | .ready tid during =>
    match s.pendingGroupSpecs.lookup tid with
    | none => some s
    | some spec => (dispatchKept during spec).map fun _ =>
        { s with pendingGroupSpecs := mapErase s.pendingGroupSpecs tid }

theorem elems_append {β : Type} (pre l : List β) :
    elems (fun j => (pre++l)[j]?) pre.length l.length = some l := by
  induction l generalizing pre with
  | nil => simp [elems]
  | cons x l ih =>
    have hrest := ih (pre++[x])
    simp only [List.append_assoc, List.singleton_append, List.length_append,
      List.length_singleton] at hrest
    simp [elems, hrest]

theorem elems_spec {β : Type} {read : ℕ → Option β} {a n : ℕ} {l : List β}
    (h : elems read a n = some l) : l.length = n ∧ ∀ i < n, l[i]? = read (a+i) := by
  induction n generalizing a l with
  | zero => simp_all [elems]
  | succ n ih =>
    simp only [elems, Option.bind_eq_some_iff, Option.map_eq_some_iff] at h
    obtain ⟨x,hx,rest,hrest,rfl⟩ := h
    obtain ⟨hlen,hget⟩ := ih hrest
    refine ⟨by simp [hlen],fun i hi => ?_⟩
    by_cases h0 : i = 0
    · simp [h0, hx]
    · obtain ⟨i,rfl⟩ := Nat.exists_eq_succ_of_ne_zero h0
      simpa [Nat.add_assoc, Nat.add_comm 1] using hget i (by omega)

section Kept
variable {m : Memory} {storage : List (List LinquParam)} {kernelSo : Option String}
  {groupParams : List LinquParam} {i : ℕ}

/-- What a copy takes over unchanged. -/
structure Alike {α β : Type} (sub : SubTaskSpec α) (copy : SubTaskSpec β) : Prop where
  target : copy.target = sub.target
  kernelSo : copy.kernelSo = sub.kernelSo
  count : copy.numPrivateParams = sub.numPrivateParams

theorem fixup_alike (storage : List (List LinquParam)) (i : ℕ) (sub : SubTaskSpec ParamArray) :
    Alike sub (fixupSubTask storage i sub) := by
  unfold fixupSubTask
  split <;> exact ⟨rfl,rfl,rfl⟩

theorem kept_alike {sub : SubTaskSpec ℕ} {k : SubTaskSpec ParamArray × List LinquParam}
    (h : keepSubTask m i sub = some k) : Alike sub k.1 := by
  unfold keepSubTask at h
  split at h
  · split at h
    · obtain ⟨ps,-,rfl⟩ := Option.map_eq_some_iff.mp h
      exact ⟨rfl,rfl,rfl⟩
    · cases h
      exact ⟨rfl,rfl,rfl⟩
  · cases h
    exact ⟨rfl,rfl,rfl⟩

/-- Once it is pointed to its vector, a kept copy has the parameters that the
caller's array had. -/
theorem privateParams_kept {sub : SubTaskSpec ℕ} {k : SubTaskSpec ParamArray × List LinquParam}
    {ps : List LinquParam} (later : Memory) (hk : keepSubTask m i sub = some k)
    (hs : storage[i]? = some k.2) (hps : privateParams m [] sub.inPlace = some ps) :
    privateParams later storage (fixupSubTask storage i k.1) = some ps := by
  have hcount : (fixupSubTask storage i k.1).numPrivateParams = sub.numPrivateParams :=
    (fixup_alike storage i k.1).count.trans (kept_alike hk).count
  by_cases hn : sub.numPrivateParams ≤ 0
  · simp [privateParams, SubTaskSpec.inPlace, hn] at hps
    simp [privateParams, hcount, hn, hps]
  · cases ha : sub.privateParams with
    | none => simp [privateParams, SubTaskSpec.inPlace, hn, ha] at hps
    | some a =>
      simp only [privateParams, SubTaskSpec.inPlace, hn, ha, if_false, Option.map_some] at hps
      simp only [keepSubTask, ha, if_pos (not_le.mp hn), hps, Option.map_some,
        Option.some.injEq] at hk
      subst hk
      have hlen := (elems_spec hps).1
      have hne : ps ≠ [] := List.ne_nil_of_length_pos (by omega)
      have hall := elems_append [] ps
      simp only [List.nil_append, List.length_nil, hlen] at hall
      simp [privateParams, fixupSubTask, SubTaskSpec.inPlace, hs, hne, hn, hall]

theorem keepSubTask_isSome {sub : SubTaskSpec ℕ} {ps : List LinquParam}
    (hps : privateParams m [] sub.inPlace = some ps) :
    ∃ k, keepSubTask m i sub = some k := by
  cases ha : sub.privateParams with
  | none => simp [keepSubTask, ha]
  | some a =>
    by_cases hn : sub.numPrivateParams ≤ 0
    · simp [keepSubTask, ha, not_lt.mpr hn]
    · simp only [privateParams, SubTaskSpec.inPlace, hn, ha, if_false, Option.map_some] at hps
      simp [keepSubTask, ha, not_le.mp hn, hps]

theorem dispatchSubTask_some {sub : SubTaskSpec ParamArray} {w : Work}
    (h : dispatchSubTask m storage kernelSo groupParams sub = some w) :
    ∃ name ps, (if sub.kernelSo.isSome then string m sub.kernelSo else some kernelSo) = some name ∧
      ¬groupParams.length+sub.numPrivateParams < 0 ∧
      privateParams m storage sub = some ps ∧ w = ⟨sub.target,name.getD "",groupParams++ps⟩ := by
  obtain ⟨name,hname,h⟩ := Option.bind_eq_some_iff.mp h
  by_cases hneg : groupParams.length+sub.numPrivateParams < 0
  · simp [hneg] at h
  · rw [if_neg hneg] at h
    obtain ⟨ps,hps,rfl⟩ := Option.map_eq_some_iff.mp h
    exact ⟨name,ps,hname,hneg,hps,rfl⟩

/-- The kernel of a kept sub-task is read again when it is dispatched. -/
theorem dispatchSubTask_kept {sub : SubTaskSpec ℕ}
    {k : SubTaskSpec ParamArray × List LinquParam} {w : Work} (later : Memory)
    (hk : keepSubTask m i sub = some k) (hs : storage[i]? = some k.2)
    (hw : dispatchSubTask m [] kernelSo groupParams sub.inPlace = some w) :
    dispatchSubTask later storage (some (kernelSo.getD "")) groupParams
        (fixupSubTask storage i k.1) = some w ↔
      ∀ a, sub.kernelSo = some a → later.text a = m.text a := by
  have hf := fixup_alike storage i k.1
  have hc := kept_alike hk
  obtain ⟨name,ps,hname,hpos,hps,rfl⟩ := dispatchSubTask_some hw
  unfold dispatchSubTask
  rw [hf.kernelSo.trans hc.kernelSo, hf.count.trans hc.count, hf.target.trans hc.target]
  simp only [SubTaskSpec.inPlace] at hname hpos ⊢
  simp only [if_neg hpos, privateParams_kept later hk hs hps]
  cases hkernel : sub.kernelSo with
  | none =>
    simp only [hkernel, Option.isSome_none, Bool.false_eq_true, if_false,
      Option.some.injEq] at hname
    simp [hname]
  | some a =>
    simp only [hkernel, Option.isSome_some, if_true, string, Option.map_eq_some_iff] at hname
    obtain ⟨t,ht,rfl⟩ := hname
    cases hl : later.text a with
    | none => simp [string, hl, ht]
    | some u => simp [string, hl, ht]

/-- The loop from sub-task `i` on, with the vectors of the earlier ones in
front of the others. -/
theorem dispatch_kept (during : ℕ → Memory) (subs : List (SubTaskSpec ℕ))
    (pre : List (List LinquParam)) {ws : List Work}
    (hw : dispatchGroupSubTasks (fun _ => m) [] kernelSo groupParams pre.length
      (subs.map SubTaskSpec.inPlace) = some ws) :
    ∃ ks, keepSubTasks m pre.length subs = some ks ∧
      (dispatchGroupSubTasks during (pre++ks.2) (some (kernelSo.getD "")) groupParams pre.length
          (fixup (pre++ks.2) pre.length ks.1) = some ws ↔
        ∀ j sub a, subs[j]? = some sub → sub.kernelSo = some a →
          (during (pre.length+j)).text a = m.text a) := by
  induction subs generalizing pre ws with
  | nil =>
    simp only [List.map_nil, dispatchGroupSubTasks, Option.some.injEq] at hw
    exact ⟨_,rfl,by simp [fixup, dispatchGroupSubTasks, hw]⟩
  | cons sub subs ih =>
    obtain ⟨w,hone,hw⟩ := Option.bind_eq_some_iff.mp hw
    obtain ⟨rest,hrest,rfl⟩ := Option.map_eq_some_iff.mp hw
    obtain ⟨_,_,_,_,hps,_⟩ := dispatchSubTask_some hone
    obtain ⟨k,hk⟩ := keepSubTask_isSome (i := pre.length) hps
    have hlen : (pre++[k.2]).length = pre.length+1 := by simp
    obtain ⟨ks,hks,hiff⟩ := ih (pre++[k.2]) (by rw [hlen]; exact hrest)
    rw [hlen] at hks hiff
    refine ⟨(k.1::ks.1,k.2::ks.2),by simp [keepSubTasks, hk, hks],?_⟩
    have hfirst : dispatchSubTask (during pre.length) (pre++k.2::ks.2) (some (kernelSo.getD ""))
        groupParams (fixupSubTask (pre++k.2::ks.2) pre.length k.1) = some w ↔
          ∀ a, sub.kernelSo = some a → (during pre.length).text a = m.text a :=
      dispatchSubTask_kept _ hk (by simp) hone
    simp only [List.append_assoc, List.singleton_append] at hiff
    have hcons : dispatchGroupSubTasks during (pre++k.2::ks.2) (some (kernelSo.getD ""))
        groupParams pre.length (fixup (pre++k.2::ks.2) pre.length (k.1::ks.1)) =
          some (w::rest) ↔ dispatchSubTask (during pre.length) (pre++k.2::ks.2)
            (some (kernelSo.getD "")) groupParams
            (fixupSubTask (pre++k.2::ks.2) pre.length k.1) = some w ∧
          dispatchGroupSubTasks during (pre++k.2::ks.2) (some (kernelSo.getD "")) groupParams
            (pre.length+1) (fixup (pre++k.2::ks.2) (pre.length+1) ks.1) = some rest := by
      simp [fixup, dispatchGroupSubTasks, Option.bind_eq_some_iff]
    rw [hcons, hfirst, hiff]
    constructor
    · intro ⟨h0,hrest⟩ j other a hj ha
      cases j with
      | zero =>
        cases hj
        exact h0 a ha
      | succ j =>
        have := hrest j other a hj ha
        rwa [Nat.add_assoc, Nat.add_comm 1] at this
    · intro h
      refine ⟨fun a ha => h 0 sub a rfl ha,fun j other a hj ha => ?_⟩
      rw [Nat.add_assoc, Nat.add_comm 1]
      exact h (j+1) other a hj ha

end Kept

/-- What the pointers of a submission lead to. -/
def readSubTask (m : Memory) (sub : SubTaskSpec ℕ) : Option LinquSubTaskSpec :=
  (string m sub.kernelSo).bind fun kernelSo =>
    (privateParams m [] sub.inPlace).map fun ps => ⟨sub.target,kernelSo,ps⟩

def readGroup (m : Memory) (call : GroupCall) : Option Submission :=
  (string m call.kernelSo).bind fun kernelSo =>
    (elems m.param call.groupParams call.numGroupParams).bind fun groupParams =>
      (elems m.subTask call.subTasks call.numSubTasks).bind fun subTasks =>
        (subTasks.mapM (readSubTask m)).map (.group kernelSo groupParams)

theorem dispatchSubTask_reads {m : Memory} {kernelSo : Option String}
    {groupParams : List LinquParam} {sub : SubTaskSpec ℕ} {w : Work}
    (h : dispatchSubTask m [] kernelSo groupParams sub.inPlace = some w) :
    ∃ spec, readSubTask m sub = some spec ∧ w = subWork kernelSo groupParams spec := by
  obtain ⟨name,ps,hname,-,hps,rfl⟩ := dispatchSubTask_some h
  simp only [SubTaskSpec.inPlace] at hname
  cases hk : sub.kernelSo with
  | none =>
    simp only [hk, Option.isSome_none, Bool.false_eq_true, if_false, Option.some.injEq] at hname
    exact ⟨⟨sub.target,none,ps⟩,by simp [readSubTask, string, hk, hps],by simp [subWork, hname,
      SubTaskSpec.inPlace]⟩
  | some a =>
    simp only [hk, Option.isSome_some, if_true, string, Option.map_eq_some_iff] at hname
    obtain ⟨t,ht,rfl⟩ := hname
    exact ⟨⟨sub.target,some t,ps⟩,by simp [readSubTask, string, hk, ht, hps],by simp [subWork,
      SubTaskSpec.inPlace]⟩

/-- Dispatched at once, a group gives the works of the submission its pointers
lead to. -/
theorem dispatchNow_works {m : Memory} {call : GroupCall} {ws : List Work}
    (h : dispatchNow m call = some ws) : ∃ sub, readGroup m call = some sub ∧ ws = sub.works := by
  have hloop : ∀ kernelSo groupParams (subs : List (SubTaskSpec ℕ)) i ws,
      dispatchGroupSubTasks (fun _ => m) [] kernelSo groupParams i
        (subs.map SubTaskSpec.inPlace) = some ws →
      ∃ specs, subs.mapM (readSubTask m) = some specs ∧
        ws = specs.map (subWork kernelSo groupParams) := by
    intro kernelSo groupParams subs
    induction subs with
    | nil =>
      intro i ws hw
      exact ⟨[],rfl,by simpa [dispatchGroupSubTasks] using hw.symm⟩
    | cons sub subs ih =>
      intro i ws hw
      obtain ⟨w,hone,hw⟩ := Option.bind_eq_some_iff.mp hw
      obtain ⟨rest,hrest,rfl⟩ := Option.map_eq_some_iff.mp hw
      obtain ⟨spec,hspec,rfl⟩ := dispatchSubTask_reads hone
      obtain ⟨specs,hspecs,rfl⟩ := ih _ _ hrest
      exact ⟨spec::specs,by simp [List.mapM_cons, hspec, hspecs],by simp⟩
  unfold dispatchNow at h
  obtain ⟨kernelSo,hk,h⟩ := Option.bind_eq_some_iff.mp h
  obtain ⟨groupParams,hg,h⟩ := Option.bind_eq_some_iff.mp h
  obtain ⟨subs,hs,h⟩ := Option.bind_eq_some_iff.mp h
  obtain ⟨specs,hspecs,rfl⟩ := hloop _ _ _ _ _ h
  exact ⟨.group kernelSo groupParams specs,by simp [readGroup, hk, hg, hs, hspecs],rfl⟩

/-- A kept spec, against the dispatch at the moment of the submission. -/
theorem dispatchKept_iff {m : Memory} {call : GroupCall} (during : ℕ → Memory)
    (h : (dispatchNow m call).isSome) :
    ∃ spec, keep m call = some spec ∧ (dispatchKept during spec = dispatchNow m call ↔
      ∀ i < call.numSubTasks, ∀ sub a, m.subTask (call.subTasks+i) = some sub →
        sub.kernelSo = some a → (during i).text a = m.text a) := by
  obtain ⟨ws,hws⟩ := Option.isSome_iff_exists.mp h
  rw [hws]
  unfold dispatchNow at hws
  obtain ⟨kernelSo,hk,hws⟩ := Option.bind_eq_some_iff.mp hws
  obtain ⟨groupParams,hg,hws⟩ := Option.bind_eq_some_iff.mp hws
  obtain ⟨subs,hs,hws⟩ := Option.bind_eq_some_iff.mp hws
  obtain ⟨ks,hks,hiff⟩ := dispatch_kept during subs [] hws
  obtain ⟨hlen,hget⟩ := elems_spec hs
  simp only [List.length_nil, List.nil_append, Nat.zero_add] at hks hiff
  refine ⟨⟨kernelSo.getD "",groupParams,ks.1,ks.2⟩,by simp [keep, hk, hg, hs, hks],?_⟩
  rw [dispatchKept, hiff]
  constructor
  · intro hall i hi sub a hsub ha
    exact hall i sub a (by rw [hget i hi, hsub]) ha
  · intro hall i sub a hsub ha
    have hi : i < call.numSubTasks := by
      rw [← hlen]
      exact (List.getElem?_eq_some_iff.mp hsub).1
    exact hall i hi sub a (by rw [← hget i hi, hsub]) ha

theorem exec_lookup {s t : State} {op : Op} {tid : ℤ} (h : exec s op = some t)
    (hop : op.tid ≠ some tid) :
    t.pendingGroupSpecs.lookup tid = s.pendingGroupSpecs.lookup tid := by
  cases op with
  | write m =>
    cases h
    rfl
  | submit other call =>
    obtain ⟨spec,-,rfl⟩ := Option.map_eq_some_iff.mp h
    have hne : tid ≠ other := fun he => hop (by simp [Op.tid, he])
    exact lookup_mapSet hne
  | ready other during =>
    have hne : tid ≠ other := fun he => hop (by simp [Op.tid, he])
    unfold exec at h
    dsimp only at h
    split at h
    · cases h
      rfl
    · obtain ⟨ws,-,rfl⟩ := Option.map_eq_some_iff.mp h
      exact lookup_mapErase hne

theorem run_lookup {s t : State} {ops : List Op} {tid : ℤ} (h : ops.foldlM exec s = some t)
    (hops : ∀ op ∈ ops, op.tid ≠ some tid) :
    t.pendingGroupSpecs.lookup tid = s.pendingGroupSpecs.lookup tid := by
  induction ops generalizing s with
  | nil =>
    cases h
    rfl
  | cons op ops ih =>
    simp only [List.foldlM_cons, Option.bind_eq_bind, Option.bind_eq_some_iff] at h
    obtain ⟨u,hu,h⟩ := h
    rw [ih h fun other ho => hops other (by simp [ho]), exec_lookup hu (hops op (by simp))]

/-- A group that waited is dispatched as it would have been on submission if
and only if the string behind the own kernel of each of its sub-tasks reads
then as it did. The parameters and the other fields are copies: whatever the
caller does to them makes no difference. -/
theorem deferred_dispatch_iff (s t : State) (tid : ℤ) (call : GroupCall) (ops : List Op)
    (during : ℕ → Memory) (hvalid : (dispatchNow s.memory call).isSome)
    (hops : ∀ op ∈ ops, op.tid ≠ some tid)
    (hrun : (Op.submit tid call::ops).foldlM exec s = some t) :
    ready t tid during = dispatchNow s.memory call ↔
      ∀ i < call.numSubTasks, ∀ sub a, s.memory.subTask (call.subTasks+i) = some sub →
        sub.kernelSo = some a → (during i).text a = s.memory.text a := by
  obtain ⟨spec,hspec,hiff⟩ := dispatchKept_iff during hvalid
  simp only [List.foldlM_cons, Option.bind_eq_bind, Option.bind_eq_some_iff] at hrun
  obtain ⟨u,hu,hrun⟩ := hrun
  simp only [exec, hspec, Option.map_some, Option.some.injEq] at hu
  have hlookup := run_lookup hrun hops
  rw [← hu] at hlookup
  simp only [lookup_mapSet_self] at hlookup
  rw [← hiff, ready, hlookup]
  rfl

/-- One sub-task with a kernel of its own, in a group that reads a handle. -/
def sampleMemory (own : String) (handle : UInt64) : Memory where
  text a := if a = 1 then some "default.so" else if a = 2 then some own else none
  param a := if a = 0 then some (linquMakeInput handle) else none
  subTask a := if a = 0 then some ⟨{},some 2,none,0⟩ else none

def sampleCall : GroupCall := ⟨some 1,0,1,0,1⟩

/-- The caller uses its parameter for another handle. -/
theorem deferred_dispatch_iff_reused :
    ∃ t, [Op.submit 3 sampleCall,.write (sampleMemory "a.so" 9)].foldlM exec
        ⟨sampleMemory "a.so" 7,[]⟩ = some t ∧
      ready t 3 (fun _ => sampleMemory "a.so" 9) =
        dispatchNow (sampleMemory "a.so" 7) sampleCall := by
  refine ⟨_,rfl,?_⟩
  have h := deferred_dispatch_iff ⟨sampleMemory "a.so" 7,[]⟩ _ 3 sampleCall
    [.write (sampleMemory "a.so" 9)] (fun _ => sampleMemory "a.so" 9) (by decide)
    (by simp [Op.tid]) rfl
  exact h.mpr fun i _ sub a _ _ => rfl

/-- The caller's string buffer holds another name when the group is dispatched. -/
theorem other_kernel_dispatched :
    dispatchNow (sampleMemory "a.so" 7) sampleCall =
        some [⟨{},"a.so",[linquMakeInput 7]⟩] ∧
      (exec ⟨sampleMemory "a.so" 7,[]⟩ (.submit 3 sampleCall)).bind
          (fun t => ready t 3 fun _ => sampleMemory "b.so" 7) =
        some [⟨{},"b.so",[linquMakeInput 7]⟩] := by
  decide

end Linqu.DeferredGroups
