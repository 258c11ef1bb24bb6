import Linqu.DependencyLists
import Linqu.TensorMapWriters

/-!
# Edges are last-writer dependencies

The reference looks at the calls only: submissions are numbered, and each
OUTPUT or INOUT parameter makes its submission the last writer of the handle.
While the pool of the tensor map has a fresh slot for every insert, the fanin
list of a new task is read off the reference, and no call adds another edge.
-/

set_option autoImplicit false

namespace Linqu.LastWriters
open Linqu.TaskRing Linqu.DepPool Linqu.TensorMap Linqu.Orchestrator
open Linqu.Orchestrator.LinquOrchestratorState Linqu.OrchestrationApi Linqu.Transition
open Linqu.OrchestratorRule Linqu.OrchestratorShape Linqu.OrchestratorCalls
open Linqu.DependencyLists Linqu.TensorMapWriters

/-! The reference. -/

def write (tid : ℤ) (w : Writers) (p : LinquParam) : Writers :=
  if p.type.writes then Function.update w p.handle (some tid) else w

/-- The last writers that the parameters read, without the retired ones, in
the order of the parameters. -/
def readsFrom (tid alive : ℤ) : Writers → List LinquParam → List ℤ
  | _, [] => []
  | w, p::rest =>
    (if p.type.reads then (w p.handle).filter (fun t => decide (alive ≤ t)) else none).toList++
      readsFrom tid alive (write tid w p) rest

/-- The parameters of a submission and the completions its wait takes. -/
def submission : Op → Option (List LinquParam × List (List ℤ))
  | .submitTask _ _ params arrivals => some (params,arrivals)
  | .submitTaskGroup _ params _ arrivals _ => some (params,arrivals)
  | _ => none

/-- The map of last writers and the number of submissions so far. -/
def recordOp (r : Writers × ℤ) (op : Op) : Writers × ℤ :=
  match submission op with
  | some (params,_) => (params.foldl (write r.2) r.1,r.2+1)
  | none => r

def lastWriters (ops : List Op) : Writers := (ops.foldl recordOp (fun _ => none,0)).1

def writeCount (params : List LinquParam) : ℕ := params.countP (fun p => p.type.writes)

def insertCount (op : Op) : ℕ := (submission op).elim 0 (fun c => writeCount c.1)

/-- The number of tensor-map inserts that the calls make. -/
def inserts (ops : List Op) : ℕ := (ops.map insertCount).sum

/-- What a submission leaves behind: `m` is the state in which it found its
slot. -/
structure Records (w : Writers) (params : List LinquParam) (s m s' : State) : Prop where
  fanin_new : s'.faninList s.taskRing.currentIndex =
    (readsFrom s.taskRing.currentIndex m.taskRing.lastTaskAlive w params).reverse
  fanin_old : ∀ t, m.taskRing.Live t → s'.faninList t = s.faninList t
  fanout_new : s'.fanoutList s.taskRing.currentIndex = List.replicate
    ((s'.faninList s.taskRing.currentIndex).count s.taskRing.currentIndex) s.taskRing.currentIndex
  fanout_old : ∀ t, m.taskRing.Live t → s'.fanoutList t = List.replicate
    ((s'.faninList s.taskRing.currentIndex).count t) s.taskRing.currentIndex++s.fanoutList t

def EdgesRecorded (w : Writers) (s : State) (op : Op) (s' : State) : Prop :=
  match submission op with
  | some (params,arrivals) =>
    ∃ m, s.waitForSpace arrivals = .ok m ∧ Records w params s m s'
  | none => ∀ t, s'.faninList t = s.faninList t ∧ s'.fanoutList t = s.fanoutList t

/-! Everything but the parameter loop leaves the graph and the table alone. -/

structure Keeps (s s' : State) : Prop where
  current : s'.taskRing.currentIndex = s.taskRing.currentIndex
  alive : s.taskRing.lastTaskAlive ≤ s'.taskRing.lastTaskAlive
  table : s'.tensorMap = s.tensorMap.invalidateBelow s'.taskRing.lastTaskAlive
  lists : ∀ t, s'.faninList t = s.faninList t ∧ s'.fanoutList t = s.fanoutList t

theorem Keeps.refl {s : State} (h : Shape s) : Keeps s s :=
  ⟨rfl,le_rfl,by rw [← h.mapAlive]; rfl,fun _ => ⟨rfl,rfl⟩⟩

theorem Keeps.trans {s s' s'' : State} (h : Keeps s s') (h' : Keeps s' s'') : Keeps s s'' := by
  refine ⟨h'.current.trans h.current,h.alive.trans h'.alive,?_,fun t => ?_⟩
  · rw [h'.table, h.table]
    rfl
  · exact ⟨(h'.lists t).1.trans (h.lists t).1,(h'.lists t).2.trans (h.lists t).2⟩

theorem keeps_frame {s s' : State} (h : Shape s) (f : Frame s s') : Keeps s s' :=
  ⟨f.current,f.alive.ge,by rw [f.tensorMap, f.alive, ← h.mapAlive]; rfl,
    fun t => ⟨f.faninList t,f.fanoutList t⟩⟩

theorem keeps_eq {s s' : State} (h : Shape s) (hring : s'.taskRing = s.taskRing)
    (hmap : s'.tensorMap = s.tensorMap) (hpool : s'.depPool = s.depPool) : Keeps s s' := by
  refine ⟨by rw [hring],by rw [hring],by rw [hmap, hring, ← h.mapAlive]; rfl,fun t => ?_⟩
  simp [LinquOrchestratorState.faninList, LinquOrchestratorState.fanoutList,
    LinquOrchestratorState.get, hring, hpool]

theorem keeps_retired {s s' : State} {cursor : ℤ} (r : Retired s s' cursor) : Keeps s s' := by
  have hc : s'.taskRing.lastTaskAlive = cursor := by rw [r.ring]; rfl
  refine ⟨by rw [r.ring]; rfl,by rw [hc]; exact r.le,by rw [r.map, hc],fun t => ?_⟩
  exact ⟨r.faninList t,r.fanoutList t⟩

def Kept (s₀ s : State) : Prop := Shape s ∧ Keeps s₀ s

theorem Kept.frame {s₀ s s' : State} (h : Kept s₀ s) (f : Frame s s') : Kept s₀ s' :=
  ⟨h.1.of_frame f,h.2.trans (keeps_frame h.1 f)⟩

theorem Kept.of_eq {s₀ s s' : State} (h : Kept s₀ s) (hring : s'.taskRing = s.taskRing)
    (hmap : s'.tensorMap = s.tensorMap) (hpool : s'.depPool = s.depPool) : Kept s₀ s' :=
  ⟨h.1.of_eq hring hmap hpool,h.2.trans (keeps_eq h.1 hring hmap hpool)⟩

/-- All calls but the submissions keep graph and table. -/
theorem kept_rule (s₀ : State) :
    TaskCalls (fun _ _ _ _ s => Kept s₀ s) (fun _ _ _ => False) where
  shape _ _ _ _ _ h := h.1
  quiet _ _ _ _ q h := h.of_eq q.taskRing q.tensorMap q.depPool
  release p _ _ _ _ s h := h.frame (frame_releaseProducer s p)
  notify c _ _ _ s h _ := h.frame (frame_notifyConsumer s c)
  skip _ _ _ _ h _ := h
  wake c v _ _ s h _ _ := h.frame (frame_setStatus s c v)
  count g _ _ s h := h.frame (frame_countSubTask s g)
  complete g _ _ s h := h.frame (frame_setStatus s g .completed)
  finish t _ _ s h := h.frame (frame_checkTaskConsumed s t)
  advance _ _ _ r h := ⟨r.shape h.1,h.2.trans (keeps_retired r)⟩
  enter _ _ _ _ _ _ _ _ hc _ _ _ := hc.elim
  scopeBegin s s' h hs := by
    obtain ⟨st,-,hs⟩ := bind_ok.mp hs
    cases hs
    exact h.of_eq rfl rfl rfl
  closeScope s s' h hs := by
    apply closeScope_rule _ _ _ hs
    · intro st n
      exact h.of_eq rfl rfl rfl
    · intro u t hu
      exact hu.frame (frame_raiseFanout u t)
    · intro u t hu
      exact hu.frame (frame_checkTaskConsumed u t)
  scopeRelease s t h := h.frame (frame_checkTaskConsumed s t)

theorem waitForSpace_kept {s m : State} {arrivals : List (List ℤ)} (h : Shape s)
    (hm : s.waitForSpace arrivals = .ok m) : Kept s m :=
  waitForSpace_rule (kept_rule s).callRule ⟨h,Keeps.refl h⟩ hm

theorem exec_kept {s s' : State} {op : Op} (h : Shape s) (hop : submission op = none)
    (hs : Steps s op s') : Kept s s' := by
  apply exec_rule (kept_rule s).callRule ⟨h,Keeps.refl h⟩ _ hs
  cases op <;> trivial

/-! The parameter loop. -/

/-- The table after the inserts of a parameter list. -/
def tableAfter (tid : ℤ) (tm : LinquTensorMap) (params : List LinquParam) :
    Option LinquTensorMap :=
  params.foldlM (fun tm p =>
    if p.type.writes then LinquTensorMap.insert tm p.handle tid true else some tm) tm

theorem linkRead_table {tid : ℤ} {sf sf' : State × ℕ} {p : LinquParam}
    (h : linkRead tid sf p = .ok sf') : sf'.1.tensorMap = sf.1.tensorMap := by
  unfold linkRead at h
  split at h
  · obtain ⟨found,-,h⟩ := bind_ok.mp h
    cases found with
    | none =>
      cases h
      rfl
    | some q =>
      obtain ⟨u,hu,h⟩ := bind_ok.mp h
      cases h
      obtain ⟨_,_,_,-,-,hrest,-,-⟩ := addEdge_spec hu
      rw [hrest]
  · cases h
    rfl

theorem linkParams_table {tid : ℤ} (params : List LinquParam) : ∀ sf sf' : State × ℕ,
    params.foldlM (linkParam tid) sf = .ok sf' →
    tableAfter tid sf.1.tensorMap params = some sf'.1.tensorMap := by
  induction params with
  | nil =>
    intro sf sf' h
    cases h
    rfl
  | cons p rest ih =>
    intro sf sf' h
    rw [List.foldlM_cons] at h
    obtain ⟨v,hv,h⟩ := bind_ok.mp h
    obtain ⟨u,hu,hv⟩ := bind_ok.mp hv
    have hrest := ih v sf' h
    rw [tableAfter, List.foldlM_cons, ← linkRead_table hu]
    unfold linkWrite at hv
    split at hv
    · rename_i hw
      obtain ⟨tm,htm,hv⟩ := bind_ok.mp hv
      have htm := required_ok.mp htm
      cases hv
      rw [if_pos hw, htm]
      exact hrest
    · rename_i hw
      cases hv
      rw [if_neg hw]
      exact hrest

theorem enterTask_table {s s' : State} {k : String} {group : Option ℕ} {params : List LinquParam}
    {tid : ℤ} (he : s.enterTask k group params = .ok (tid,s')) :
    tableAfter tid s.tensorMap params = some s'.tensorMap := by
  obtain ⟨⟨tid',a⟩,ha,he⟩ := bind_ok.mp he
  obtain ⟨⟨u,n⟩,hu,he⟩ := bind_ok.mp he
  obtain ⟨j,hj,he⟩ := bind_ok.mp he
  cases he
  obtain ⟨⟨i,r⟩,-,ha⟩ := bind_ok.mp ha
  cases ha
  have htable := linkParams_table params _ _ hu
  obtain ⟨hjr,-,-,-⟩ := joinScope_spec hj
  have hmap : j.tensorMap = u.tensorMap := by rw [hjr]; rfl
  show _ = some j.tensorMap
  rw [hmap]
  exact htable

/-- With room for the inserts, a table that represents the reference finds
the producers of the reference and represents it again afterwards. -/
theorem params_represented {tid : ℤ} (h0 : 0 ≤ tid) (params : List LinquParam) :
    ∀ (tm : LinquTensorMap) (w : Writers), Represents tm w → (∀ h t, w h = some t → t ≤ tid) →
      tm.nextEntry+writeCount params ≤ tm.poolSize →
      producersOf tid tm params = some (readsFrom tid tm.lastTaskAlive w params) ∧
      ∃ tm', tableAfter tid tm params = some tm' ∧ Represents tm' (params.foldl (write tid) w) ∧
        tm'.nextEntry = tm.nextEntry+writeCount params ∧ tm'.poolSize = tm.poolSize ∧
        tm'.lastTaskAlive = tm.lastTaskAlive ∧
        ∀ h t, params.foldl (write tid) w h = some t → t ≤ tid := by
  induction params with
  | nil =>
    intro tm w hr hw _
    exact ⟨rfl,tm,rfl,hr,rfl,rfl,rfl,hw⟩
  | cons p rest ih =>
    intro tm w hr hw hroom
    have hfound : (if p.type.reads then tm.lookup p.handle else some none) =
        some (if p.type.reads then (w p.handle).filter (fun t => decide (tm.lastTaskAlive ≤ t))
          else none) := by
      rw [hr.lookup]
      split <;> rfl
    rw [producersOf, hfound, Option.bind_some, readsFrom, tableAfter, List.foldlM_cons,
      List.foldl_cons]
    by_cases hp : p.type.writes = true
    · have hcount : writeCount (p::rest) = writeCount rest+1 := List.countP_cons_of_pos hp
      obtain ⟨tm₁,hins,e⟩ := insert_inserted hr (by omega) p.handle tid
      have hr₁ := e.represents hr (by omega) h0 (hw p.handle)
      have hw₁ : ∀ h t, Function.update w p.handle (some tid) h = some t → t ≤ tid := by
        intro h t ht
        by_cases hh : h = p.handle
        · rw [hh, Function.update_self] at ht
          cases ht
          exact le_rfl
        · rw [Function.update_of_ne hh] at ht
          exact hw h t ht
      have hwrite : write tid w p = Function.update w p.handle (some tid) := if_pos hp
      rw [if_pos hp, hins, hwrite]
      obtain ⟨hprod,tm',htab,hr',hn,hs,ha,hb⟩ := ih tm₁ _ hr₁ hw₁
        (by rw [e.nextEntry, e.poolSize]; omega)
      rw [Option.bind_some, hprod, e.alive]
      exact ⟨rfl,tm',htab,hr',by rw [hn, e.nextEntry]; omega,hs.trans e.poolSize,
        ha.trans e.alive,hb⟩
    · have hcount : writeCount (p::rest) = writeCount rest := List.countP_cons_of_neg hp
      have hwrite : write tid w p = w := if_neg hp
      rw [if_neg hp, hwrite, Option.bind_some, hcount]
      obtain ⟨hprod,tm',htab,hr',hn,hs,ha,hb⟩ := ih tm w hr hw (by omega)
      rw [hprod]
      exact ⟨rfl,tm',htab,hr',hn,hs,ha,hb⟩

/-! Runs. -/

/-- The orchestrator state `s` after calls that left the reference at `r` and
made `n` inserts. -/
structure Tracks (cap : ℕ) (r : Writers × ℤ) (n : ℕ) (s : State) : Prop where
  shape : Shape s
  current : s.taskRing.currentIndex = r.2
  table : Represents s.tensorMap r.1
  older : ∀ h t, r.1 h = some t → t < r.2
  entries : s.tensorMap.nextEntry = n
  poolSize : s.tensorMap.poolSize = cap

variable {cap n : ℕ} {r : Writers × ℤ} {s s' : State}

theorem Tracks.keeps (h : Tracks cap r n s) (k : Kept s s') : Tracks cap r n s' := by
  refine ⟨k.1,k.2.current.trans h.current,?_,h.older,?_,?_⟩
  · rw [k.2.table]
    apply h.table.invalidate
    rw [h.shape.mapAlive]
    exact k.2.alive
  · rw [k.2.table]
    exact h.entries
  · rw [k.2.table]
    exact h.poolSize

/-- The common part of the submit functions. -/
theorem Tracks.enter {params : List LinquParam} {k : String} {group : Option ℕ} {tid : ℤ}
    (h : Tracks cap r n s) (hroom : n+writeCount params ≤ cap)
    (he : s.enterTask k group params = .ok (tid,s')) :
    Tracks cap (params.foldl (write r.2) r.1,r.2+1) (n+writeCount params) s' ∧ tid = r.2 ∧
      Entered s s' tid group (readsFrom r.2 s.taskRing.lastTaskAlive r.1 params).reverse := by
  obtain ⟨found,hfound,e⟩ := enterTask_entered h.shape he
  have htable := enterTask_table he
  have htid : tid = r.2 := e.tid_eq.trans h.current
  have h0 : 0 ≤ r.2 := by
    rw [← h.current]
    exact h.shape.ring.alive_nonneg.trans h.shape.ring.alive_le
  obtain ⟨hprod,tm',htab,hr',hn,hs,ha,hb⟩ := params_represented h0 params s.tensorMap r.1 h.table
    (fun k t ht => (h.older k t ht).le) (by rw [h.entries, h.poolSize]; exact hroom)
  rw [htid, htab] at htable
  cases htable
  rw [h.current, hprod, h.shape.mapAlive] at hfound
  cases hfound
  refine ⟨⟨e.shape,?_,hr',fun k t ht => Int.lt_add_one_of_le (hb k t ht),?_,?_⟩,htid,e⟩
  · rw [e.current, htid]
  · rw [hn, h.entries]
  · rw [hs, h.poolSize]

theorem records_of_entered {w : Writers} {params : List LinquParam} {m e : State} {tid : ℤ}
    {group : Option ℕ} (hm : Kept s m) (htid : tid = s.taskRing.currentIndex)
    (he : Entered m e tid group (readsFrom tid m.taskRing.lastTaskAlive w params).reverse)
    (hs : Kept e s') : Records w params s m s' := by
  have hfanin : s'.faninList tid = (readsFrom tid m.taskRing.lastTaskAlive w params).reverse :=
    (hs.2.lists tid).1.trans he.fanin_new
  subst htid
  constructor
  · exact hfanin
  · intro t ht
    rw [(hs.2.lists t).1, he.fanin_old t ht, (hm.2.lists t).1]
  · rw [hfanin, (hs.2.lists _).2, he.fanout_new]
  · intro t ht
    rw [hfanin, (hs.2.lists t).2, he.fanout_old t ht, (hm.2.lists t).2]

theorem launchTask_kept {e : State} {tid : ℤ} {target : LinquCoordinate} {k : Option String}
    {params : List LinquParam} (h : Shape e)
    (hs : e.launchTask tid target k params = .ok s') : Kept e s' := by
  apply launchTask_task_rule (kept_rule e).toTaskRule _ hs
  exact Kept.frame ⟨h,Keeps.refl h⟩ (frame_setStatus e tid .running)

theorem launchGroup_kept {e : State} {tid : ℤ} {k : Option String} {params : List LinquParam}
    {subs : List LinquSubTaskSpec} {arrivals : List (List ℤ)} (h : Shape e)
    (hs : e.launchGroup tid k params subs arrivals = .ok s') : Kept e s' := by
  have hk : ∀ v, Kept e (e.setStatus tid v) := fun v =>
    Kept.frame ⟨h,Keeps.refl h⟩ (frame_setStatus e tid v)
  exact launchGroup_task_rule (kept_rule e).toTaskRule (hk _) (fun _ _ => hk _) hs

/-- A submission, from the end of its wait to its return. -/
theorem Tracks.submit {params : List LinquParam} {k : String} {group : Option ℕ} {tid : ℤ}
    {m e : State} (h : Tracks cap r n s) (hm : Kept s m) (hroom : n+writeCount params ≤ cap)
    (he : m.enterTask k group params = .ok (tid,e)) (hs : Shape e → Kept e s') :
    Records r.1 params s m s' ∧
      Tracks cap (params.foldl (write r.2) r.1,r.2+1) (n+writeCount params) s' := by
  obtain ⟨ht,htid,hent⟩ := (h.keeps hm).enter hroom he
  have hk := hs ht.shape
  rw [← htid] at hent
  exact ⟨records_of_entered hm (htid.trans h.current.symm) hent hk,ht.keeps hk⟩

theorem step_tracks {op : Op} (h : Tracks cap r n s) (hroom : n+insertCount op ≤ cap)
    (hs : Steps s op s') :
    EdgesRecorded r.1 s op s' ∧ Tracks cap (recordOp r op) (n+insertCount op) s' := by
  cases hop : submission op with
  | none =>
    have hk := exec_kept h.shape hop hs
    simp only [EdgesRecorded, recordOp, insertCount, hop, Option.elim_none, Nat.add_zero]
    exact ⟨hk.2.lists,h.keeps hk⟩
  | some c =>
    obtain ⟨params,arrivals⟩ := c
    simp only [EdgesRecorded, recordOp, insertCount, hop, Option.elim_some] at hroom ⊢
    cases op with
    | submitTask target k ps as =>
      cases hop
      obtain ⟨m,hm,hs⟩ := bind_ok.mp hs
      obtain ⟨⟨tid,e⟩,he,hs⟩ := bind_ok.mp hs
      obtain ⟨hrec,ht⟩ := h.submit (waitForSpace_kept h.shape hm) hroom he
        (fun hshape => launchTask_kept hshape hs)
      exact ⟨⟨m,hm,hrec⟩,ht⟩
    | submitTaskGroup k ps subs as ds =>
      cases hop
      obtain ⟨m,hm,hs⟩ := bind_ok.mp hs
      obtain ⟨⟨tid,e⟩,he,hs⟩ := bind_ok.mp hs
      obtain ⟨hrec,ht⟩ := h.submit (waitForSpace_kept h.shape hm) hroom he
        (fun hshape => launchGroup_kept hshape hs)
      exact ⟨⟨m,hm,hrec⟩,ht⟩
    | _ => cases hop

theorem run_tracks (ops : List Op) : ∀ (r : Writers × ℤ) (n : ℕ) (s : State),
    Tracks cap r n s → n+inserts ops ≤ cap → Run Steps ops s s' →
    Tracks cap (ops.foldl recordOp r) (n+inserts ops) s' := by
  induction ops with
  | nil =>
    intro r n s h _ hr
    cases hr
    exact h
  | cons op ops ih =>
    intro r n s h hroom hr
    obtain ⟨m,hm,hr⟩ := hr
    have hsum : inserts (op::ops) = insertCount op+inserts ops := rfl
    rw [hsum, ← Nat.add_assoc] at hroom ⊢
    exact ih (recordOp r op) _ m (step_tracks h (by omega) hm).2 hroom hr

theorem init_tracks {backend : Backend} {cfg : LinquOrchConfigInternal}
    (h : init backend cfg = .ok s) : Tracks cfg.tensormapPool (fun _ => none,0) 0 s := by
  obtain ⟨-,hcur,-,-⟩ := init_ring h
  have hshape := init_shape h
  obtain ⟨ring,pool,tm,-,-,hm,rfl⟩ := init_spec h
  have hrep := init_represents hm
  refine ⟨hshape,hcur,hrep,fun k t ht => (by cases ht),?_,?_⟩
  all_goals
    unfold LinquTensorMap.init at hm
    split at hm
    · cases hm
      rfl
    · cases hm

/-- Whatever the buckets and the collisions, and wherever tasks are retired. -/
theorem edges_are_last_writers {backend : Backend} {cfg : LinquOrchConfigInternal}
    {ops : List Op} {op : Op} {s₀ s s' : State} (h₀ : init backend cfg = .ok s₀)
    (hr : Run Steps ops s₀ s) (hs : Steps s op s') (hcap : inserts (ops++[op]) ≤ cfg.tensormapPool) :
    EdgesRecorded (lastWriters ops) s op s' := by
  have hsum : inserts (ops++[op]) = inserts ops+insertCount op := by simp [inserts]
  rw [hsum] at hcap
  have ht := run_tracks ops _ 0 s₀ (init_tracks h₀) (by omega) hr
  rw [Nat.zero_add] at ht
  exact (step_tracks ht hcap hs).1

/-- One bucket for all handles, and two writers that are retired. -/
def collisions : List Op :=
  [.scopeBegin,.submitTask {} none [linquMakeOutput 1] [],
    .submitTask {} none [linquMakeOutput 2] [],.scopeEnd,
    .scopeBegin,.submitTask {} none [linquMakeInput 1,linquMakeOutput 3] [],
    .submitTask {} none [linquMakeOutput 1] []]

theorem edges_are_last_writers_collisions : ∃ s₀ s s',
    init .none { tensormapBuckets := 1, tensormapPool := 5 } = .ok s₀ ∧
    Run Steps collisions s₀ s ∧ Steps s (.submitTask {} none
      [linquMakeInput 1,linquMakeInput 3,linquMakeInout 2,linquMakeInput 2] []) s' ∧
    EdgesRecorded (lastWriters collisions) s (.submitTask {} none
      [linquMakeInput 1,linquMakeInput 3,linquMakeInout 2,linquMakeInput 2] []) s' ∧
    s'.taskRing.lastTaskAlive = 2 ∧ s'.faninList 4 = [4,2,3] := by
  obtain ⟨s₀,s,h₀,hr,-,ht⟩ := run_of_check (b := .none)
    (c := { tensormapBuckets := 1, tensormapPool := 5 }) (l := collisions) (g := fun _ => true)
    (t := fun s => (exec s (.submitTask {} none
      [linquMakeInput 1,linquMakeInput 3,linquMakeInout 2,linquMakeInput 2] [])).toOption.any
        (fun s' => s'.taskRing.lastTaskAlive = 2 ∧ s'.faninList 4 = [4,2,3])) (by decide +kernel)
  cases hs : exec s (.submitTask {} none
      [linquMakeInput 1,linquMakeInput 3,linquMakeInout 2,linquMakeInput 2] []) with
  | error e =>
    rw [hs] at ht
    cases ht
  | ok s' =>
    rw [hs] at ht
    exact ⟨s₀,s,s',h₀,hr,hs,edges_are_last_writers h₀ hr hs (by decide +kernel),
      of_decide_eq_true ht⟩

end Linqu.LastWriters
