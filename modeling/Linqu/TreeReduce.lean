import Linqu.Dataflow
import Linqu.LevelRuntime

/-!
# The reduction tree

`tree_reduce` pairs the tensors of a round from left to right, submits one
worker for each pair and carries the last tensor of an odd round over. All
workers are submitted before one is waited for. `fresh` is what the calls of
`make_tensor` return; other threads may take handles in between.
-/

set_option autoImplicit false

namespace Linqu.TreeReduce
open Linqu.Level Linqu.Dataflow

/-- The arguments of one call of `submit_worker`: two inputs and one output. -/
structure Worker where
  left : LinquTensor
  right : LinquTensor
  out : LinquTensor
  deriving DecidableEq, Repr

def Worker.inputs (w : Worker) : List LinquTensor := [w.left,w.right]

def Worker.node (w : Worker) : Node UInt64 := ⟨w.left.handle,w.right.handle,w.out.handle⟩

/-- The locals of `tree_reduce`: the workers submitted so far, the tensors of
the next round, and the worker that `root_fut` belongs to. -/
structure Reduction where
  workers : List Worker := []
  next : List LinquTensor := []
  rootFut : Option Worker := none
  deriving DecidableEq, Repr

def makeTensor (fresh : ℕ → UInt64) (r : Reduction) (count : ℕ) : LinquTensor :=
  ⟨fresh r.workers.length,count⟩

def submitWorker (fresh : ℕ → UInt64) (r : Reduction) (a b : LinquTensor) : Reduction :=
  let w : Worker := ⟨a,b,makeTensor fresh r a.count⟩
  { workers := r.workers++[w], next := r.next++[w.out], rootFut := some w }

/-- One round over the tensors of `current`. -/
def round (fresh : ℕ → UInt64) : List LinquTensor → Reduction → Reduction
  | a::b::rest, r => round fresh rest (submitWorker fresh r a b)
  | [a], r => { r with next := r.next++[a] }
  | [], r => r

/-- The rounds, at most `n` of them. -/
def rounds (fresh : ℕ → UInt64) : ℕ → List LinquTensor → Reduction →
    Option (LinquTensor × Reduction)
  | _, [], _ => none
  | _, [a], r => some (a,r)
  | 0, _::_::_, _ => none
  | n+1, current@(_::_::_), r =>
    let r := round fresh current { r with next := [] }
    rounds fresh n r.next r

/-- The root, and the workers with the one that is waited for. -/
def treeReduce (fresh : ℕ → UInt64) (leaves : List LinquTensor) :
    Option (LinquTensor × Reduction) :=
  rounds fresh leaves.length leaves {}

/-- The handles that the reduction takes are new: distinct, and not those of
the leaves. -/
structure Fresh (fresh : ℕ → UInt64) (leaves : List LinquTensor) : Prop where
  distinct : ∀ i < leaves.length, ∀ j < leaves.length, fresh i = fresh j → i = j
  apart : ∀ i < leaves.length, ∀ t ∈ leaves, t.handle ≠ fresh i

def IsLeaf (leaves : List LinquTensor) (h : UInt64) : Prop := ∃ t ∈ leaves, t.handle = h

/-- The leaves under the tensors, one after the other. -/
def Spread (leaves : List LinquTensor) (workers : List Worker) :
    List LinquTensor → List UInt64 → Prop
  | [], l => l = []
  | t::ts, l => ∃ k m, Under (IsLeaf leaves) (workers.map Worker.node) t.handle k ∧
      Spread leaves workers ts m ∧ l = k++m

/-- What holds between two submissions; `rest` is the part of the round that
is still to be paired. -/
structure Built (fresh : ℕ → UInt64) (leaves : List LinquTensor) (r : Reduction)
    (rest : List LinquTensor) : Prop where
  used : (r.workers.flatMap Worker.inputs++(r.next++rest)).Perm (leaves++r.workers.map Worker.out)
  handles : r.workers.map (fun w => w.out.handle) = (List.range r.workers.length).map fresh
  spread : Spread leaves r.workers (r.next++rest) (leaves.map LinquTensor.handle)
  fut : r.rootFut = r.workers.getLast?
  ordered : ∀ pre w post, r.workers = pre++w::post → ∀ t ∈ w.inputs,
    IsLeaf leaves t.handle ∨ ∃ v ∈ pre, v.out.handle = t.handle

variable {fresh : ℕ → UInt64} {leaves : List LinquTensor} {r : Reduction}
  {rest : List LinquTensor}

theorem spread_append {workers : List Worker} {ts us : List LinquTensor} {l : List UInt64} :
    Spread leaves workers (ts++us) l ↔
      ∃ k m, Spread leaves workers ts k ∧ Spread leaves workers us m ∧ l = k++m := by
  induction ts generalizing l with
  | nil => simp [Spread]
  | cons t ts ih =>
    simp only [List.cons_append, Spread, ih]
    constructor
    · rintro ⟨k,_,hk,⟨m,n,hm,hn,rfl⟩,rfl⟩
      exact ⟨k++m,n,⟨k,m,hk,hm,rfl⟩,hn,by simp⟩
    · rintro ⟨_,n,⟨k,m,hk,hm,rfl⟩,hn,rfl⟩
      exact ⟨k,m++n,hk,⟨m,n,hm,hn,rfl⟩,by simp⟩

theorem Spread.mono {workers workers' : List Worker} {ts : List LinquTensor} {l : List UInt64}
    (h : Spread leaves workers ts l)
    (hsub : workers.map Worker.node ⊆ workers'.map Worker.node) : Spread leaves workers' ts l := by
  induction ts generalizing l with
  | nil => exact h
  | cons t ts ih =>
    obtain ⟨k,m,hk,hm,hl⟩ := h
    exact ⟨k,m,hk.mono hsub,ih hm,hl⟩

theorem Built.length (h : Built fresh leaves r rest) :
    r.workers.length+(r.next++rest).length = leaves.length := by
  have hperm := h.used.length_eq
  have hinputs : (r.workers.flatMap Worker.inputs).length = 2*r.workers.length := by
    induction r.workers with
    | nil => rfl
    | cons w ws ih => simp [Worker.inputs, ih]; omega
  simp only [List.length_append, hinputs, List.length_map] at hperm ⊢
  omega

/-- A tensor with leaves under it is a leaf or has been submitted. -/
theorem available {workers : List Worker} {h : UInt64} {l : List UInt64}
    (hu : Under (IsLeaf leaves) (workers.map Worker.node) h l) :
    IsLeaf leaves h ∨ ∃ v ∈ workers, v.out.handle = h := by
  cases hu with
  | leaf hc => exact .inl hc
  | node hn _ _ =>
    obtain ⟨v,hv,rfl⟩ := List.mem_map.mp hn
    exact .inr ⟨v,hv,rfl⟩

theorem Built.submit {a b : LinquTensor} (h : Built fresh leaves r (a::b::rest)) :
    Built fresh leaves (submitWorker fresh r a b) rest := by
  obtain ⟨ks,_,hks,⟨ka,_,ha,⟨kb,ms,hb,hms,rfl⟩,rfl⟩,hflat⟩ := spread_append.mp h.spread
  set w : Worker := ⟨a,b,makeTensor fresh r a.count⟩ with hw
  have hsub : r.workers.map Worker.node ⊆ (r.workers++[w]).map Worker.node := by simp
  constructor
  · have hmove : (r.workers.flatMap Worker.inputs++[a,b]++(r.next++[w.out]++rest)).Perm
        (w.out::(r.workers.flatMap Worker.inputs++(r.next++a::b::rest))) := by
      rw [← Multiset.coe_eq_coe]
      simp only [← Multiset.coe_add, ← Multiset.cons_coe, ← Multiset.singleton_add]
      simp only [← Multiset.coe_singleton, Multiset.coe_nil]
      abel
    simp only [submitWorker, List.flatMap_append, List.flatMap_cons, List.flatMap_nil,
      List.append_nil, List.map_append, List.map_cons, List.map_nil]
    refine hmove.trans ((h.used.cons w.out).trans ?_)
    rw [← List.append_assoc]
    exact (List.perm_append_singleton w.out _).symm
  · simp only [submitWorker, List.map_append, h.handles, List.map_cons, List.map_nil,
      List.length_append, List.length_cons, List.length_nil, List.range_succ, makeTensor]
  · have hnew : Under (IsLeaf leaves) ((r.workers++[w]).map Worker.node) w.out.handle (ka++kb) :=
      .node (n := w.node) (by simp) (ha.mono hsub) (hb.mono hsub)
    refine spread_append.mpr ⟨ks++(ka++kb),ms,?_,hms.mono hsub,by simp [hflat]⟩
    exact spread_append.mpr ⟨ks,ka++kb,hks.mono hsub,⟨ka++kb,[],hnew,rfl,by simp⟩,rfl⟩
  · simp [submitWorker]
  · intro pre v post hsplit t ht
    rcases List.eq_nil_or_concat post with rfl | ⟨post,x,rfl⟩
    · obtain ⟨rfl,hv⟩ := List.append_inj' (show r.workers++[w] = pre++[v] from hsplit) rfl
      cases hv
      rcases List.mem_pair.mp ht with rfl | rfl
      · exact available ha
      · exact available hb
    · have hold : r.workers++[w] = (pre++v::post)++[x] := by
        simpa using (show r.workers++[w] = pre++v::post.concat x from hsplit)
      exact h.ordered pre v post (List.append_inj' hold rfl).1 t ht

theorem Built.carry {a : LinquTensor} (h : Built fresh leaves r [a]) :
    Built fresh leaves { r with next := r.next++[a] } [] :=
  ⟨by simpa using h.used,h.handles,by simpa using h.spread,h.fut,h.ordered⟩

/-- The tensors of one round are those to be paired in the next. -/
theorem Built.turn (h : Built fresh leaves r []) :
    Built fresh leaves { r with next := [] } r.next :=
  ⟨by simpa using h.used,h.handles,by simpa using h.spread,h.fut,h.ordered⟩

theorem round_built (rest : List LinquTensor) (h : Built fresh leaves r rest) :
    Built fresh leaves (round fresh rest r) [] := by
  fun_induction round fresh rest r with
  | case1 r a b rest ih => exact ih h.submit
  | case2 r a => exact h.carry
  | case3 r => exact h

theorem length_round (rest : List LinquTensor) (r : Reduction) :
    (round fresh rest r).next.length = r.next.length+(rest.length+1)/2 := by
  fun_induction round fresh rest r with
  | case1 r a b rest ih =>
    rw [ih]
    simp [submitWorker]
    omega
  | case2 r a => simp
  | case3 r => simp

theorem rounds_single (n : ℕ) (a : LinquTensor) (r : Reduction) :
    rounds fresh n [a] r = some (a,r) := by
  cases n <;> rfl

/-- The rounds end with one tensor, the output of the last worker unless there
was nothing to pair. -/
theorem rounds_spec (n : ℕ) (current : List LinquTensor) (r : Reduction) (hne : current ≠ [])
    (hn : current.length ≤ n+1) (h : Built fresh leaves { r with next := [] } current) :
    ∃ root r', rounds fresh n current r = some (root,r') ∧
      Built fresh leaves { r' with next := [] } [root] ∧
      (1 < current.length → ∃ w, r'.rootFut = some w ∧ w.out = root) := by
  induction n generalizing current r with
  | zero =>
    obtain ⟨a,rfl⟩ := List.length_eq_one_iff.mp
      (show current.length = 1 by have := List.length_pos_iff.mpr hne; omega)
    exact ⟨a,r,rfl,h,by simp⟩
  | succ n ih =>
    match current with
    | [] => exact absurd rfl hne
    | [a] => exact ⟨a,r,rfl,h,by simp⟩
    | [a,b] =>
      have hround := (round_built [a,b] h).turn
      refine ⟨_,submitWorker fresh { r with next := [] } a b,rounds_single n _ _,?_,
        fun _ => ⟨_,rfl,rfl⟩⟩
      simpa [round, submitWorker] using hround
    | a::b::c::rest =>
      have hlen : (round fresh (a::b::c::rest) { r with next := [] }).next.length =
          ([] : List LinquTensor).length+((a::b::c::rest).length+1)/2 := length_round _ _
      simp only [List.length_cons, List.length_nil] at hlen hn
      have hround := round_built (a::b::c::rest) h
      obtain ⟨root,r',hr,hbuilt,hroot⟩ := ih _ _
        (List.ne_nil_of_length_pos (by rw [hlen]; omega)) (by rw [hlen]; omega) hround.turn
      exact ⟨root,r',hr,hbuilt,fun _ => hroot (by rw [hlen]; omega)⟩

theorem built_start (leaves : List LinquTensor) : Built fresh leaves {} leaves := by
  have hspread : ∀ ts : List LinquTensor, ts ⊆ leaves →
      Spread leaves [] ts (ts.map LinquTensor.handle) := by
    intro ts
    induction ts with
    | nil => exact fun _ => rfl
    | cons t ts ih =>
      intro hsub
      exact ⟨[t.handle],_,.leaf ⟨t,hsub (by simp),rfl⟩,ih (fun u hu => hsub (by simp [hu])),rfl⟩
  exact ⟨by simp,rfl,hspread leaves (List.Subset.refl _),rfl,by simp⟩

theorem Built.writtenOnce (h : Built fresh leaves r rest) (hf : Fresh fresh leaves)
    (hfew : r.workers.length ≤ leaves.length) :
    WrittenOnce (IsLeaf leaves) (r.workers.map Worker.node) := by
  have houts : (r.workers.map Worker.node).map Node.out =
      (List.range r.workers.length).map fresh := by
    rw [← h.handles, List.map_map]
    rfl
  constructor
  · rw [houts]
    apply List.Nodup.map_on _ List.nodup_range
    intro i hi j hj
    rw [List.mem_range] at hi hj
    exact hf.distinct i (by omega) j (by omega)
  · rintro n hn ⟨t,ht,he⟩
    have hout := List.mem_map_of_mem (f := Node.out) hn
    rw [houts] at hout
    obtain ⟨i,hi,hfi⟩ := List.mem_map.mp hout
    rw [List.mem_range] at hi
    exact hf.apart i (by omega) t ht (he.trans hfi.symm)

/-- The order of submission is one of the orders. -/
theorem Built.submissionOrder (h : Built fresh leaves r rest)
    (hw : WrittenOnce (IsLeaf leaves) (r.workers.map Worker.node)) :
    InOrder (r.workers.map Worker.node) (r.workers.map Worker.node) := by
  refine ⟨List.Perm.refl _,fun pre n post hsplit m hm hout => ?_⟩
  obtain ⟨wpre,wrest,hworkers,rfl,hrest⟩ := List.map_eq_append_iff.mp hsplit
  obtain ⟨w,wpost,rfl,rfl,rfl⟩ := List.map_eq_cons_iff.mp hrest
  have hinput : ∀ t ∈ w.inputs, m.out = t.handle → m ∈ wpre.map Worker.node := by
    intro t ht he
    rcases h.ordered wpre w wpost hworkers t ht with hleaf | ⟨v,hv,hvt⟩
    · exact absurd (he ▸ hleaf) (hw.leaf m hm)
    · have hmem : v.node ∈ r.workers.map Worker.node :=
        List.mem_map_of_mem (by simp [hworkers, hv])
      rw [hw.eq_of_out hm hmem (he.trans hvt.symm)]
      exact List.mem_map_of_mem hv
  rcases hout with hout | hout
  · exact hinput w.left (by simp [Worker.inputs]) hout
  · exact hinput w.right (by simp [Worker.inputs]) hout

/-- The reduction of any leaves by any associative operation: one worker less
than leaves, every tensor but the root read once, the leaves under the root in
their order, their fold in the root whatever the order of the workers (that of
submission is one), and the worker waited for writes the root. -/
theorem tree_reduce_folds {V : Type} (op : V → V → V)
    (hop : ∀ a b c, op (op a b) c = op a (op b c)) (fresh : ℕ → UInt64)
    (leaves : List LinquTensor) (hne : leaves ≠ []) (hf : Fresh fresh leaves) :
    ∃ root r, treeReduce fresh leaves = some (root,r) ∧
      r.workers.length+1 = leaves.length ∧
      (r.workers.flatMap Worker.inputs++[root]).Perm (leaves++r.workers.map Worker.out) ∧
      (∀ l, Under (IsLeaf leaves) (r.workers.map Worker.node) root.handle l ↔
        l = leaves.map LinquTensor.handle) ∧
      (∀ (order : List (Node UInt64)) (store : UInt64 → V),
        InOrder (r.workers.map Worker.node) order →
        reduce op (leaves.map (fun t => store t.handle)) =
          some (order.foldl (run op) store root.handle)) ∧
      InOrder (r.workers.map Worker.node) (r.workers.map Worker.node) ∧
      (1 < leaves.length → ∃ w, r.workers.getLast? = some w ∧ r.rootFut = some w ∧
        w.out = root) := by
  have hstart : Built fresh leaves {} leaves := built_start leaves
  obtain ⟨root,r,hr,hbuilt,hroot⟩ := rounds_spec leaves.length leaves {} hne (by omega) hstart
  have hlen := hbuilt.length
  simp only [List.nil_append, List.length_cons, List.length_nil] at hlen
  have hw := hbuilt.writtenOnce hf (by simp only; omega)
  obtain ⟨k,_,hk,rfl,hl⟩ := hbuilt.spread
  rw [List.append_nil] at hl
  subst hl
  refine ⟨root,r,hr,by omega,by simpa using hbuilt.used,?_,?_,hbuilt.submissionOrder hw,?_⟩
  · intro l
    constructor
    · exact fun hl => hk.unique hw hl
    · rintro rfl
      exact hk
  · intro order store ho
    have hrun := run_under hop hw ho store hk
    rwa [List.map_map] at hrun
  · intro hmany
    obtain ⟨w,hfut,hout⟩ := hroot hmany
    exact ⟨w,hbuilt.fut ▸ hfut,hfut,hout⟩

/-- Five leaves with handles 1 to 5, the last carried over twice. -/
def fiveLeaves : List LinquTensor := [⟨1,4⟩,⟨2,4⟩,⟨3,4⟩,⟨4,4⟩,⟨5,4⟩]

theorem tree_reduce_folds_five :
    ∃ root r, treeReduce (fun i => UInt64.ofNat (i+6)) fiveLeaves = some (root,r) ∧
      r.workers.length = 4 ∧
      (r.workers.map Worker.node).foldl (run (· ++ ·)) (fun h => [h]) root.handle =
        [1,2,3,4,5] := by
  obtain ⟨root,r,hr,hlen,-,-,hrun,ho,-⟩ := tree_reduce_folds (V := List UInt64) (· ++ ·)
    List.append_assoc (fun i => UInt64.ofNat (i+6)) fiveLeaves (by decide)
    ⟨by decide,by decide⟩
  refine ⟨root,r,hr,Nat.succ.inj hlen,?_⟩
  have hfold := hrun _ (fun h => [h]) ho
  exact (Option.some.inj hfold).symm

end Linqu.TreeReduce
