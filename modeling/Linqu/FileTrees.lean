import Mathlib.Tactic

/-!
# Directories and their files

A directory as a walk meets it: entries in the order in which they are listed,
each a file or another directory. Every file has one path, and a walk that
leaves out some names visits the files with none of these in their path.
-/

set_option autoImplicit false

namespace Linqu.FileTrees

variable {α κ σ : Type*}

inductive Listing (α κ : Type*) where
  | nil
  | file (name : α) (kind : κ) (rest : Listing α κ)
  | dir (name : α) (sub rest : Listing α κ)
  deriving DecidableEq, Repr

namespace Listing

/-- The names of the entries. -/
def names : Listing α κ → List α
  | nil => []
  | file name _ rest => name::rest.names
  | dir name _ rest => name::rest.names

/-- The files below the directory with their paths from there. -/
def files : Listing α κ → List (List α × κ)
  | nil => []
  | file name kind rest => ([name],kind)::rest.files
  | dir name sub rest => sub.files.map (fun f => (name::f.1,f.2))++rest.files

/-- No two entries of a directory have one name. -/
def Proper : Listing α κ → Prop
  | nil => True
  | file name _ rest => name ∉ rest.names ∧ rest.Proper
  | dir name sub rest => name ∉ rest.names ∧ sub.Proper ∧ rest.Proper

/-- It lists the files of a file system. -/
structure Lists (t : Listing α κ) (disk : List α → Option κ) : Prop where
  proper : t.Proper
  mem : ∀ path kind, (path,kind) ∈ t.files ↔ disk path = some kind

/-- The files are visited in the order of the entries. -/
def walk (keep : α → Bool) (visit : σ → List α → κ → σ) : List α → Listing α κ → σ → σ
  | _, nil, s => s
  | path, file name kind rest, s =>
    walk keep visit path rest (if keep name then visit s (path++[name]) kind else s)
  | path, dir name sub rest, s =>
    walk keep visit path rest (if keep name then walk keep visit (path++[name]) sub s else s)

variable {keep : α → Bool} {visit : σ → List α → κ → σ} {t : Listing α κ}

theorem walk_eq (path : List α) (s : σ) :
    t.walk keep visit path s =
      (t.files.filter fun f => f.1.all keep).foldl (fun s f => visit s (path++f.1) f.2) s := by
  induction t generalizing path s with
  | nil => rfl
  | file name kind rest ih =>
    rw [walk, ih, files]
    by_cases hk : keep name = true
    · simp [hk]
    · simp [hk]
  | dir name sub rest ihs ih =>
    rw [walk, ih, files, List.filter_append, List.foldl_append, List.filter_map, List.foldl_map]
    congr 1
    by_cases hk : keep name = true
    · rw [if_pos hk, ihs]
      simp [Function.comp_def, hk]
    · rw [if_neg hk]
      simp [Function.comp_def, hk]

theorem head_mem_names {path : List α} {kind : κ} (h : (path,kind) ∈ t.files) :
    ∃ name rest, path = name::rest ∧ name ∈ t.names := by
  induction t generalizing path with
  | nil => cases h
  | file name kind' rest ih =>
    rcases List.mem_cons.mp h with he | h
    · cases he
      exact ⟨name,[],rfl,List.mem_cons_self⟩
    · obtain ⟨n,r,hp,hn⟩ := ih h
      exact ⟨n,r,hp,List.mem_cons_of_mem _ hn⟩
  | dir name sub rest _ ih =>
    rcases List.mem_append.mp h with h | h
    · obtain ⟨f,-,he⟩ := List.mem_map.mp h
      cases he
      exact ⟨name,f.1,rfl,List.mem_cons_self⟩
    · obtain ⟨n,r,hp,hn⟩ := ih h
      exact ⟨n,r,hp,List.mem_cons_of_mem _ hn⟩

theorem not_mem_paths {name : α} (h : name ∉ t.names) (rest : List α) :
    name::rest ∉ t.files.map Prod.fst := by
  intro hm
  obtain ⟨f,hf,he⟩ := List.mem_map.mp hm
  obtain ⟨n,r,hp,hn⟩ := head_mem_names hf
  rw [hp] at he
  cases he
  exact h hn

/-- Every file has a path of its own. -/
theorem Proper.nodup (h : t.Proper) : (t.files.map Prod.fst).Nodup := by
  induction t with
  | nil => exact List.nodup_nil
  | file name kind rest ih => exact List.nodup_cons.mpr ⟨not_mem_paths h.1 [],ih h.2⟩
  | dir name sub rest ihs ih =>
    rw [files, List.map_append, List.map_map]
    apply List.Nodup.append
    · have hcons := (ihs h.2.1).map (f := fun p : List α => name::p) fun _ _ he => by
        exact (List.cons.inj he).2
      rw [List.map_map] at hcons
      exact hcons
    · exact ih h.2.2
    · intro p hp hrest
      obtain ⟨f,-,rfl⟩ := List.mem_map.mp hp
      exact not_mem_paths h.1 f.1 hrest

end Listing

end Linqu.FileTrees
