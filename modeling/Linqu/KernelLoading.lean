import Mathlib.Tactic

/-!
# The code cache

Binaries are written to files and opened by the dynamic loader, which is a
function of the content of the file here. Which names lead to one file is up
to the file system. A kernel that was opened once is kept under its name;
`register_code` writes the file but leaves the kept kernel in place.

`History` is read off the calls alone: what was registered last under a name,
what lies in a file, and the binary that stands behind a kept kernel.
-/

set_option autoImplicit false

namespace Linqu.KernelLoading

abbrev Binary := List UInt8

/-- What `dlopen` and the two calls of `dlsym` give. -/
structure Opened (Handle Entry Config : Type) where
  handle : Handle
  entryFn : Option Entry
  configFn : Option Config
  deriving DecidableEq, Repr

structure LoadedKernel (Handle Entry Config : Type) where
  dlHandle : Option Handle := none
  entryFn : Option Entry := none
  configFn : Option Config := none
  soPath : String := ""
  deriving DecidableEq, Repr

variable {Handle Entry Config File : Type} [DecidableEq File]

/-- The loader and the file system. -/
structure System (Handle Entry Config File : Type) where
  dlopen : Binary → Option (Opened Handle Entry Config)
  resolve : String → File
  storagePath : String

structure CodeCache (Handle Entry Config File : Type) where
  disk : File → Option Binary
  nameToPath : String → Option String := fun _ => none
  loaded : String → Option (LoadedKernel Handle Entry Config) := fun _ => none

variable (sys : System Handle Entry Config File)

def path (name : String) : String := sys.storagePath++"/code/"++name

def registerCode (s : CodeCache Handle Entry Config File) (name : String) (data : Binary) :
    CodeCache Handle Entry Config File :=
  { s with disk := Function.update s.disk (sys.resolve (path sys name)) (some data)
           nameToPath := Function.update s.nameToPath name (some (path sys name)) }

def has (s : CodeCache Handle Entry Config File) (name : String) : Bool :=
  (s.nameToPath name).isSome

def load (s : CodeCache Handle Entry Config File) (name : String) :
    LoadedKernel Handle Entry Config × CodeCache Handle Entry Config File :=
  match s.loaded name with
  | some k => (k,s)
  | none =>
    match s.nameToPath name with
    | none => ({},s)
    | some soPath =>
      match (s.disk (sys.resolve soPath)).bind sys.dlopen with
      | none => ({},s)
      | some o =>
        match o.entryFn with
        | none => ({},s)
        | some entry =>
          let k : LoadedKernel Handle Entry Config := ⟨some o.handle,some entry,o.configFn,soPath⟩
          (k,{ s with loaded := Function.update s.loaded name (some k) })

def unloadAll (s : CodeCache Handle Entry Config File) : CodeCache Handle Entry Config File :=
  { s with loaded := fun _ => none }

inductive Call where
  | registerCode (name : String) (data : Binary)
  | load (name : String)
  | has (name : String)
  | unloadAll
  deriving DecidableEq, Repr

def exec (s : CodeCache Handle Entry Config File) : Call → CodeCache Handle Entry Config File
  | .registerCode name data => registerCode sys s name data
  | .load name => (load sys s name).2
  | .has _ => s
  | .unloadAll => unloadAll s

/-- The cache after the calls, on a file system with any files. -/
def after (disk : File → Option Binary) (calls : List Call) : CodeCache Handle Entry Config File :=
  calls.foldl (exec sys) { disk }

/-- The kernel of a binary, empty unless the binary opens and has an entry. -/
def kernelOf (soPath : String) (data : Binary) : LoadedKernel Handle Entry Config :=
  match sys.dlopen data with
  | none => {}
  | some o =>
    match o.entryFn with
    | none => {}
    | some entry => ⟨some o.handle,some entry,o.configFn,soPath⟩

def valid (data : Binary) : Bool := (sys.dlopen data).any (fun o => o.entryFn.isSome)

structure History (File : Type) where
  latest : String → Option Binary := fun _ => none
  onFile : File → Option Binary
  kept : String → Option Binary := fun _ => none

/-- The binary a load comes down to: the one behind the kept kernel, or else
the one in the file. -/
def backing (h : History File) (name : String) : Option Binary :=
  (h.kept name).or (h.onFile (sys.resolve (path sys name)))

def next (h : History File) : Call → History File
  | .registerCode name data =>
    { h with latest := Function.update h.latest name (some data)
             onFile := Function.update h.onFile (sys.resolve (path sys name)) (some data) }
  | .load name =>
    if (h.latest name).isSome ∧ (backing sys h name).any (valid sys) then
      { h with kept := Function.update h.kept name (backing sys h name) }
    else h
  | .has _ => h
  | .unloadAll => { h with kept := fun _ => none }

def history (disk : File → Option Binary) (calls : List Call) : History File :=
  calls.foldl (next sys) { onFile := disk }

/-- The kernel of the binary registered last. -/
def wanted (h : History File) (name : String) : LoadedKernel Handle Entry Config :=
  ((h.latest name).map (kernelOf sys (path sys name))).getD {}

/-- A load gives the kernel registered last, and an empty one exactly when
nothing or no valid kernel was registered. -/
structure Serves (disk : File → Option Binary) (pre : List Call) (name : String) : Prop where
  kernel : (load sys (after sys disk pre) name).1 = wanted sys (history sys disk pre) name
  empty_iff : (load sys (after sys disk pre) name).1 = {} ↔
    ∀ data, (history sys disk pre).latest name = some data → valid sys data = false

/-- What stands behind the name opens as the binary registered last does. -/
def Backed (h : History File) (name : String) : Prop :=
  ∀ data old, h.latest name = some data → backing sys h name = some old →
    kernelOf sys (path sys name) old = kernelOf sys (path sys name) data

omit [DecidableEq File] in
theorem kernelOf_empty_iff (soPath : String) (data : Binary) :
    kernelOf sys soPath data = {} ↔ valid sys data = false := by
  cases ho : sys.dlopen data with
  | none => simp [kernelOf, valid, ho]
  | some o =>
    cases he : o.entryFn with
    | none => simp [kernelOf, valid, ho, he]
    | some entry => simp [kernelOf, valid, ho, he]

/-- The maps and the files of the cache, in terms of the history. -/
structure Tracks (s : CodeCache Handle Entry Config File) (h : History File) : Prop where
  disk : s.disk = h.onFile
  paths : ∀ name, s.nameToPath name = (h.latest name).map (fun _ => path sys name)
  loaded : ∀ name, s.loaded name = (h.kept name).map (kernelOf sys (path sys name))
  kept : ∀ name data, h.kept name = some data → (h.latest name).isSome ∧ valid sys data = true
  written : ∀ name, (h.latest name).isSome → (h.onFile (sys.resolve (path sys name))).isSome

variable {sys} {s : CodeCache Handle Entry Config File} {h : History File}

omit [DecidableEq File] in
theorem load_keeps (name : String) :
    (load sys s name).2.disk = s.disk ∧ (load sys s name).2.nameToPath = s.nameToPath := by
  unfold load
  split
  · exact ⟨rfl,rfl⟩
  · split
    · exact ⟨rfl,rfl⟩
    · split
      · exact ⟨rfl,rfl⟩
      · split <;> exact ⟨rfl,rfl⟩

omit [DecidableEq File] in
theorem Tracks.backing_isSome (ht : Tracks sys s h) {name : String} {data : Binary}
    (hl : h.latest name = some data) : ∃ old, backing sys h name = some old := by
  obtain ⟨bin,hbin⟩ := Option.isSome_iff_exists.mp (ht.written name (by simp [hl]))
  cases hk : h.kept name with
  | some old => exact ⟨old,by simp [backing, hk]⟩
  | none => exact ⟨bin,by simp [backing, hk, hbin]⟩

omit [DecidableEq File] in
/-- A load gives the kernel of the binary behind the name, and keeps it when
it is valid. -/
theorem Tracks.load_registered (ht : Tracks sys s h) {name : String} {data old : Binary}
    (hl : h.latest name = some data) (hb : backing sys h name = some old) :
    (load sys s name).1 = kernelOf sys (path sys name) old ∧
      (load sys s name).2.loaded = if valid sys old then
        Function.update s.loaded name (some (kernelOf sys (path sys name) old)) else s.loaded := by
  have hloaded := ht.loaded name
  have hpath := ht.paths name
  rw [hl] at hpath
  cases hk : h.kept name with
  | some kept =>
    have hold : kept = old := by simpa [backing, hk] using hb
    subst hold
    have hvalid := (ht.kept name kept hk).2
    rw [hk] at hloaded
    have hself : Function.update s.loaded name (some (kernelOf sys (path sys name) kept)) =
        s.loaded := by
      rw [← Option.map_some, ← hloaded, Function.update_eq_self]
    simp [load, hloaded, hvalid, hself]
  | none =>
    have hfile : h.onFile (sys.resolve (path sys name)) = some old := by
      simpa [backing, hk] using hb
    rw [hk] at hloaded
    cases ho : sys.dlopen old with
    | none => simp [load, hloaded, hpath, ht.disk, hfile, ho, kernelOf, valid]
    | some o =>
      cases he : o.entryFn with
      | none => simp [load, hloaded, hpath, ht.disk, hfile, ho, he, kernelOf, valid]
      | some entry => simp [load, hloaded, hpath, ht.disk, hfile, ho, he, kernelOf, valid]

omit [DecidableEq File] in
theorem Tracks.load_unregistered (ht : Tracks sys s h) {name : String} (hl : h.latest name = none) :
    load sys s name = ({},s) := by
  have hkept : h.kept name = none := by
    by_contra hne
    obtain ⟨old,hold⟩ := Option.ne_none_iff_exists'.mp hne
    have hsome := (ht.kept name old hold).1
    simp [hl] at hsome
  have hloaded := ht.loaded name
  have hpath := ht.paths name
  rw [hkept] at hloaded
  rw [hl] at hpath
  simp [load, hloaded, hpath]

theorem Tracks.registerCode (ht : Tracks sys s h) (name : String) (data : Binary) :
    Tracks sys (registerCode sys s name data) (next sys h (.registerCode name data)) := by
  constructor
  · simp [KernelLoading.registerCode, next, ht.disk]
  · intro other
    by_cases ho : other = name
    · simp [KernelLoading.registerCode, next, ho]
    · simp [KernelLoading.registerCode, next, ho, ht.paths]
  · exact ht.loaded
  · intro other old hold
    have hkept := ht.kept other old hold
    by_cases ho : other = name
    · simp [next, ho, hkept.2]
    · simp [next, ho, hkept.1, hkept.2]
  · intro other hother
    by_cases hf : sys.resolve (path sys other) = sys.resolve (path sys name)
    · simp [next, hf]
    · have ho : other ≠ name := fun he => hf (by rw [he])
      simp [next, ho] at hother
      simpa [next, hf] using ht.written other hother

/-- A load of a file that is no kernel leaves the cache as it was. -/
theorem Tracks.load (ht : Tracks sys s h) (name : String) :
    Tracks sys (load sys s name).2 (next sys h (.load name)) := by
  have hkeeps : (KernelLoading.load sys s name).2.disk = s.disk ∧
      (KernelLoading.load sys s name).2.nameToPath = s.nameToPath := load_keeps name
  cases hl : h.latest name with
  | none =>
    have hload := ht.load_unregistered hl
    simpa [hload, next, hl] using ht
  | some data =>
    obtain ⟨old,hb⟩ := ht.backing_isSome hl
    have hload := (ht.load_registered hl hb).2
    by_cases hv : valid sys old = true
    · rw [if_pos hv] at hload
      have hnext : next sys h (.load name) =
          { h with kept := Function.update h.kept name (some old) } := by
        simp [next, hl, hb, hv]
      rw [hnext]
      constructor
      · simpa [hkeeps.1] using ht.disk
      · simpa [hkeeps.2] using ht.paths
      · intro other
        by_cases ho : other = name
        · simp [hload, ho]
        · simp [hload, ho, ht.loaded]
      · intro other kept hkept
        by_cases ho : other = name
        · simp [ho] at hkept
          subst hkept
          simp [ho, hl, hv]
        · simp [ho] at hkept
          exact ht.kept other kept hkept
      · exact ht.written
    · rw [if_neg hv] at hload
      have hnext : next sys h (.load name) = h := by simp [next, hl, hb, hv]
      rw [hnext]
      constructor
      · simpa [hkeeps.1] using ht.disk
      · simpa [hkeeps.2] using ht.paths
      · simpa [hload] using ht.loaded
      · exact ht.kept
      · exact ht.written

theorem Tracks.exec (ht : Tracks sys s h) (c : Call) :
    Tracks sys (exec sys s c) (next sys h c) := by
  cases c with
  | registerCode name data => exact ht.registerCode name data
  | load name => exact ht.load name
  | has name => exact ht
  | unloadAll =>
    exact ⟨ht.disk,ht.paths,fun _ => rfl,fun _ _ hk => by simp [next] at hk,ht.written⟩

theorem tracks_after (sys : System Handle Entry Config File) (disk : File → Option Binary)
    (calls : List Call) : Tracks sys (after sys disk calls) (history sys disk calls) := by
  have hfold : ∀ (s : CodeCache Handle Entry Config File) (h : History File), Tracks sys s h →
      Tracks sys (calls.foldl (exec sys) s) (calls.foldl (next sys) h) := by
    induction calls with
    | nil => exact fun s h ht => ht
    | cons c calls ih => exact fun s h ht => ih _ _ (ht.exec c)
  apply hfold
  constructor <;> simp

/-- `has` says whether the name was ever registered. -/
theorem has_after (sys : System Handle Entry Config File) (disk : File → Option Binary)
    (calls : List Call) (name : String) :
    has (after sys disk calls) name = ((history sys disk calls).latest name).isSome := by
  rw [has, (tracks_after sys disk calls).paths, Option.isSome_map]

theorem serves_iff (sys : System Handle Entry Config File) (disk : File → Option Binary)
    (pre : List Call) (name : String) :
    Serves sys disk pre name ↔ Backed sys (history sys disk pre) name := by
  have ht := tracks_after sys disk pre
  cases hl : (history sys disk pre).latest name with
  | none =>
    have hload := ht.load_unregistered hl
    constructor
    · intro _ data old hdata
      simp [hl] at hdata
    · intro _
      constructor <;> simp [hload, wanted, hl]
  | some data =>
    obtain ⟨old,hb⟩ := ht.backing_isSome hl
    have hload := (ht.load_registered hl hb).1
    have hbacked : Backed sys (history sys disk pre) name ↔
        kernelOf sys (path sys name) old = kernelOf sys (path sys name) data := by
      simp [Backed, hl, hb]
    have hwanted : wanted sys (history sys disk pre) name = kernelOf sys (path sys name) data := by
      simp [wanted, hl]
    rw [hbacked]
    constructor
    · intro h
      rw [← hload, h.kernel, hwanted]
    · intro h
      constructor
      · rw [hload, h, hwanted]
      · rw [hload, h, kernelOf_empty_iff]
        simp [hl]

/-- Every load of a sequence of calls serves the binary registered last exactly
when each has behind it a binary that opens the same. -/
theorem serves_latest_iff (sys : System Handle Entry Config File) (disk : File → Option Binary)
    (calls : List Call) :
    (∀ pre name post, calls = pre++.load name::post → Serves sys disk pre name) ↔
      ∀ pre name post, calls = pre++.load name::post →
        Backed sys (history sys disk pre) name := by
  simp only [serves_iff]

/-- A loader that takes every binary, with the binary for its entry. -/
def anyBinary : System Binary Binary Unit String := ⟨fun b => some ⟨b,some b,none⟩,id,"/tmp"⟩

/-- A kernel is registered, loaded and registered anew. -/
def upgrade : List Call :=
  [.registerCode "k.so" [1],.load "k.so",.registerCode "k.so" [2],.load "k.so"]

/-- The second load still gives the first kernel. -/
theorem upgraded_kernel_not_served :
    ¬∀ pre name post, upgrade = pre++.load name::post →
      Serves anyBinary (fun _ => none) pre name := by
  intro h
  have hserves := h (upgrade.take 3) "k.so" [] rfl
  have hbacked := (serves_iff _ _ _ _).mp hserves [2] [1] (by decide) (by decide)
  revert hbacked
  decide

end Linqu.KernelLoading
