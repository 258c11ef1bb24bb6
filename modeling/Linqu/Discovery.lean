import Linqu.FileTrees
import Linqu.Transport
import Linqu.PeerRegistry
import Linqu.Transition

/-!
# Discovery

A walk over the directories of a cluster enters every socket into the registry.
Daemons come and go, some without taking their socket away, and other programs
keep files of their own there: what is found are the daemons whose socket is
there, each once, in whatever order the directories are listed.
-/

set_option autoImplicit false

namespace Linqu.Discovery
open Linqu.FileTrees Linqu.SocketPaths Linqu.OrchestrationApi Linqu.PeerRegistry
open Linqu.Transport Linqu.Transition Linqu.Scanning

/-- What `lstat` says of an entry that is no directory. -/
inductive FileKind where
  | socket
  | other
  deriving DecidableEq, Repr

abbrev Directory := Listing Path FileKind

/-- The body of the loop of `scan_dir` for a file with that name. -/
def scanFile (full name : Path) (kind : FileKind) (r : PeerRegistry × ℕ) : PeerRegistry × ℕ :=
  if kind = .socket ∨ "daemon_L".toList <+: name then
    match parseSocketPath full with
    | some (coord,level) =>
      (r.1.add { coord, level, socketPath := String.ofList full, alive := true },r.2+1)
    | none => r
  else r

def scanDir (dir : Path) : Directory → PeerRegistry × ℕ → PeerRegistry × ℕ
  | .nil, r => r
  | .file name kind rest, r =>
    let full := dir ++ '/'::name
    scanDir dir rest (if name.head? = some '.' then r else scanFile full name kind r)
  | .dir name sub rest, r =>
    let full := dir ++ '/'::name
    scanDir dir rest (if name.head? = some '.' then r else scanDir full sub r)

/-- `opened` is what `opendir` finds under the base. There is no empty path. -/
def discover (base : Path) (opened : Option Directory) (r : PeerRegistry) : PeerRegistry × ℕ :=
  match opened with
  | some t => if base = [] then (r,0) else scanDir base t (r,0)
  | none => (r,0)

/-- The path below a directory. -/
def join (dir : Path) (path : List Path) : Path := dir++path.flatMap ('/'::·)

def visible (path : List Path) : Bool := path.all fun name => name.head? ≠ some '.'

/-- The peer that a file stands for. -/
def peerAt (base : Path) (path : List Path) (kind : FileKind) : Option PeerInfo :=
  if kind = .socket ∨ "daemon_L".toList <+: path.getLastD [] then
    (parseSocketPath (join base path)).map fun found =>
      { coord := found.1, level := found.2, socketPath := String.ofList (join base path) }
  else none

/-- The peers that a walk meets. -/
def peersIn (base : Path) (t : Directory) : List PeerInfo :=
  (t.files.filter fun f => visible f.1).filterMap fun f => peerAt base f.1 f.2

theorem join_concat (dir : Path) (path : List Path) (name : Path) :
    join dir (path++[name]) = join dir path ++ '/'::name := by
  simp [join]

/-- A peer that is met is entered and counted. -/
def enter (r : PeerRegistry × ℕ) : Option PeerInfo → PeerRegistry × ℕ
  | some info => (r.1.add info,r.2+1)
  | none => r

theorem scanFile_eq (base : Path) (path : List Path) (name : Path) (kind : FileKind)
    (r : PeerRegistry × ℕ) :
    scanFile (join base path ++ '/'::name) name kind r =
      enter r (peerAt base (path++[name]) kind) := by
  rw [scanFile, peerAt, join_concat]
  simp only [List.getLastD_concat]
  by_cases hk : kind = .socket ∨ "daemon_L".toList <+: name
  · rw [if_pos hk, if_pos hk]
    cases parseSocketPath (join base path ++ '/'::name) with
    | none => rfl
    | some found => rfl
  · rw [if_neg hk, if_neg hk]
    rfl

theorem foldl_enter {γ : Type} (f : γ → Option PeerInfo) (l : List γ) (r : PeerRegistry × ℕ) :
    l.foldl (fun r x => enter r (f x)) r =
      ((l.filterMap f).foldl PeerRegistry.add r.1,r.2+(l.filterMap f).length) := by
  induction l generalizing r with
  | nil => rfl
  | cons x l ih =>
    rw [List.foldl_cons, ih]
    cases hx : f x with
    | none => rw [List.filterMap_cons_none hx, enter]
    | some info =>
      rw [List.filterMap_cons_some hx, List.foldl_cons, List.length_cons, enter]
      simp only [Nat.add_assoc, Nat.add_comm 1]

theorem scanDir_walk (base : Path) (t : Directory) (path : List Path) (r : PeerRegistry × ℕ) :
    scanDir (join base path) t r = t.walk (fun name => name.head? ≠ some '.')
      (fun r path kind => enter r (peerAt base path kind)) path r := by
  induction t generalizing path r with
  | nil => rfl
  | file name kind rest ih =>
    rw [scanDir, Listing.walk, ih, scanFile_eq]
    by_cases hn : name.head? = some '.' <;> simp [hn]
  | dir name sub rest ihs ih =>
    rw [scanDir, Listing.walk, ih, ← join_concat, ihs]
    by_cases hn : name.head? = some '.' <;> simp [hn]

/-- The walk enters the peers one after the other. -/
theorem scanDir_eq (base : Path) (t : Directory) (r : PeerRegistry × ℕ) :
    scanDir base t r =
      ((peersIn base t).foldl PeerRegistry.add r.1,r.2+(peersIn base t).length) := by
  have hbase : join base [] = base := by simp [join]
  have hwalk := scanDir_walk base t [] r
  rw [hbase, Listing.walk_eq] at hwalk
  rw [hwalk]
  exact foldl_enter (fun f : List Path × FileKind => peerAt base f.1 f.2) _ r

section Registry

def key (info : PeerInfo) : CoordLevelKey := (info.coord,info.level)

/-- Peers of different keys are kept side by side. -/
theorem foldl_add {infos : List PeerInfo} {r : PeerRegistry} (hdiff : (infos.map key).Nodup)
    (hnew : ∀ info ∈ infos, ∀ e ∈ r.peers, e.1 ≠ key info) :
    (infos.foldl PeerRegistry.add r).peers =
      (infos.map fun info => (key info,info)).reverse++r.peers := by
  induction infos generalizing r with
  | nil => rfl
  | cons info infos ih =>
    obtain ⟨hother,hdiff⟩ := List.nodup_cons.mp hdiff
    have hadd : (r.add info).peers = (key info,info)::r.peers := by
      rw [PeerRegistry.add, List.filter_eq_self.mpr]
      · rfl
      · exact fun e he => decide_eq_true (hnew info List.mem_cons_self e he)
    rw [List.foldl_cons, ih hdiff, hadd]
    · simp
    · intro other ho e he
      rw [hadd] at he
      rcases List.mem_cons.mp he with rfl | he
      · exact fun hk => hother (List.mem_map.mpr ⟨other,ho,hk.symm⟩)
      · exact hnew other (List.mem_cons_of_mem _ ho) e he

theorem peersAtLevel_add {infos : List PeerInfo} (hdiff : (infos.map key).Nodup) (level : UInt8) :
    (infos.foldl PeerRegistry.add {}).peersAtLevel level =
      (infos.filter fun info => info.level = level ∧ info.alive).reverse := by
  have hpeers : (infos.foldl PeerRegistry.add {}).peers =
      (infos.map fun info => (key info,info)).reverse := by
    rw [foldl_add hdiff fun _ _ e he => absurd he (List.not_mem_nil)]
    exact List.append_nil _
  rw [PeerRegistry.peersAtLevel, hpeers, List.filter_reverse, List.filter_map, List.map_reverse,
    List.map_map]
  congr 1
  exact List.map_id _

end Registry

/-! The daemons. A process has an address for its lifetime. -/

section Places

variable {base : Path} {coord coord' : LinquCoordinate} {level level' : UInt8}

/-- Where a daemon has its socket, from the base. -/
def place (coord : LinquCoordinate) (level : UInt8) : List Path :=
  (components coord level).map component++[fileName level]

def infoAt (base : Path) (coord : LinquCoordinate) (level : UInt8) : PeerInfo :=
  { coord := kept coord level, level
    socketPath := String.ofList (join base (place coord level)) }

theorem join_place (base : Path) (coord : LinquCoordinate) (level : UInt8) :
    join base (place coord level) =
      (base++dirs (components coord level)) ++ '/'::fileName level := by
  rw [place, join_concat, join, List.flatMap_map]
  rfl

/-- The walk meets the socket under the path that the transport writes. -/
theorem makeSocketPath_join (coord : LinquCoordinate) (level : UInt8) (hbase : base ≠ [])
    (hend : base.getLast? ≠ some '/') :
    makeSocketPath base coord level = join base (place coord level) := by
  rw [makeSocketPath_eq, join_place, root]
  simp only [hbase, if_false, hend]

theorem parse_place (hb : ¬HasCoordinate base) (coord : LinquCoordinate) (level : UInt8) :
    parseSocketPath (join base (place coord level)) = some (kept coord level,level) := by
  have hscan : scan coordRe 0 (base++dirs (components coord level)) =
      (components coord level).map fun d => (Nat.toDigits 10 d.1,Nat.toDigits 10 d.2) :=
    scan_path hb _ _
  unfold parseSocketPath
  rw [join_place, splitLast_append _ (separator_not_in_fileName level)]
  simp only [sockRe_fileName, hscan, assign_components, atoi_byte, ofInt_byte]

theorem peerAt_place (hb : ¬HasCoordinate base) (coord : LinquCoordinate) (level : UInt8) :
    peerAt base (place coord level) .socket = some (infoAt base coord level) := by
  rw [peerAt, if_pos (Or.inl rfl), parse_place hb]
  rfl

theorem components_kept (coord : LinquCoordinate) (level : UInt8) :
    components (kept coord level) level = components coord level := by
  unfold components kept
  by_cases h5 : level ≤ 5 <;> by_cases h4 : level ≤ 4 <;> by_cases h3 : level ≤ 3 <;>
    simp [h5, h4, h3]

/-- Daemons that are entered under one key share a place. -/
theorem place_of_key (h : key (infoAt base coord level) = key (infoAt base coord' level')) :
    place coord level = place coord' level' := by
  obtain ⟨hc,hl⟩ := Prod.mk.inj h
  change level = level' at hl
  subst hl
  change kept coord level = kept coord' level at hc
  rw [place, place, ← components_kept, hc, components_kept]

theorem visible_place (coord : LinquCoordinate) (level : UInt8) : visible (place coord level) := by
  have hname : (fileName level).head? = some 'd' := by
    unfold fileName
    rw [show "daemon_L".toList = ['d','a','e','m','o','n','_','L'] by decide]
    rfl
  rw [visible, place, List.all_append, List.all_map, Bool.and_eq_true]
  constructor
  · rw [List.all_eq_true]
    intro d _
    rfl
  · rw [List.all_cons, hname]
    rfl

end Places

/-- The processes of a cluster, each with the address that it was started with. -/
structure Site (ι : Type) where
  base : Path
  coord : ι → LinquCoordinate
  level : ι → UInt8

/-- The files from the base on. Some daemons have `left` their socket behind. -/
structure Host (ι : Type) where
  disk : List Path → Option FileKind := fun _ => none
  listening : ι → Bool := fun _ => false
  left : ι → Bool := fun _ => false

/-- What the system calls of `start_listening` come to. -/
inductive Outcome where
  | listening
  | unbound
  | bound
  deriving DecidableEq, Repr

inductive Act (ι : Type) where
  | start (p : ι) (o : Outcome)
  | stop (p : ι)
  | crash (p : ι)
  | touch (path : List Path) (kind : Option FileKind)

section Hosts

variable {ι : Type} [DecidableEq ι] (site : Site ι)

def Site.place (p : ι) : List Path := Discovery.place (site.coord p) (site.level p)

def Site.path (p : ι) : Path := makeSocketPath site.base (site.coord p) (site.level p)

def Site.info (p : ι) : PeerInfo := infoAt site.base (site.coord p) (site.level p)

namespace Host

/-- The path is unlinked before it is found to be too long. -/
def startListening (h : Host ι) (p : ι) (o : Outcome) : Host ι :=
  if h.listening p then h
  else
    let h := { h with disk := Function.update h.disk (site.place p) none
                      left := Function.update h.left p false }
    if 108 ≤ (site.path p).length then h
    else
      match o with
      | .unbound => h
      | .bound =>
        { h with disk := Function.update h.disk (site.place p) (some .socket)
                 left := Function.update h.left p true }
      | .listening =>
        { h with disk := Function.update h.disk (site.place p) (some .socket)
                 listening := Function.update h.listening p true }

/-- The path is unlinked whether the daemon was listening or not. -/
def stop (h : Host ι) (p : ι) : Host ι :=
  { disk := Function.update h.disk (site.place p) none
    listening := Function.update h.listening p false
    left := Function.update h.left p false }

def crash (h : Host ι) (p : ι) : Host ι :=
  { h with listening := Function.update h.listening p false
           left := Function.update h.left p (h.left p || h.listening p) }

end Host

def step (h : Host ι) : Act ι → Host ι
  | .start p o => h.startListening site p o
  | .stop p => h.stop site p
  | .crash p => h.crash p
  | .touch path kind => { h with disk := Function.update h.disk path kind }

def Steps (h : Host ι) (a : Act ι) (h' : Host ι) : Prop := step site h a = h'

/-- The files of other programs are not those of a daemon, and are no peers. -/
def Apart (_ : Host ι) : Act ι → Prop
  | .touch path kind => (∀ p, path ≠ site.place p) ∧
      ∀ k, kind = some k → visible path = true → peerAt site.base path k = none
  | _ => True

/-- The daemon has its socket on the disk. -/
def Host.Shown (h : Host ι) (p : ι) : Prop := h.listening p = true ∨ h.left p = true

instance (h : Host ι) (p : ι) : Decidable (h.Shown p) := inferInstanceAs (Decidable (_ ∨ _))

structure Tidy (h : Host ι) : Prop where
  own : ∀ p, h.disk (site.place p) = if h.Shown p then some .socket else none
  others : ∀ path kind, h.disk path = some kind → (∀ p, path ≠ site.place p) →
    visible path = true → peerAt site.base path kind = none
  short : ∀ p, h.Shown p → (site.path p).length < 108

variable {site} {h h' : Host ι}

/-- A move of one daemon, which has its socket on the disk after it or not. -/
theorem Tidy.move (ht : Tidy site h) (hplace : Function.Injective site.place) {p : ι}
    {l f : Bool} (hshort : l = true ∨ f = true → (site.path p).length < 108)
    (hdisk : h'.disk = Function.update h.disk (site.place p)
      (if l = true ∨ f = true then some .socket else none))
    (hl : h'.listening = Function.update h.listening p l)
    (hf : h'.left = Function.update h.left p f) : Tidy site h' := by
  constructor
  · intro q
    by_cases hq : q = p
    · simp [hdisk, Host.Shown, hl, hf, hq]
    · have hne : site.place q ≠ site.place p := fun he => hq (hplace he)
      simp only [hdisk, Host.Shown, hl, hf, Function.update_of_ne hq, Function.update_of_ne hne]
      exact ht.own q
  · intro path kind hk hother
    rw [hdisk, Function.update_of_ne (hother p)] at hk
    exact ht.others path kind hk hother
  · intro q
    by_cases hq : q = p
    · simpa [Host.Shown, hl, hf, hq] using hshort
    · simp only [Host.Shown, hl, hf, Function.update_of_ne hq]
      exact ht.short q

theorem Tidy.start (ht : Tidy site h) (hplace : Function.Injective site.place) (p : ι)
    (o : Outcome) : Tidy site (h.startListening site p o) := by
  unfold Host.startListening
  by_cases hup : h.listening p = true
  · rwa [if_pos hup]
  · have hdown : h.listening = Function.update h.listening p false := by
      rw [← Bool.eq_false_iff.mpr hup, Function.update_eq_self]
    rw [if_neg hup]
    by_cases hlong : 108 ≤ (site.path p).length
    · rw [if_pos hlong]
      exact ht.move hplace (l := false) (f := false) (by simp) (by simp) hdown rfl
    · have hfits : (site.path p).length < 108 := Nat.lt_of_not_le hlong
      rw [if_neg hlong]
      cases o with
      | unbound => exact ht.move hplace (l := false) (f := false) (by simp) (by simp) hdown rfl
      | bound =>
        exact ht.move hplace (l := false) (f := true) (fun _ => hfits) (by simp) hdown (by simp)
      | listening =>
        exact ht.move hplace (l := true) (f := false) (fun _ => hfits) (by simp) rfl rfl

theorem Tidy.step (ht : Tidy site h) (hplace : Function.Injective site.place) {a : Act ι}
    (ha : Apart site h a) (hs : Steps site h a h') : Tidy site h' := by
  cases hs
  cases a with
  | start p o => exact ht.start hplace p o
  | stop p => exact ht.move hplace (l := false) (f := false) (by simp) (by simp [Discovery.step,
      Host.stop]) rfl rfl
  | crash p =>
    have hown := ht.own p
    refine ht.move hplace (l := false) (f := h.left p || h.listening p) ?_ ?_ rfl rfl
    · intro hf
      exact ht.short p (by simpa [Host.Shown, or_comm] using hf)
    · change h.disk = _
      rw [eq_comm, Function.update_eq_self_iff, hown]
      exact if_congr (by simp [Host.Shown, or_comm]) rfl rfl
  | touch path kind =>
    obtain ⟨hne,hnone⟩ := ha
    constructor
    · intro q
      change Function.update h.disk path kind (site.place q) = _
      rw [Function.update_of_ne (hne q).symm]
      exact ht.own q
    · intro path' kind' hk hother
      change Function.update h.disk path kind path' = _ at hk
      by_cases hp : path' = path
      · rw [hp, Function.update_self] at hk
        rw [hp]
        exact hnone kind' hk
      · rw [Function.update_of_ne hp] at hk
        exact ht.others path' kind' hk hother
    · exact ht.short

theorem tidy_run {acts : List (Act ι)} (hplace : Function.Injective site.place)
    (hrun : Run (Steps site) acts {} h) (hapart : Guarded (Steps site) (Apart site) acts {}) :
    Tidy site h := by
  refine run_invariant (P := Tidy site) (fun _ _ _ hu ha hs => hu.step hplace ha hs) ?_ hapart hrun
  exact ⟨fun _ => rfl,fun _ _ hk => (by cases hk),fun _ hp => by
    rcases hp with hp | hp <;> cases hp⟩

omit [DecidableEq ι] in
/-- A file that the walk takes for a peer is the socket of a daemon. -/
theorem Tidy.peer (ht : Tidy site h) (hb : ¬HasCoordinate site.base) {path : List Path}
    {kind : FileKind} {info : PeerInfo} (hdisk : h.disk path = some kind)
    (hvisible : visible path = true) (hpeer : peerAt site.base path kind = some info) :
    ∃ p, h.Shown p ∧ path = site.place p ∧ info = site.info p := by
  by_cases hown : ∃ p, path = site.place p
  · obtain ⟨p,rfl⟩ := hown
    rw [ht.own p] at hdisk
    by_cases hp : h.Shown p
    · rw [if_pos hp] at hdisk
      cases hdisk
      rw [Site.place, peerAt_place hb] at hpeer
      exact ⟨p,hp,rfl,(Option.some.inj hpeer).symm⟩
    · rw [if_neg hp] at hdisk
      cases hdisk
  · rw [ht.others path kind hdisk (fun p hp => hown ⟨p,hp⟩) hvisible] at hpeer
    cases hpeer

variable {t : Directory}

omit [DecidableEq ι] in
theorem Tidy.mem_peersIn (ht : Tidy site h) (hb : ¬HasCoordinate site.base)
    (hlist : t.Lists h.disk) (info : PeerInfo) :
    info ∈ peersIn site.base t ↔ ∃ p, h.Shown p ∧ info = site.info p := by
  constructor
  · intro hm
    obtain ⟨f,hf,hpeer⟩ := List.mem_filterMap.mp hm
    obtain ⟨hmem,hvisible⟩ := List.mem_filter.mp hf
    obtain ⟨p,hp,-,hinfo⟩ := ht.peer hb ((hlist.mem f.1 f.2).mp hmem) hvisible hpeer
    exact ⟨p,hp,hinfo⟩
  · rintro ⟨p,hp,rfl⟩
    refine List.mem_filterMap.mpr ⟨(site.place p,.socket),List.mem_filter.mpr ⟨?_,?_⟩,?_⟩
    · rw [hlist.mem, ht.own p, if_pos hp]
    · exact visible_place _ _
    · exact peerAt_place hb _ _

omit [DecidableEq ι] in
/-- No two of the peers that the walk meets are entered under one key. -/
theorem Tidy.keys (ht : Tidy site h) (hb : ¬HasCoordinate site.base)
    (hlist : t.Lists h.disk) : ((peersIn site.base t).map key).Nodup := by
  have hpaths := hlist.proper.nodup
  rw [List.Nodup, List.pairwise_map] at hpaths
  rw [List.Nodup, List.pairwise_map, peersIn, List.pairwise_filterMap, List.pairwise_filter]
  refine hpaths.imp_of_mem fun {f f'} hf hf' hne hv hv' info hinfo info' hinfo' hkey => hne ?_
  obtain ⟨p,-,hpath,rfl⟩ := ht.peer hb ((hlist.mem f.1 f.2).mp hf) hv hinfo
  obtain ⟨p',-,hpath',rfl⟩ := ht.peer hb ((hlist.mem f'.1 f'.2).mp hf') hv' hinfo'
  rw [hpath, hpath']
  exact place_of_key hkey

end Hosts

/-- Two hosts of one pod. -/
def pod : Site (Fin 2) :=
  { base := "/pod".toList, coord := fun p => { l3Idx := .ofNat p.val }, level := fun _ => 3 }

def notes : Path := "notes".toList

/-- The second host crashes, and the first is stopped. -/
def partly : List (Act (Fin 2)) :=
  [.start 0 .listening,.touch [notes] (some .other),.start 1 .listening,.crash 1,.stop 0]

def podTree : Directory :=
  .file notes .other (.dir "L6_0".toList (.dir "L5_0".toList (.dir "L4_0".toList
    (.dir "L3_1".toList (.file "daemon_L3.sock".toList .socket .nil) .nil) .nil) .nil) .nil)

theorem podTree_files : podTree.files = [([notes],.other),(pod.place 1,.socket)] := by
  decide +kernel

theorem pod_place : Function.Injective pod.place := by
  intro p q
  revert p q
  decide +kernel

theorem partly_run : ∃ h, Run (Steps pod) partly {} h ∧ podTree.Lists h.disk ∧
    ∀ p, h.Shown p ↔ p = 1 := by
  refine ⟨_,⟨_,rfl,_,rfl,_,rfl,_,rfl,_,rfl,rfl⟩,⟨?_,?_⟩,?_⟩
  · simp [podTree, Listing.Proper, Listing.names, notes]
  · intro path kind
    have h01 : pod.place 0 ≠ pod.place 1 := by decide +kernel
    have h0 : pod.place 0 ≠ [notes] := by decide +kernel
    have h1 : pod.place 1 ≠ [notes] := by decide +kernel
    rw [podTree_files]
    change _ ↔ Function.update (Function.update (Function.update (Function.update (Function.update
      (Function.update (fun _ => none) (pod.place 0) none) (pod.place 0) (some FileKind.socket))
      [notes] (some .other)) (pod.place 1) none) (pod.place 1) (some .socket))
      (pod.place 0) none path = some kind
    by_cases hp0 : path = pod.place 0
    · simp [hp0, h0, h01]
    · by_cases hp1 : path = pod.place 1
      · simp [hp1, h01.symm, h1.symm, eq_comm]
      · by_cases hn : path = [notes]
        · simp [hn, h0.symm, h1.symm, eq_comm]
        · simp [hp0, hp1, hn]
  · decide +kernel

end Linqu.Discovery
