import Linqu.KernelLoading
import Linqu.Scanning

/-!
# Code under the hash of its content

A daemon registers every binary under a name made of its hash. As long as the
binaries of one hash are the same, the kernels kept since they were first loaded
do no harm: a load gives the kernel of the binary that was registered.
-/

set_option autoImplicit false

namespace Linqu.CodeStore
open Linqu.KernelLoading Linqu.Scanning

/-- The bytes of a string, one character each. -/
def nameOf (bytes : List UInt8) : String := String.ofList (bytes.map fun b => Char.ofNat b.toNat)

/-- The name that `handle_reg_code` gives to a binary: `blob_`, the hash, `.so`. -/
def blobName (hash : UInt64) : List UInt8 :=
  [98,108,111,98,95]++((Nat.toDigits 10 hash.toNat).map fun c => .ofNat c.toNat)++[46,115,111]

theorem nameOf_injective : Function.Injective nameOf := by
  intro a b h
  have hbyte : Function.Injective fun b : UInt8 => Char.ofNat b.toNat := by
    intro x y hxy
    have hchar : ∀ z : UInt8, (Char.ofNat z.toNat).toNat = z.toNat := by
      intro z
      have hz := z.toNat_lt
      rw [Char.ofNat, dif_pos (Or.inl (by omega))]
      rfl
    have hnat := congrArg Char.toNat hxy
    rw [hchar, hchar] at hnat
    exact UInt8.toNat_inj.mp hnat
  exact hbyte.list_map (String.ofList_injective h)

/-- A digit is kept in a byte. -/
theorem ofNat_digit {c : Char} (h : c.isDigit) : Char.ofNat (UInt8.ofNat c.toNat).toNat = c := by
  have hc : c.toNat < 2^8 := by
    have hle : c.toNat ≤ 57 := (Char.isDigit_iff_toNat.mp h).2
    omega
  rw [UInt8.toNat_ofNat', Nat.mod_eq_of_lt hc, Char.ofNat_toNat]

theorem blobName_injective : Function.Injective blobName := by
  intro a b h
  have hdigits : ∀ n, ((Nat.toDigits 10 n).map fun c => UInt8.ofNat c.toNat).map
      (fun b => Char.ofNat b.toNat) = Nat.toDigits 10 n := by
    intro n
    rw [List.map_map, List.map_congr_left (g := id)]
    · exact List.map_id _
    · exact fun c hc => ofNat_digit ((digits_toDigits n).2 c hc)
  have hbytes := List.append_cancel_left (List.append_cancel_right h)
  have hchars := congrArg (List.map fun b : UInt8 => Char.ofNat b.toNat) hbytes
  rw [hdigits, hdigits] at hchars
  have hnat := congrArg (fun ds => Nat.ofDigitChars 10 ds 0) hchars
  simp only [Nat.ofDigitChars_ten_toDigits] at hnat
  exact UInt64.toNat_inj.mp hnat

variable {Handle Entry Config File : Type} [DecidableEq File]
  (sys : System Handle Entry Config File)

/-- The path of the file of a binary. -/
def blobPath (hash : UInt64) : String := path sys (nameOf (blobName hash))

omit [DecidableEq File] in
theorem blobPath_injective : Function.Injective (blobPath sys) := by
  intro a b h
  have happ : ∀ p x y : String, p++x = p++y → x = y := by
    intro p x y hxy
    have hlist := congrArg String.toList hxy
    rw [String.toList_append, String.toList_append] at hlist
    exact String.toList_inj.mp (List.append_cancel_left hlist)
  exact blobName_injective (nameOf_injective (happ _ _ _ h))

/-- What is stored under a name, in the maps and on the disk. Files are only
those of binaries that were registered by hash. -/
structure Stored (h : History File) (code : List UInt8 → Option Binary) : Prop where
  latest : ∀ name, h.latest (nameOf name) = code name
  named : ∀ name b, code name = some b → ∃ hash, name = blobName hash
  file : ∀ name b, code name = some b → h.onFile (sys.resolve (path sys (nameOf name))) = some b
  kept : ∀ name b, h.kept (nameOf name) = some b → code name = some b

variable {sys} {h : History File} {code : List UInt8 → Option Binary}

omit [DecidableEq File] in
theorem Stored.backing (hs : Stored sys h code) {name : List UInt8} {b : Binary}
    (hb : code name = some b) : backing sys h (nameOf name) = some b := by
  rw [KernelLoading.backing, hs.file name b hb]
  cases hk : h.kept (nameOf name) with
  | none => rfl
  | some b' =>
    have hcode := hs.kept name b' hk
    rw [hb] at hcode
    cases hcode
    rfl

/-- Another binary may be registered under another hash. -/
theorem Stored.register (hs : Stored sys h code)
    (hfiles : ∀ x y, sys.resolve (blobPath sys x) = sys.resolve (blobPath sys y) →
      blobPath sys x = blobPath sys y) {hash : UInt64} {b : Binary}
    (hsame : ∀ b', code (blobName hash) = some b' → b' = b) :
    Stored sys (next sys h (.registerCode (nameOf (blobName hash)) b))
      (Function.update code (blobName hash) (some b)) := by
  constructor
  · intro name
    change Function.update h.latest _ _ _ = _
    by_cases hn : name = blobName hash
    · simp [hn]
    · have hne : nameOf name ≠ nameOf (blobName hash) := fun he => hn (nameOf_injective he)
      rw [Function.update_of_ne hn, Function.update_of_ne hne, hs.latest]
  · intro name b' hb'
    by_cases hn : name = blobName hash
    · exact ⟨hash,hn⟩
    · rw [Function.update_of_ne hn] at hb'
      exact hs.named name b' hb'
  · intro name b' hb'
    change Function.update h.onFile _ _ _ = _
    by_cases hn : name = blobName hash
    · rw [hn, Function.update_self] at hb' ⊢
      exact hb'
    · rw [Function.update_of_ne hn] at hb'
      obtain ⟨x,rfl⟩ := hs.named name b' hb'
      have hne : sys.resolve (path sys (nameOf (blobName x))) ≠
          sys.resolve (path sys (nameOf (blobName hash))) := by
        intro he
        exact hn (congrArg blobName (blobPath_injective sys (hfiles x hash he)))
      rw [Function.update_of_ne hne]
      exact hs.file _ b' hb'
  · intro name b' hb'
    have hcode := hs.kept name b' hb'
    by_cases hn : name = blobName hash
    · rw [hn] at hcode
      rw [hn, Function.update_self, hsame b' hcode]
    · rwa [Function.update_of_ne hn]

theorem Stored.load (hs : Stored sys h code) (name : List UInt8) :
    Stored sys (next sys h (.load (nameOf name))) code := by
  rw [next]
  split
  · rename_i hc
    refine { hs with kept := fun other b hb => ?_ }
    change Function.update h.kept _ _ _ = some b at hb
    by_cases hn : other = name
    · obtain ⟨b',hb'⟩ := Option.isSome_iff_exists.mp hc.1
      rw [hs.latest] at hb'
      rw [hn, Function.update_self, hs.backing hb'] at hb
      rw [hn, hb', hb]
    · have hne : nameOf other ≠ nameOf name := fun he => hn (nameOf_injective he)
      rw [Function.update_of_ne hne] at hb
      exact hs.kept other b hb
  · exact hs

omit [DecidableEq File] in
/-- A load gives the kernel of the binary that is stored under the name. -/
theorem Stored.entry {s : CodeCache Handle Entry Config File} (hs : Stored sys h code)
    (ht : Tracks sys s h) (name : List UInt8) :
    (KernelLoading.load sys s (nameOf name)).1.entryFn =
      (code name).bind fun b => (kernelOf sys (path sys (nameOf name)) b).entryFn := by
  have hlatest := hs.latest name
  cases hc : code name with
  | none =>
    rw [hc] at hlatest
    rw [ht.load_unregistered hlatest]
    rfl
  | some b =>
    rw [hc] at hlatest
    rw [(ht.load_registered hlatest (hs.backing hc)).1]
    rfl

end Linqu.CodeStore
