import Mathlib.Tactic

/-!
# Byte buffers

Numbers as bytes, most significant first; a buffer that is filled piece by
piece; and a cursor that takes pieces off the front of what is left. A store
or a read that leaves the buffer has no result.
-/

set_option autoImplicit false

namespace Linqu.Bytes

def toBytes : ℕ → ℕ → List UInt8
  | 0, _ => []
  | w+1, n => toBytes w (n/256)++[.ofNat n]

def ofBytes (l : List UInt8) : ℕ := l.foldl (fun n b => n*256+b.toNat) 0

@[simp] theorem length_toBytes (w n : ℕ) : (toBytes w n).length = w := by
  induction w generalizing n with
  | zero => rfl
  | succ w ih => simp [toBytes, ih]

theorem ofBytes_concat (l : List UInt8) (b : UInt8) : ofBytes (l++[b]) = ofBytes l*256+b.toNat := by
  simp [ofBytes]

theorem ofBytes_toBytes (w n : ℕ) : ofBytes (toBytes w n) = n % 256^w := by
  induction w generalizing n with
  | zero => simp [toBytes, ofBytes, Nat.mod_one]
  | succ w ih =>
    rw [toBytes, ofBytes_concat, ih, UInt8.toNat_ofNat', pow_succ' 256 w, Nat.mod_mul]
    omega

theorem toBytes_ofBytes (l : List UInt8) : toBytes l.length (ofBytes l) = l := by
  induction l using List.reverseRecOn with
  | nil => rfl
  | append_singleton l b ih =>
    have hb := b.toNat_lt
    have hdiv : ofBytes (l++[b])/256 = ofBytes l := by
      rw [ofBytes_concat]
      omega
    have hlast : UInt8.ofNat (ofBytes (l++[b])) = b := by
      apply UInt8.toNat_inj.mp
      rw [ofBytes_concat, UInt8.toNat_ofNat']
      omega
    rw [List.length_append, List.length_singleton, toBytes, hdiv, ih, hlast]

theorem ofBytes_lt (l : List UInt8) : ofBytes l < 256^l.length := by
  have h := ofBytes_toBytes l.length (ofBytes l)
  rw [toBytes_ofBytes] at h
  rw [h]
  exact Nat.mod_lt _ (pow_pos (by decide) _)

/-! ## Storing -/

def zeros (n : ℕ) : List UInt8 := List.replicate n 0

def store (buf : List UInt8) (off : ℕ) (bytes : List UInt8) : Option (List UInt8) :=
  if off+bytes.length ≤ buf.length then
    some (buf.take off++bytes++buf.drop (off+bytes.length))
  else none

/-- The pieces one after the other, from an offset on. -/
def storeAll : List (List UInt8) → ℕ → List UInt8 → Option (List UInt8)
  | [], _, buf => some buf
  | p::ps, off, buf => (store buf off p).bind (storeAll ps (off+p.length))

/-- The pieces in a new buffer. -/
def fill (size : ℕ) (ps : List (List UInt8)) : Option (List UInt8) := storeAll ps 0 (zeros size)

theorem storeAll_fits {ps : List (List UInt8)} {off : ℕ} {buf : List UInt8}
    (h : off+ps.flatten.length ≤ buf.length) :
    storeAll ps off buf = some (buf.take off++ps.flatten++buf.drop (off+ps.flatten.length)) := by
  induction ps generalizing off buf with
  | nil => simp [storeAll]
  | cons p ps ih =>
    simp only [List.flatten_cons, List.length_append] at h ⊢
    have hfit : off+p.length ≤ buf.length := by omega
    have hoff : (buf.take off++p).length = off+p.length := by
      simp
      omega
    have hdrop : ((buf.take off++p)++buf.drop (off+p.length)).drop
        (off+p.length+ps.flatten.length) = buf.drop (off+(p.length+ps.flatten.length)) := by
      rw [← List.drop_drop, List.drop_left' hoff, List.drop_drop, Nat.add_assoc]
    rw [storeAll, store, if_pos hfit, Option.bind_some, ih, List.take_left' hoff, hdrop]
    · simp
    · simp only [List.length_append, List.length_take, List.length_drop]
      omega

theorem storeAll_overflows {ps : List (List UInt8)} {off : ℕ} {buf : List UInt8}
    (hoff : off ≤ buf.length) (h : buf.length < off+ps.flatten.length) :
    storeAll ps off buf = none := by
  induction ps generalizing off buf with
  | nil => simp at h; omega
  | cons p ps ih =>
    simp only [List.flatten_cons, List.length_append] at h
    rw [storeAll, store]
    split
    · have hlen : (buf.take off++p++buf.drop (off+p.length)).length = buf.length := by
        simp only [List.length_append, List.length_take, List.length_drop]
        omega
      rw [Option.bind_some, ih]
      · rw [hlen]
        omega
      · rw [hlen]
        omega
    · rfl

theorem fill_fits {size : ℕ} {ps : List (List UInt8)} (h : ps.flatten.length ≤ size) :
    (fill size ps).isSome := by
  rw [fill, storeAll_fits (by simpa [zeros] using h)]
  rfl

theorem fill_exact (ps : List (List UInt8)) : fill ps.flatten.length ps = some ps.flatten := by
  rw [fill, storeAll_fits] <;> simp [zeros]

theorem fill_overflows {size : ℕ} {ps : List (List UInt8)} (h : size < ps.flatten.length) :
    fill size ps = none := by
  apply storeAll_overflows
  · exact Nat.zero_le _
  · simpa [zeros] using h

/-! ## Reading -/

/-- The next bytes, and what is left. -/
def read (n : ℕ) (data : List UInt8) : Option (List UInt8 × List UInt8) :=
  if n ≤ data.length then some (data.take n,data.drop n) else none

def readNat (w : ℕ) (data : List UInt8) : Option (ℕ × List UInt8) :=
  (read w data).map fun r => (ofBytes r.1,r.2)

theorem read_of_le {n : ℕ} {data : List UInt8} (h : n ≤ data.length) :
    read n data = some (data.take n,data.drop n) := if_pos h

theorem read_of_lt {n : ℕ} {data : List UInt8} (h : data.length < n) : read n data = none :=
  if_neg (by omega)

theorem readNat_of_le {n : ℕ} {data : List UInt8} (h : n ≤ data.length) :
    readNat n data = some (ofBytes (data.take n),data.drop n) := by
  rw [readNat, read_of_le h, Option.map_some]

theorem readNat_of_lt {n : ℕ} {data : List UInt8} (h : data.length < n) :
    readNat n data = none := by
  rw [readNat, read_of_lt h, Option.map_none]

@[simp] theorem read_append (b rest : List UInt8) : read b.length (b++rest) = some (b,rest) := by
  rw [read_of_le (by simp)]
  simp

theorem readNat_append {w n : ℕ} (h : n < 256^w) (rest : List UInt8) :
    readNat w (toBytes w n++rest) = some (n,rest) := by
  have hr := read_append (toBytes w n) rest
  rw [length_toBytes] at hr
  rw [readNat, hr, Option.map_some, ofBytes_toBytes, Nat.mod_eq_of_lt h]

end Linqu.Bytes
