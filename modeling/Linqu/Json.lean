import Linqu.Scanning

/-!
# Reading JSON

A decoder for JSON texts and rules for what it makes of printed ones. A rule
says exactly when a printed piece is read as the value it stands for, whatever
comes behind the characters that follow it.
-/

set_option autoImplicit false

namespace Linqu.Json
open Linqu.Scanning

abbrev Text := List Char

/-- A number is `m*10^e`, a string the list of its code points. -/
inductive Value where
  | null
  | bool (b : Bool)
  | num (m e : ℤ)
  | str (s : List ℕ)
  | arr (xs : List Value)
  | obj (members : List (List ℕ × Value))

def codes (s : Text) : List ℕ := s.map Char.toNat

def isSpace (c : Char) : Bool := c = ' ' || c = '\t' || c = '\n' || c = '\r'

def skipSpace (cs : Text) : Text := cs.dropWhile isSpace

/-- What stands behind the next character, which has to be `c`. -/
def expect (c : Char) (cs : Text) : Option Text :=
  match skipSpace cs with
  | d::r => if d = c then some r else none
  | [] => none

/-! Strings. An escape stands for a UTF-16 unit. -/

inductive Mode where
  | plain
  | escape
  | unicode (left acc : ℕ)

def escapeOf (c : Char) : Option ℕ :=
  if c = '"' ∨ c = '\\' ∨ c = '/' then some c.toNat
  else if c = 'b' then some 8
  else if c = 'f' then some 12
  else if c = 'n' then some 10
  else if c = 'r' then some 13
  else if c = 't' then some 9
  else none

def hexOf (c : Char) : Option ℕ :=
  if c.isDigit then some (c.toNat-48)
  else if 'a' ≤ c ∧ c ≤ 'f' then some (c.toNat-87)
  else if 'A' ≤ c ∧ c ≤ 'F' then some (c.toNat-55)
  else none

/-- The units up to the closing quote, and what stands behind it. -/
def units : Mode → Text → Option (List ℕ × Text)
  | _, [] => none
  | .plain, c::cs =>
    if c = '"' then some ([],cs)
    else if c = '\\' then units .escape cs
    else if c.toNat < 32 then none
    else (units .plain cs).map fun u => (c.toNat::u.1,u.2)
  | .escape, c::cs =>
    if c = 'u' then units (.unicode 3 0) cs
    else (escapeOf c).bind fun d => (units .plain cs).map fun u => (d::u.1,u.2)
  | .unicode 0 acc, c::cs =>
    (hexOf c).bind fun d => (units .plain cs).map fun u => ((16*acc+d)::u.1,u.2)
  | .unicode (n+1) acc, c::cs => (hexOf c).bind fun d => units (.unicode n (16*acc+d)) cs

/-- Surrogate pairs become one code point. -/
def pair : List ℕ → List ℕ
  | [] => []
  | [u] => [u]
  | hi::lo::us =>
    if 0xD800 ≤ hi ∧ hi < 0xDC00 ∧ 0xDC00 ≤ lo ∧ lo < 0xE000 then
      (0x10000+(hi-0xD800)*0x400+(lo-0xDC00))::pair us
    else hi::pair (lo::us)

def string (cs : Text) : Option (List ℕ × Text) :=
  (units .plain cs).map fun u => (pair u.1,u.2)

/-! Numbers. -/

def digits (cs : Text) : Option (Text × Text) :=
  if cs.takeWhile Char.isDigit = [] then none
  else some (cs.takeWhile Char.isDigit,cs.dropWhile Char.isDigit)

def natural (cs : Text) : Option (Text × Text) :=
  (digits cs).bind fun d => if d.1.head? = some '0' ∧ d.1.length ≠ 1 then none else some d

def fraction : Text → Option (Text × Text)
  | [] => some ([],[])
  | c::cs => if c = '.' then digits cs else some ([],c::cs)

def signed : Text → Option (ℤ × Text)
  | [] => none
  | c::cs =>
    if c = '-' then (digits cs).map fun d => (-(Nat.ofDigitChars 10 d.1 0 : ℤ),d.2)
    else if c = '+' then (digits cs).map fun d => ((Nat.ofDigitChars 10 d.1 0 : ℤ),d.2)
    else (digits (c::cs)).map fun d => ((Nat.ofDigitChars 10 d.1 0 : ℤ),d.2)

def exponent : Text → Option (ℤ × Text)
  | [] => some (0,[])
  | c::cs => if c = 'e' ∨ c = 'E' then signed cs else some (0,c::cs)

def magnitude (sign : ℤ) (cs : Text) : Option (Value × Text) :=
  (natural cs).bind fun i => (fraction i.2).bind fun f => (exponent f.2).map fun e =>
    (.num (sign*Nat.ofDigitChars 10 (i.1++f.1) 0) (e.1-f.1.length),e.2)

def number : Text → Option (Value × Text)
  | [] => none
  | c::cs => if c = '-' then magnitude (-1) cs else magnitude 1 (c::cs)

/-! Values. -/

section Lists
variable {β : Type} (p : Text → Option (β × Text)) (close : Char)

/-- Elements up to the closing bracket, at most as many as the fuel says. -/
def items : ℕ → Text → Option (List β × Text)
  | 0, _ => none
  | n+1, cs =>
    (p cs).bind fun x =>
      match skipSpace x.2 with
      | [] => none
      | c::r =>
        if c = ',' then (items n r).map fun xs => (x.1::xs.1,xs.2)
        else if c = close then some ([x.1],r)
        else none

def list (cs : Text) : Option (List β × Text) :=
  match expect close cs with
  | some r => some ([],r)
  | none => items p close cs.length cs

def member (cs : Text) : Option ((List ℕ × β) × Text) :=
  (expect '"' cs).bind fun r => (string r).bind fun k =>
    (expect ':' k.2).bind fun r => (p r).map fun v => ((k.1,v.1),v.2)

end Lists

def keyword (word : Text) (v : Value) (cs : Text) : Option (Value × Text) :=
  if word <+: cs then some (v,cs.drop word.length) else none

/-- The fuel bounds the nesting. -/
def value : ℕ → Text → Option (Value × Text)
  | 0, _ => none
  | n+1, cs =>
    match skipSpace cs with
    | [] => none
    | c::r =>
      if c = '{' then (list (member (value n)) '}' r).map fun v => (.obj v.1,v.2)
      else if c = '[' then (list (value n) ']' r).map fun v => (.arr v.1,v.2)
      else if c = '"' then (string r).map fun v => (.str v.1,v.2)
      else if c = 't' then keyword "rue".toList (.bool true) r
      else if c = 'f' then keyword "alse".toList (.bool false) r
      else if c = 'n' then keyword "ull".toList .null r
      else number (c::r)

/-- The value of a whole text: every level of nesting takes a character. -/
def parse (text : Text) : Option Value :=
  (value text.length text).bind fun v => if skipSpace v.2 = [] then some v.1 else none

/-! Rules. -/

/-- A printed piece, what it stands for, and when it is readable. -/
structure Piece (β : Type) where
  text : Text
  value : β
  ok : Prop

section Rules
variable {β : Type} {p : Text → Option (β × Text)} {close : Char} {follow ws sep stop : Text}

/-- In front of `follow` the piece is read as its value exactly when it is
readable, and then it is read to its end. -/
def Reads (p : Text → Option (β × Text)) (follow : Text) (e : Piece β) : Prop :=
  ∀ rest r, p (e.text++(follow++rest)) = some (e.value,r) ↔ e.ok ∧ r = follow++rest

theorem Reads.congr {e : Piece β} {t : Text} {v : β} {ok : Prop} (h : Reads p follow e)
    (ht : e.text = t) (hv : e.value = v) (hok : e.ok ↔ ok) : Reads p follow ⟨t,v,ok⟩ := by
  intro rest r
  rw [← ht, ← hv, ← hok]
  exact h rest r

def Blank (ws : Text) : Prop := ∀ c ∈ ws, isSpace c

def SkipsSpace (p : Text → Option (β × Text)) : Prop :=
  ∀ ws cs, Blank ws → p (ws++cs) = p cs

theorem blank_append {ws ws' : Text} : Blank (ws++ws') ↔ Blank ws ∧ Blank ws' := by
  simp [Blank, or_imp, forall_and]

theorem blank_nil : Blank [] := by
  simp [Blank]

theorem blank_line : Blank ['\n'] := by
  simp [Blank, isSpace]

theorem skipSpace_append {ws : Text} (h : Blank ws) (cs : Text) :
    skipSpace (ws++cs) = skipSpace cs := by
  unfold skipSpace
  rw [List.dropWhile_append_of_pos h]

theorem skipSpace_cons {c : Char} (h : isSpace c = false) (cs : Text) :
    skipSpace (c::cs) = c::cs := by
  simp [skipSpace, h]

theorem expect_append {ws : Text} (h : Blank ws) (c : Char) (cs : Text) :
    expect c (ws++cs) = expect c cs := by
  simp [expect, skipSpace_append h]

theorem expect_cons {c d : Char} (h : isSpace d = false) (cs : Text) :
    expect c (d::cs) = if d = c then some cs else none := by
  simp [expect, skipSpace_cons h]

theorem skipsSpace_value (n : ℕ) : SkipsSpace (value n) := by
  intro ws cs h
  cases n with
  | zero => simp [value]
  | succ n => simp [value, skipSpace_append h]

theorem skipsSpace_member : SkipsSpace (member p) := by
  intro ws cs h
  simp [member, expect_append h]

theorem Reads.space {e : Piece β} (hp : SkipsSpace p) (hws : Blank ws) (h : Reads p follow e) :
    Reads p follow ⟨ws++e.text,e.value,e.ok⟩ := by
  intro rest r
  rw [List.append_assoc, hp _ _ hws]
  exact h rest r

theorem items_append (hp : SkipsSpace p) {ws : Text} (h : Blank ws) (n : ℕ) (cs : Text) :
    items p close n (ws++cs) = items p close n cs := by
  cases n with
  | zero => simp [items]
  | succ n => simp [items, hp ws cs h]

/-- Pieces with separators between them and the bracket behind. -/
def joined (sep stop : Text) : List (Piece β) → Text
  | [] => stop
  | [e] => e.text++stop
  | e::es => e.text++(sep++joined sep stop es)

def AllRead (p : Text → Option (β × Text)) (sep stop : Text) : List (Piece β) → Prop
  | [] => True
  | [e] => Reads p stop e
  | e::es => Reads p sep e ∧ AllRead p sep stop es

theorem allRead_of {es : List (Piece β)} (h : ∀ e ∈ es, Reads p sep e ∧ Reads p stop e) :
    AllRead p sep stop es := by
  induction es with
  | nil => trivial
  | cons e es ih =>
    cases es with
    | nil => exact (h e (by simp)).2
    | cons d es => exact ⟨(h e (by simp)).1,ih fun x hx => h x (by simp [hx])⟩

/-- A comma and a closing bracket, with blanks where they may stand. -/
structure Brackets (close : Char) (sep stop : Text) : Prop where
  sep : ∃ ws, Blank ws ∧ sep = ',' :: ws
  stop : ∃ ws, Blank ws ∧ stop = ws++[close]
  close : isSpace close = false ∧ close ≠ ','

/-- One piece a line, and the closing bracket on a line of its own. -/
theorem brackets_lines {outer : Text} (ho : Blank outer)
    (hclose : isSpace close = false ∧ close ≠ ',') :
    Brackets close [',','\n'] ('\n'::(outer++[close])) :=
  { sep := ⟨['\n'],blank_line,rfl⟩
    stop := ⟨['\n']++outer,blank_append.mpr ⟨blank_line,ho⟩,rfl⟩
    close := hclose }

theorem length_joined (hb : Brackets close sep stop) (es : List (Piece β)) :
    es.length ≤ (joined sep stop es).length := by
  obtain ⟨before,-,hstop⟩ := hb.stop
  obtain ⟨behind,-,hsep⟩ := hb.sep
  have h1 : 0 < stop.length := by simp [hstop]
  have h2 : 0 < sep.length := by simp [hsep]
  induction es with
  | nil => simp
  | cons e es ih =>
    cases es with
    | nil =>
      simp only [joined, List.length_append, List.length_singleton]
      omega
    | cons d es =>
      simp only [joined, List.length_append, List.length_cons] at ih ⊢
      omega

theorem items_cons {n : ℕ} {cs : Text} {x : β} {xs : List β} {r : Text} :
    items p close (n+1) cs = some (x::xs,r) ↔ ∃ r₁, p cs = some (x,r₁) ∧
      ((∃ r₂, skipSpace r₁ = ',' :: r₂ ∧ items p close n r₂ = some (xs,r)) ∨
        xs = [] ∧ skipSpace r₁ = close::r ∧ close ≠ ',') := by
  simp only [items, Option.bind_eq_some_iff]
  constructor
  · intro ⟨⟨v,r₁⟩,hv,h⟩
    split at h
    · simp at h
    · rename_i c r₂ hskip
      by_cases hc : c = ','
      · simp only [hc, if_true, Option.map_eq_some_iff, Prod.mk.injEq, List.cons.injEq] at h
        obtain ⟨⟨ys,r₃⟩,hys,⟨rfl,rfl⟩,rfl⟩ := h
        exact ⟨r₁,hv,Or.inl ⟨r₂,by rw [hskip, hc],hys⟩⟩
      · by_cases hd : c = close
        · subst hd
          simp only [hc, if_false, if_true, Option.some.injEq, Prod.mk.injEq,
            List.cons.injEq] at h
          obtain ⟨⟨rfl,rfl⟩,rfl⟩ := h
          exact ⟨r₁,hv,Or.inr ⟨rfl,hskip,hc⟩⟩
        · simp [hc, hd] at h
  · intro ⟨r₁,hv,h⟩
    refine ⟨(x,r₁),hv,?_⟩
    rcases h with ⟨r₂,hskip,hxs⟩ | ⟨rfl,hskip,hne⟩
    · simp [hskip, hxs]
    · simp [hskip, hne]

/-- The elements are read one after the other. -/
theorem items_joined (hp : SkipsSpace p) (hb : Brackets close sep stop) (es : List (Piece β))
    (hne : es ≠ []) (hes : AllRead p sep stop es) {n : ℕ} (hn : es.length ≤ n) (rest r : Text) :
    items p close n (joined sep stop es++rest) = some (es.map Piece.value,r) ↔
      (∀ e ∈ es, e.ok) ∧ r = rest := by
  obtain ⟨before,hbefore,hstop⟩ := hb.stop
  obtain ⟨behind,hbehind,hsep⟩ := hb.sep
  have hclose : skipSpace (stop++rest) = close::rest := by
    rw [hstop, List.append_assoc, skipSpace_append hbefore]
    exact skipSpace_cons hb.close.1 rest
  induction es generalizing n with
  | nil => exact absurd rfl hne
  | cons e es ih =>
    obtain ⟨n,rfl⟩ : ∃ m, n = m+1 := ⟨n-1,by simp only [List.length_cons] at hn; omega⟩
    rw [List.map_cons, items_cons]
    cases es with
    | nil =>
      have he : ∀ r₁, p (joined sep stop [e]++rest) = some (e.value,r₁) ↔
          e.ok ∧ r₁ = stop++rest := fun r₁ => by
        simpa [joined] using hes rest r₁
      simp only [he]
      constructor
      · intro ⟨r₁,⟨hok,hr₁⟩,h⟩
        rw [hr₁, hclose] at h
        have hcomma := hb.close.2
        simp_all
      · intro ⟨hok,hr⟩
        exact ⟨_,⟨hok e (by simp),rfl⟩,Or.inr ⟨rfl,by rw [hclose, hr],hb.close.2⟩⟩
    | cons d es =>
      have he : ∀ r₁, p (joined sep stop (e::d::es)++rest) = some (e.value,r₁) ↔
          e.ok ∧ r₁ = sep++(joined sep stop (d::es)++rest) := fun r₁ => by
        simpa [joined] using hes.1 (joined sep stop (d::es)++rest) r₁
      have hcomma : skipSpace (sep++(joined sep stop (d::es)++rest)) =
          ',' :: (behind++(joined sep stop (d::es)++rest)) := by
        rw [hsep]
        exact skipSpace_cons (by decide) _
      have hrest := ih (by simp) hes.2 (n := n) (by simp only [List.length_cons] at hn ⊢; omega)
      simp only [he]
      constructor
      · intro ⟨r₁,⟨hok,hr₁⟩,h⟩
        rw [hr₁, hcomma] at h
        rcases h with ⟨r₂,heq,hitems⟩ | ⟨hnil,-⟩
        · simp only [List.cons.injEq, true_and] at heq
          rw [← heq, items_append hp hbehind] at hitems
          obtain ⟨hall,hr⟩ := hrest.mp hitems
          simp_all
        · simp at hnil
      · intro ⟨hall,hr⟩
        refine ⟨_,⟨hall e (by simp),rfl⟩,Or.inl ⟨_,hcomma,?_⟩⟩
        rw [items_append hp hbehind]
        exact hrest.mpr ⟨fun x hx => hall x (by simp [hx]),hr⟩

theorem list_nil (hws : Blank ws) (hclose : isSpace close = false) :
    Reads (list p close) follow ⟨ws++[close],[],True⟩ := by
  intro rest r
  simp [list, expect_append hws, expect_cons hclose, eq_comm]

theorem list_joined (hp : SkipsSpace p) (hb : Brackets close sep stop) {e : Piece β}
    {es : List (Piece β)} (follow : Text) (hws : Blank ws)
    (hopen : ∀ cs, expect close (e.text++cs) = none) (hes : AllRead p sep stop (e::es)) :
    Reads (list p close) follow ⟨ws++joined sep stop (e::es),(e::es).map Piece.value,
      ∀ x ∈ e::es, x.ok⟩ := by
  intro rest r
  have hfirst : ∀ cs, expect close (joined sep stop (e::es)++cs) = none := by
    intro cs
    cases es with
    | nil => simpa [joined] using hopen (stop++cs)
    | cons d es => simpa [joined] using hopen (sep++(joined sep stop (d::es)++cs))
  have hlen := length_joined hb (e::es)
  simp only [list, List.append_assoc, expect_append hws, hfirst, items_append hp hws]
  apply items_joined hp hb _ (by simp) hes
  simp only [List.length_append]
  omega

end Rules

/-! Strings and numbers. -/

/-- A string in which nothing has to be escaped. -/
def Plain (s : Text) : Prop := ∀ c ∈ s, c ≠ '"' ∧ c ≠ '\\' ∧ 32 ≤ c.toNat

instance (s : Text) : Decidable (Plain s) :=
  inferInstanceAs (Decidable (∀ c ∈ s, c ≠ '"' ∧ c ≠ '\\' ∧ 32 ≤ c.toNat))

theorem units_append {s : Text} (h : Plain s) (rest : Text) :
    units .plain (s++rest) = (units .plain rest).map fun u => (codes s++u.1,u.2) := by
  induction s with
  | nil => simp [codes]
  | cons c s ih =>
    obtain ⟨hq,hb,hc⟩ := h c (by simp)
    have hs := ih fun d hd => h d (by simp [hd])
    simp [units, hq, hb, not_lt.mpr hc, hs, codes, Function.comp_def]

theorem pair_codes (s : Text) : pair (codes s) = codes s := by
  induction s with
  | nil => rfl
  | cons c s ih =>
    cases s with
    | nil => rfl
    | cons d s =>
      have hc : ¬(0xD800 ≤ c.toNat ∧ c.toNat < 0xDC00) := by
        have hvalid : c.toNat < 0xD800 ∨ 0xDFFF < c.toNat ∧ c.toNat < 0x110000 := c.valid
        omega
      have hno : ¬(0xD800 ≤ c.toNat ∧ c.toNat < 0xDC00 ∧ 0xDC00 ≤ d.toNat ∧ d.toNat < 0xE000) :=
        fun h => hc ⟨h.1,h.2.1⟩
      simp only [codes, List.map_cons] at ih ⊢
      rw [pair, if_neg hno, ih]

theorem length_pair (us : List ℕ) : (pair us).length ≤ us.length := by
  fun_induction pair us with
  | case1 => simp
  | case2 => simp
  | case3 hi lo us h ih => simp only [List.length_cons]; omega
  | case4 hi lo us h ih => simp only [List.length_cons] at ih ⊢; omega

theorem string_plain {s : Text} (h : Plain s) (rest : Text) :
    string (s ++ '"'::rest) = some (codes s,rest) := by
  simp [string, units_append h, units, pair_codes]


theorem hexOf_not_low {c : Char} {d : ℕ} (h : hexOf c = some d) : 32 ≤ c.toNat := by
  by_contra hc
  have hlow : ∀ b : Char, 32 ≤ b.toNat → ¬b ≤ c := fun b hb hle => by
    have : b.toNat ≤ c.toNat := hle
    omega
  have hdigit : c.isDigit = false := by
    by_contra hd
    simp only [Bool.not_eq_false, Char.isDigit_iff_toNat, Char.reduceToNat] at hd
    omega
  simp [hexOf, hdigit, hlow 'a' (by decide), hlow 'A' (by decide)] at h

theorem escapeOf_not_low {c : Char} {d : ℕ} (h : escapeOf c = some d) : 32 ≤ c.toNat := by
  by_contra hc
  have hne : ∀ b : Char, 32 ≤ b.toNat → c ≠ b := fun b hb he => hc (he ▸ hb)
  simp [escapeOf, hne '"' (by decide), hne '\\' (by decide), hne '/' (by decide),
    hne 'b' (by decide), hne 'f' (by decide), hne 'n' (by decide), hne 'r' (by decide),
    hne 't' (by decide)] at h

/-- What units are read from: no unit takes less than a character, and where
none takes more, nothing was escaped. -/
def Spelled (mode : Mode) (cs : Text) (us : List ℕ) (r : Text) : Prop :=
  ∃ w, cs = w ++ '"'::r ∧ (∀ c ∈ w, 32 ≤ c.toNat) ∧ us.length ≤ w.length ∧
    (mode = .plain → us.length = w.length → Plain w)

theorem Spelled.longer {mode mode' : Mode} {c : Char} {cs r : Text} {us : List ℕ}
    (h : Spelled mode' cs us r) (hc : 32 ≤ c.toNat) : Spelled mode (c::cs) us r := by
  obtain ⟨w,rfl,hlow,hlen,-⟩ := h
  refine ⟨c::w,by simp,by simpa [hc] using hlow,by simp only [List.length_cons]; omega,?_⟩
  intro _ heq
  simp only [List.length_cons] at heq
  omega

theorem Spelled.unit {mode : Mode} {c : Char} {cs r : Text} {u : ℕ} {us : List ℕ}
    (h : Spelled .plain cs us r) (hc : 32 ≤ c.toNat)
    (hplain : mode = .plain → c ≠ '"' ∧ c ≠ '\\') : Spelled mode (c::cs) (u::us) r := by
  obtain ⟨w,rfl,hlow,hlen,hw⟩ := h
  refine ⟨c::w,by simp,by simpa [hc] using hlow,by simpa using hlen,?_⟩
  intro hm heq
  have hrest := hw rfl (by simpa using heq)
  obtain ⟨hq,hb⟩ := hplain hm
  intro d hd
  rcases List.mem_cons.mp hd with rfl | hd
  · exact ⟨hq,hb,hc⟩
  · exact hrest d hd

theorem units_spelled {mode : Mode} {cs r : Text} {us : List ℕ}
    (h : units mode cs = some (us,r)) : Spelled mode cs us r := by
  fun_induction units mode cs generalizing us with
  | case1 => simp at h
  | case2 cs =>
    simp only [Option.some.injEq, Prod.mk.injEq] at h
    exact ⟨[],by simp [h.2],by simp,by simp [← h.1],fun _ _ => by simp [Plain]⟩
  | case3 cs hq ih => exact (ih h).longer (by decide)
  | case4 => simp at h
  | case5 c cs hq hb hc ih =>
    obtain ⟨⟨vs,q⟩,hv,heq⟩ := Option.map_eq_some_iff.mp h
    cases heq
    exact (ih hv).unit (not_lt.mp hc) fun _ => ⟨hq,hb⟩
  | case6 cs ih => exact (ih h).longer (by decide)
  | case7 c cs hu ih =>
    obtain ⟨d,hd,h⟩ := Option.bind_eq_some_iff.mp h
    obtain ⟨⟨vs,q⟩,hv,heq⟩ := Option.map_eq_some_iff.mp h
    cases heq
    exact (ih hv).unit (escapeOf_not_low hd) (by simp)
  | case8 acc c cs ih =>
    obtain ⟨d,hd,h⟩ := Option.bind_eq_some_iff.mp h
    obtain ⟨⟨vs,q⟩,hv,heq⟩ := Option.map_eq_some_iff.mp h
    cases heq
    exact (ih hv).unit (hexOf_not_low hd) (by simp)
  | case9 n acc c cs ih =>
    obtain ⟨d,hd,h⟩ := Option.bind_eq_some_iff.mp h
    exact (ih d h).longer (hexOf_not_low hd)

/-- A reading that does not go over the end of the line, and takes as many
characters as the string has, takes the string. -/
theorem eq_of_spelled {s w q rest : Text} (hlow : ∀ c ∈ w, 32 ≤ c.toNat)
    (hlen : s.length ≤ w.length) (h : s ++ '"' :: ',' :: '\n'::rest = w ++ '"'::q) :
    w = s ∧ q = ',' :: '\n'::rest := by
  rcases List.append_eq_append_iff.mp h with ⟨a,rfl,ha⟩ | ⟨a,rfl,ha⟩
  · cases a with
    | nil => simpa [eq_comm] using ha
    | cons x a =>
      cases a with
      | nil => simp at ha
      | cons y a =>
        cases a with
        | nil => simp at ha
        | cons z a =>
          simp only [List.cons_append, List.cons.injEq] at ha
          have := hlow z (by simp)
          rw [← ha.2.2.1] at this
          exact absurd this (by decide)
  · cases a with
    | nil => simpa using ha
    | cons x a => simp at hlen

/-- In front of a comma and the end of the line an unescaped string is read as
itself exactly when there is nothing in it to escape. -/
theorem string_unescaped (s rest r : Text) :
    string (s ++ '"' :: ',' :: '\n'::rest) = some (codes s,r) ↔
      Plain s ∧ r = ',' :: '\n'::rest := by
  constructor
  · intro h
    obtain ⟨⟨us,q⟩,hus,heq⟩ := Option.map_eq_some_iff.mp h
    simp only [Prod.mk.injEq] at heq
    obtain ⟨hpair,rfl⟩ := heq
    obtain ⟨w,hw,hlow,hlen,hplain⟩ := units_spelled hus
    have hcount := length_pair us
    rw [hpair] at hcount
    simp only [codes, List.length_map] at hcount
    obtain ⟨rfl,rfl⟩ := eq_of_spelled hlow (by omega) hw
    exact ⟨hplain rfl (by omega),rfl⟩
  · intro ⟨hs,hr⟩
    rw [string_plain hs, hr]

theorem digits_print (n : ℕ) {rest : Text} (h : Stops rest) :
    digits (Nat.toDigits 10 n++rest) = some (Nat.toDigits 10 n,rest) := by
  simp [digits, takeWhile_toDigits n h, dropWhile_toDigits n h, Nat.toDigits_ne_nil]

/-- What ends an integer without going on as a fraction or an exponent. -/
def Ends (follow : Text) : Prop :=
  ∃ c rest, follow = c::rest ∧ c.isDigit = false ∧ c ≠ '.' ∧ c ≠ 'e' ∧ c ≠ 'E'

theorem magnitude_print (sign : ℤ) (n : ℕ) {follow : Text} (h : Ends follow) (rest : Text) :
    magnitude sign (Nat.toDigits 10 n++(follow++rest)) =
      some (.num (sign*n) 0,follow++rest) := by
  obtain ⟨c,tail,rfl,hd,hp,he,hE⟩ := h
  have hstop : Stops (c::tail++rest) := by simpa [Stops] using hd
  have hnat : natural (Nat.toDigits 10 n++(c::tail++rest)) =
      some (Nat.toDigits 10 n,c::tail++rest) := by
    have hlead : ¬((Nat.toDigits 10 n).head? = some '0' ∧ (Nat.toDigits 10 n).length ≠ 1) := by
      intro ⟨hhead,hlen⟩
      rw [toDigits_leading n hhead] at hlen
      simp at hlen
    simp only [natural, digits_print n hstop, Option.bind_some, if_neg hlead]
  rw [List.cons_append] at hnat ⊢
  simp [magnitude, hnat, fraction, exponent, hp, he, hE]

theorem value_digits (n k : ℕ) {follow : Text} (h : Ends follow) (rest : Text) :
    value (n+1) (Nat.toDigits 10 k++(follow++rest)) = some (.num k 0,follow++rest) := by
  have hmag := magnitude_print 1 k h rest
  cases hds : Nat.toDigits 10 k with
  | nil => exact absurd hds Nat.toDigits_ne_nil
  | cons c ds =>
    have hc : c.isDigit = true := (digits_toDigits k).2 c (by simp [hds])
    have hne : ∀ d : Char, d.isDigit = false → c ≠ d := fun d hd he => by simp [he, hd] at hc
    have hspace : isSpace c = false := by
      simp [isSpace, hne ' ' (by decide), hne '\t' (by decide), hne '\n' (by decide),
        hne '\r' (by decide)]
    rw [hds] at hmag
    simp only [List.cons_append, one_mul] at hmag ⊢
    simp [value, skipSpace_cons hspace, number, hmag, hne '{' (by decide), hne '[' (by decide),
      hne '"' (by decide), hne 't' (by decide), hne 'f' (by decide), hne 'n' (by decide),
      hne '-' (by decide)]

def integer : ℤ → Text
  | .ofNat k => Nat.toDigits 10 k
  | .negSucc k => '-'::Nat.toDigits 10 (k+1)

theorem reads_integer (n : ℕ) (z : ℤ) {follow : Text} (h : Ends follow) :
    Reads (value (n+1)) follow ⟨integer z,.num z 0,True⟩ := by
  intro rest r
  cases z with
  | ofNat k => simp [integer, value_digits n k h, eq_comm]
  | negSucc k =>
    have hmag := magnitude_print (-1) (k+1) h rest
    have hz : (-1:ℤ)*((k+1:ℕ):ℤ) = Int.negSucc k := by omega
    rw [hz] at hmag
    have hspace : skipSpace ('-'::(Nat.toDigits 10 (k+1)++(follow++rest))) =
        '-'::(Nat.toDigits 10 (k+1)++(follow++rest)) := skipSpace_cons (by decide) _
    simp [integer, value, hspace, number, hmag, eq_comm]

theorem reads_count (n k : ℕ) {follow : Text} (h : Ends follow) :
    Reads (value (n+1)) follow ⟨Nat.toDigits 10 k,.num k 0,True⟩ :=
  reads_integer n (.ofNat k) h

/-- A quoted string in front of anything, from a rule for what is in the quotes. -/
theorem reads_quoted (n : ℕ) {follow body s : Text} {ok : Prop}
    (h : ∀ rest r, string (body ++ '"'::(follow++rest)) = some (codes s,r) ↔
      ok ∧ r = follow++rest) :
    Reads (value (n+1)) follow ⟨ '"'::(body++['"']),.str (codes s),ok⟩ := by
  intro rest r
  have hspace : skipSpace ('"'::(body ++ '"'::(follow++rest))) =
      '"'::(body ++ '"'::(follow++rest)) := skipSpace_cons (by decide) _
  rw [← h rest r]
  simp only [value, List.cons_append, List.append_assoc, List.nil_append, hspace]
  simp [Prod.ext_iff]

section Brackets
variable {n : ℕ} {follow : Text}

theorem reads_object {e : Piece (List (List ℕ × Value))}
    (h : Reads (list (member (value n)) '}') follow e) :
    Reads (value (n+1)) follow ⟨ '{'::e.text,.obj e.value,e.ok⟩ := by
  intro rest r
  have hspace : skipSpace ('{'::(e.text++(follow++rest))) = '{'::(e.text++(follow++rest)) :=
    skipSpace_cons (by decide) _
  rw [← h rest r]
  simp [value, hspace, Prod.ext_iff]

theorem reads_array {e : Piece (List Value)} (h : Reads (list (value n) ']') follow e) :
    Reads (value (n+1)) follow ⟨ '['::e.text,.arr e.value,e.ok⟩ := by
  intro rest r
  have hspace : skipSpace ('['::(e.text++(follow++rest))) = '['::(e.text++(follow++rest)) :=
    skipSpace_cons (by decide) _
  rw [← h rest r]
  simp [value, hspace, Prod.ext_iff]

theorem reads_member {key ws : Text} {e : Piece Value} (hkey : Plain key) (hws : Blank ws)
    (h : Reads (value n) follow e) :
    Reads (member (value n)) follow
      ⟨ '"'::(key ++ '"' :: ':' :: (ws++e.text)),(codes key,e.value),e.ok⟩ := by
  intro rest r
  have hquote : ∀ cs, expect '"' ('"'::cs) = some cs := fun cs => by
    simp [expect_cons (show isSpace '"' = false by decide)]
  have hcolon : ∀ cs, expect ':' (':'::cs) = some cs := fun cs => by
    simp [expect_cons (show isSpace ':' = false by decide)]
  rw [← h rest r]
  simp [member, hquote, hcolon, string_plain hkey, skipsSpace_value n ws _ hws, Prod.ext_iff]

end Brackets

/-- The rule for a whole text, which may end with blanks. -/
theorem parse_iff {e : Piece Value} {tail : Text} (ht : Blank tail)
    (h : Reads (value (e.text++tail).length) tail e) :
    parse (e.text++tail) = some e.value ↔ e.ok := by
  have hread := h []
  simp only [List.append_nil] at hread
  constructor
  · intro hparse
    obtain ⟨⟨v,r⟩,hv,hend⟩ := Option.bind_eq_some_iff.mp hparse
    by_cases hr : skipSpace r = []
    · simp only [hr, if_true, Option.some.injEq] at hend
      rw [hend] at hv
      exact ((hread r).mp hv).1
    · simp [hr] at hend
  · intro hok
    have hskip : skipSpace tail = [] := by simpa [skipSpace] using skipSpace_append ht []
    rw [parse, (hread tail).mpr ⟨hok,rfl⟩]
    simp [hskip]

end Linqu.Json
