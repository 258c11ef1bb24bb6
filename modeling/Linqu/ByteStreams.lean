import Mathlib.Tactic

/-!
# Reading and writing in pieces

A call of `read` or `write` on a stream may be interrupted, may move fewer
bytes than it was asked for, or may fail. A reader that asks again until it has
what it needs gets the same bytes however they come in pieces, and a writer that
goes on until all is written has written a proper prefix when it gives up. The
stream is what the other side writes before it closes it.
-/

set_option autoImplicit false

namespace Linqu.ByteStreams

variable {α : Type*}

/-- What one call does. One that moves bytes moves one at least. -/
inductive Io where
  | interrupted
  | moved (more : ℕ)
  | failed
  deriving DecidableEq, Repr

def Io.moves : Io → Bool
  | .moved _ => true
  | _ => false

/-- What was read, what is left of the stream, and the calls that were not made. -/
structure Taken (α : Type*) where
  got : List α
  rest : List α
  calls : List Io

/-- Reads until there are `len` bytes. The end of the stream is a failure. -/
def recvAll : List Io → ℕ → List α → Option (Taken α)
  | calls, 0, stream => some ⟨[],stream,calls⟩
  | [], _+1, _ => none
  | .interrupted::calls, len+1, stream => recvAll calls (len+1) stream
  | .failed::_, _+1, _ => none
  | .moved _::_, _+1, [] => none
  | .moved more::calls, len+1, b::stream =>
    let n := min (more+1) (min (len+1) (stream.length+1))
    (recvAll calls (len+1-n) ((b::stream).drop n)).map fun t =>
      { t with got := (b::stream).take n++t.got }

/-- What was written, whether that was all, and the calls that were not made. -/
structure Given (α : Type*) where
  ok : Bool
  written : List α
  calls : List Io

def sendAll : List Io → List α → Given α
  | calls, [] => ⟨true,[],calls⟩
  | [], _::_ => ⟨false,[],[]⟩
  | .interrupted::calls, b::data => sendAll calls (b::data)
  | .failed::calls, _::_ => ⟨false,[],calls⟩
  | .moved more::calls, b::data =>
    let n := min (more+1) (data.length+1)
    let g := sendAll calls ((b::data).drop n)
    { g with written := (b::data).take n++g.written }

/-- The calls do not fail, and enough of them move something. -/
structure Serve (calls : List Io) (len : ℕ) : Prop where
  unfailing : Io.failed ∉ calls
  enough : len ≤ calls.countP Io.moves

theorem recvAll_zero (calls : List Io) (stream : List α) :
    recvAll calls 0 stream = some ⟨[],stream,calls⟩ := by
  cases calls with
  | nil => rfl
  | cons i calls => cases i <;> rfl

/-- Whatever the pieces, it is the front of the stream that is read. -/
theorem recvAll_spec {calls : List Io} {len : ℕ} {stream : List α} {t : Taken α}
    (h : recvAll calls len stream = some t) :
    len ≤ stream.length ∧ t.got = stream.take len ∧ t.rest = stream.drop len := by
  induction calls generalizing len stream t with
  | nil =>
    cases len with
    | zero =>
      cases h
      exact ⟨Nat.zero_le _,rfl,rfl⟩
    | succ len => cases h
  | cons i calls ih =>
    cases len with
    | zero =>
      rw [recvAll_zero] at h
      cases h
      exact ⟨Nat.zero_le _,rfl,rfl⟩
    | succ len =>
      cases i with
      | interrupted => exact ih h
      | failed => cases h
      | moved more =>
        cases stream with
        | nil => cases h
        | cons b stream =>
          rw [recvAll] at h
          obtain ⟨u,hu,rfl⟩ := Option.map_eq_some_iff.mp h
          obtain ⟨hlen,hgot,hrest⟩ := ih hu
          generalize hn : min (more+1) (min (len+1) (stream.length+1)) = n at hlen hgot hrest
          rw [List.length_drop, List.length_cons] at hlen
          have hsum : n+(len+1-n) = len+1 := by omega
          refine ⟨?_,?_,?_⟩
          · rw [List.length_cons]
            omega
          · rw [hgot, ← List.take_add, hsum]
          · rw [hrest, List.drop_drop, hsum]

theorem Serve.tail {i : Io} {calls : List Io} {len : ℕ} (h : Serve (i::calls) len) :
    i ≠ .failed ∧ Serve calls (len-1) := by
  have hne : i ≠ .failed := fun he => h.unfailing (by rw [he]; exact List.mem_cons_self)
  refine ⟨hne,fun hm => h.unfailing (List.mem_cons_of_mem i hm),?_⟩
  have hcount := h.enough
  by_cases hi : i.moves = true
  · rw [List.countP_cons_of_pos hi] at hcount
    omega
  · rw [List.countP_cons_of_neg hi] at hcount
    omega

/-- Enough calls read what is there, and leave calls for the bytes after that. -/
theorem recvAll_served {calls : List Io} {len more : ℕ} {stream : List α}
    (hlen : len ≤ stream.length) (h : Serve calls (len+more)) :
    ∃ t, recvAll calls len stream = some t ∧ Serve t.calls more := by
  induction calls generalizing len stream with
  | nil =>
    have hnone := h.enough
    rw [List.countP_nil] at hnone
    have hl : len = 0 := by omega
    have hm : more = 0 := by omega
    subst hl hm
    exact ⟨_,rfl,h⟩
  | cons i calls ih =>
    cases len with
    | zero =>
      rw [recvAll_zero]
      refine ⟨_,rfl,?_⟩
      rwa [Nat.zero_add] at h
    | succ len =>
      cases i with
      | interrupted =>
        refine ih hlen ⟨h.tail.2.unfailing,?_⟩
        have hcount := h.enough
        rwa [List.countP_cons_of_neg (by decide)] at hcount
      | failed => exact absurd rfl h.tail.1
      | moved k =>
        cases stream with
        | nil => cases hlen
        | cons b stream =>
          generalize hn : min (k+1) (min (len+1) (stream.length+1)) = n
          have hpos : 0 < n := by omega
          have hserve := h.tail.2
          have hroom : len+1-n ≤ ((b::stream).drop n).length := by
            rw [List.length_drop, List.length_cons] at *
            omega
          have henough : len+1-n+more ≤ calls.countP Io.moves := by
            have := hserve.enough
            omega
          obtain ⟨t,ht,hcalls⟩ := ih hroom ⟨hserve.unfailing,henough⟩
          refine ⟨{ t with got := (b::stream).take n++t.got },?_,hcalls⟩
          rw [recvAll, hn, ht]
          rfl

/-- What is written is a prefix, and all of it exactly if the writer says so. -/
theorem sendAll_spec (calls : List Io) (data : List α) :
    (sendAll calls data).written <+: data ∧
      ((sendAll calls data).ok = true ↔ (sendAll calls data).written = data) := by
  induction calls generalizing data with
  | nil =>
    cases data with
    | nil => exact ⟨List.prefix_rfl,fun _ => rfl,fun _ => rfl⟩
    | cons b data => exact ⟨List.nil_prefix,fun h => (by cases h),fun h => by cases h⟩
  | cons i calls ih =>
    cases data with
    | nil =>
      have hnil : sendAll (i::calls) ([] : List α) = ⟨true,[],i::calls⟩ := by
        cases i <;> rfl
      rw [hnil]
      exact ⟨List.prefix_rfl,fun _ => rfl,fun _ => rfl⟩
    | cons b data =>
      cases i with
      | interrupted => exact ih (b::data)
      | failed => exact ⟨List.nil_prefix,fun h => (by cases h),fun h => by cases h⟩
      | moved more =>
        rw [sendAll]
        generalize min (more+1) (data.length+1) = n
        obtain ⟨hpre,hok⟩ := ih ((b::data).drop n)
        have hsplit := List.take_append_drop n (b::data)
        constructor
        · conv_rhs => rw [← hsplit]
          exact (List.prefix_append_right_inj _).mpr hpre
        · change (sendAll calls ((b::data).drop n)).ok = true ↔
            (b::data).take n++(sendAll calls ((b::data).drop n)).written = b::data
          rw [hok]
          constructor
          · intro h
            rw [h, hsplit]
          · intro h
            exact List.append_cancel_left (h.trans hsplit.symm)

end Linqu.ByteStreams
