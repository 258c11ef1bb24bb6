import Linqu.NodeDaemon
import Linqu.RoundTrip

/-!
# Heartbeats and the peers that are found

The daemon keeps what it hears under its own level. A query of that level
finds the coordinates whose latest heartbeat, from whatever level, was a live
one; a query of another level finds nothing.
-/

set_option autoImplicit false

namespace Linqu.Heartbeats
open Linqu.MsgTypes Linqu.Header Linqu.RoundTrip Linqu.PeerRegistry Linqu.NodeDaemon
open Linqu.OrchestrationApi

/-- A HEARTBEAT message, its payload before it is encoded. -/
abbrev Beat := LinquHeader × HeartbeatPayload

def coordOf (p : HeartbeatPayload) : LinquCoordinate :=
  { l6Idx := p.senderL6, l5Idx := p.senderL5, l4Idx := p.senderL4, l3Idx := p.senderL3 }

def hear (level : UInt8) (r : PeerRegistry) (m : Beat) : Option PeerRegistry :=
  m.2.serialize.bind (handleHeartbeat level r m.1)

/-- The registry after the messages, oldest first. -/
def heard (level : UInt8) (beats : List Beat) : Option PeerRegistry := beats.foldlM (hear level) {}

/-- The latest status that a coordinate reported, from any level. -/
def latestAny (beats : List Beat) (c : LinquCoordinate) : Option UInt8 :=
  (beats.reverse.find? (fun m => coordOf m.2 = c)).map (fun m => m.2.status)

/-- The latest status that the sender of a level and a coordinate reported. -/
def latest (beats : List Beat) (level : UInt8) (c : LinquCoordinate) : Option UInt8 :=
  (beats.reverse.find? (fun m => m.1.senderLevel = level ∧ coordOf m.2 = c)).map
    (fun m => m.2.status)

def infoOf (level : UInt8) (c : LinquCoordinate) (status : UInt8) : PeerInfo :=
  { coord := c, level, alive := status = 0 }

/-- The queries find the senders of their level whose latest heartbeat was a
live one, each once. -/
def Discovers (beats : List Beat) (r : PeerRegistry) : Prop :=
  ∀ l, (opQueryPeers r l).Nodup ∧ ∀ c, c ∈ opQueryPeers r l ↔ latest beats l c = some 0

theorem hear_eq (level : UInt8) (r : PeerRegistry) {m : Beat} (h : Fits (.heartbeat m.2)) :
    hear level r m = some (r.add (infoOf level (coordOf m.2) m.2.status)) := by
  have hls : m.2.logicalSystem.length < 2^32 := by
    have hfit : m.2.logicalSystem.length+m.2.physicalSystem.length+22 < 2^32 := h
    omega
  have hps : m.2.physicalSystem.length < 2^32 := by
    have hfit : m.2.logicalSystem.length+m.2.physicalSystem.length+22 < 2^32 := h
    omega
  obtain ⟨b,hb,hd⟩ := (heartbeat_trips hls hps).mpr h
  rw [hear, hb, Option.bind_some, handleHeartbeat, hd]
  rfl

/-- The registry holds for each coordinate what was heard of it last. -/
structure Holds (level : UInt8) (beats : List Beat) (r : PeerRegistry) : Prop where
  keys : (r.peers.map Prod.fst).Nodup
  mem : ∀ e, e ∈ r.peers ↔ ∃ status, latestAny beats e.1.1 = some status ∧ e.1.2 = level ∧
    e.2 = infoOf level e.1.1 status

theorem latestAny_concat (beats : List Beat) (m : Beat) (c : LinquCoordinate) :
    latestAny (beats++[m]) c = if coordOf m.2 = c then some m.2.status else latestAny beats c := by
  rw [latestAny, List.reverse_append, List.reverse_singleton, List.singleton_append,
    List.find?_cons]
  by_cases h : coordOf m.2 = c <;> simp [h, latestAny]

theorem latest_concat (beats : List Beat) (m : Beat) (l : UInt8) (c : LinquCoordinate) :
    latest (beats++[m]) l c =
      if m.1.senderLevel = l ∧ coordOf m.2 = c then some m.2.status else latest beats l c := by
  rw [latest, List.reverse_append, List.reverse_singleton, List.singleton_append,
    List.find?_cons]
  by_cases h : m.1.senderLevel = l ∧ coordOf m.2 = c <;> simp [h, latest]

theorem Holds.add {level : UInt8} {beats : List Beat} {r : PeerRegistry} (h : Holds level beats r)
    (m : Beat) :
    Holds level (beats++[m]) (r.add (infoOf level (coordOf m.2) m.2.status)) := by
  constructor
  · show (((coordOf m.2,level) :: (r.peers.filter _).map Prod.fst)).Nodup
    apply List.nodup_cons.mpr
    constructor
    · simp [infoOf]
    · exact h.keys.sublist (List.filter_sublist.map _)
  · intro e
    show e ∈ ((coordOf m.2,level),infoOf level (coordOf m.2) m.2.status)::r.peers.filter _ ↔ _
    rw [List.mem_cons, List.mem_filter, h.mem, latestAny_concat]
    by_cases hc : coordOf m.2 = e.1.1
    · simp only [hc, if_true, Option.some.injEq, exists_eq_left', decide_eq_true_eq]
      constructor
      · rintro (he | ⟨⟨status,-,hl,-⟩,hne⟩)
        · exact ⟨congrArg (fun e => e.1.2) he,congrArg Prod.snd he⟩
        · exact absurd (show e.1 = (e.1.1,level) from Prod.ext rfl hl) hne
      · rintro ⟨hl,hi⟩
        exact Or.inl (Prod.ext (Prod.ext rfl hl) hi)
    · have hne : e.1 ≠ (coordOf m.2,level) := fun he => hc (congrArg Prod.fst he).symm
      have hnot : e ≠ ((coordOf m.2,level),infoOf level (coordOf m.2) m.2.status) :=
        fun he => hne (congrArg Prod.fst he)
      simp only [hc, hnot, if_false, false_or]
      apply and_iff_left
      exact decide_eq_true hne

theorem heard_holds (level : UInt8) {beats : List Beat}
    (hfit : ∀ m ∈ beats, Fits (.heartbeat m.2)) :
    ∃ r, heard level beats = some r ∧ Holds level beats r := by
  induction beats using List.reverseRecOn with
  | nil =>
    refine ⟨{},rfl,List.nodup_nil,?_⟩
    intro e
    simp [latestAny]
  | append_singleton beats m ih =>
    obtain ⟨r,hr,h⟩ := ih (fun b hb => hfit b (List.mem_append_left _ hb))
    refine ⟨_,?_,h.add m⟩
    rw [heard, List.foldlM_append, ← heard, hr]
    show (hear level r m).bind some = _
    rw [hear_eq level r (hfit m (List.mem_append_right _ List.mem_cons_self)), Option.bind_some]

/-- A query of the daemon's level finds the coordinates that are live by what
was heard last, and a query of another level nothing. -/
theorem Holds.query {level : UInt8} {beats : List Beat} {r : PeerRegistry}
    (h : Holds level beats r) (l : UInt8) : (opQueryPeers r l).Nodup ∧
      ∀ c, c ∈ opQueryPeers r l ↔ l = level ∧ latestAny beats c = some 0 := by
  have hcoord : ∀ e ∈ r.peers, e.2.coord = e.1.1 ∧ e.1.2 = level := by
    intro e he
    obtain ⟨status,-,hl,hi⟩ := (h.mem e).mp he
    rw [hi]
    exact ⟨rfl,hl⟩
  constructor
  · rw [opQueryPeers, PeerRegistry.peersAtLevel, List.map_map]
    apply List.Nodup.map_on
    · intro a ha b hb hab
      have hfst := List.inj_on_of_nodup_map h.keys
      have hma := List.mem_of_mem_filter ha
      have hmb := List.mem_of_mem_filter hb
      apply hfst hma hmb
      apply Prod.ext
      · rw [← (hcoord a hma).1, ← (hcoord b hmb).1]
        exact hab
      · rw [(hcoord a hma).2, (hcoord b hmb).2]
    · exact (List.Nodup.of_map _ h.keys).filter _
  · intro c
    simp only [opQueryPeers, PeerRegistry.peersAtLevel, List.mem_map, List.mem_filter,
      decide_eq_true_eq]
    constructor
    · rintro ⟨_,⟨e,⟨he,hl,halive⟩,rfl⟩,rfl⟩
      obtain ⟨status,hs,hlevel,hi⟩ := (h.mem e).mp he
      rw [hi] at halive ⊢
      refine ⟨hl.symm.trans hlevel,?_⟩
      rw [show (infoOf level e.1.1 status).coord = e.1.1 from rfl, hs, of_decide_eq_true halive]
    · rintro ⟨rfl,hs⟩
      have he : ((c,l),infoOf l c 0) ∈ r.peers := (h.mem _).mpr ⟨0,hs,rfl,rfl⟩
      exact ⟨_,⟨_,⟨he,rfl,rfl⟩,rfl⟩,rfl⟩

theorem latest_of_any {beats : List Beat} {c : LinquCoordinate} {status : UInt8}
    (h : latestAny beats c = some status) : ∃ l, latest beats l c = some status := by
  induction beats using List.reverseRecOn with
  | nil => cases h
  | append_singleton beats m ih =>
    rw [latestAny_concat] at h
    by_cases hc : coordOf m.2 = c
    · rw [if_pos hc] at h
      exact ⟨m.1.senderLevel,by rw [latest_concat, if_pos ⟨rfl,hc⟩, h]⟩
    · rw [if_neg hc] at h
      obtain ⟨l,hl⟩ := ih h
      exact ⟨l,by rw [latest_concat, if_neg (fun hm => hc hm.2), hl]⟩

/-- For every daemon level and every sequence of heartbeats: the queries are
right exactly when no sender of another level than the daemon's is live, and
no live coordinate of the daemon's level was heard since from another one. -/
theorem discovers_iff {level : UInt8} {beats : List Beat} {r : PeerRegistry}
    (hfit : ∀ m ∈ beats, Fits (.heartbeat m.2)) (hr : heard level beats = some r) :
    Discovers beats r ↔ (∀ l c, l ≠ level → latest beats l c ≠ some 0) ∧
      ∀ c, latest beats level c = some 0 → latestAny beats c = some 0 := by
  obtain ⟨r',hr',h⟩ := heard_holds level hfit
  cases hr.symm.trans hr'
  constructor
  · intro hd
    constructor
    · intro l c hl hc
      exact hl (((h.query l).2 c).mp (((hd l).2 c).mpr hc)).1
    · intro c hc
      exact (((h.query level).2 c).mp (((hd level).2 c).mpr hc)).2
  · rintro ⟨hother,hown⟩ l
    apply And.intro (h.query l).1
    intro c
    rw [(h.query l).2 c]
    constructor
    · rintro ⟨rfl,hc⟩
      obtain ⟨l',hl'⟩ := latest_of_any hc
      by_cases heq : l' = l
      · rwa [← heq]
      · exact absurd hl' (hother l' c heq)
    · intro hc
      by_cases heq : l = level
      · subst heq
        exact ⟨rfl,hown c hc⟩
      · exact absurd hc (hother l c heq)

/-- A live heartbeat of the host at coordinate 7, and one of the pod there. -/
def hostBeat : Beat := ({ senderLevel := 3 },{ senderL3 := 7 })

def podBeat : Beat := ({ senderLevel := 4 },{ senderL3 := 7 })

/-- A pod's daemon files the host under the pods. -/
theorem host_not_discovered : ∃ r, heard 4 [hostBeat] = some r ∧
    latest [hostBeat] 3 { l3Idx := 7 } = some 0 ∧ opQueryPeers r 3 = [] ∧
    opQueryPeers r 4 = [{ l3Idx := 7 }] := by
  refine ⟨_,rfl,?_,?_,?_⟩ <;> decide

theorem discovers_iff_pod : ∃ r, heard 4 [podBeat] = some r ∧ Discovers [podBeat] r := by
  have hfit : ∀ m ∈ [podBeat], Fits (.heartbeat m.2) := by
    intro m hm
    rw [List.mem_singleton.mp hm]
    show 0+0+22 < 2^32
    norm_num
  obtain ⟨r,hr,-⟩ := heard_holds 4 hfit
  refine ⟨r,hr,(discovers_iff hfit hr).mpr ?_⟩
  rw [← List.nil_append [podBeat]]
  constructor
  · intro l c hl
    rw [latest_concat, if_neg (fun hm => hl hm.1.symm)]
    simp [latest]
  · intro c
    rw [latest_concat, latestAny_concat]
    by_cases hc : coordOf podBeat.2 = c
    · intro _
      rw [if_pos hc]
      rfl
    · simp [hc, latest]

end Linqu.Heartbeats
