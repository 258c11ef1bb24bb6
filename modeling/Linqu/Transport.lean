import Linqu.ByteStreams
import Linqu.RoundTrip
import Linqu.SocketPaths

/-!
# The socket transport

A message is a connection of its own: a header, a payload of the size that the
header gives, and the end of the stream. The sender writes in pieces and may be
cut off at any byte; the receiver reads in pieces. Only a message that was sent
in full is received, and it is received as it was sent.
-/

set_option autoImplicit false

namespace Linqu.Transport
open Linqu.ByteStreams Linqu.MsgTypes Linqu.Header Linqu.RoundTrip Linqu.OrchestrationApi
open Linqu.SocketPaths

def taskComplete : MsgType := 6

def shutdown : MsgType := 7

/-- The level that a message goes to. -/
def targetLevel (hdr : LinquHeader) : UInt8 :=
  if hdr.msgType = taskComplete then hdr.senderLevel else hdr.senderLevel-1

/-- `sun_path` has room for 107 characters and the end of the string. -/
def sunPath (path : Path) : Path := path.take 107

/-- What `send` writes once it is connected. -/
def transmit (calls : List Io) (hdr : LinquHeader) (payload : List UInt8) : Given UInt8 :=
  let g := sendAll calls hdr.serialize
  if g.ok = true ∧ payload ≠ [] then
    let g' := sendAll g.calls payload
    { g' with written := g.written++g'.written }
  else g

/-- `recv` once it has accepted a connection. -/
def receive (calls : List Io) (stream : List UInt8) : Option (LinquHeader × List UInt8) := do
  let wire ← recvAll calls wireSize stream
  let hdr := LinquHeader.deserialize wire.got
  if hdr.magic ≠ linquMagic then none
  else if 0 < hdr.payloadSize then
    (recvAll wire.calls hdr.payloadSize.toNat wire.rest).map fun t => (hdr,t.got)
  else some (hdr,[])

/-- The message that a stream holds. What follows it is not looked at. -/
def message (stream : List UInt8) : Option (LinquHeader × List UInt8) :=
  let hdr := LinquHeader.deserialize (stream.take wireSize)
  if wireSize ≤ stream.length ∧ hdr.magic = linquMagic ∧
      wireSize+hdr.payloadSize.toNat ≤ stream.length then
    some (hdr,(stream.drop wireSize).take hdr.payloadSize.toNat)
  else none

variable {hdr : LinquHeader} {payload stream : List UInt8} {calls : List Io}
  {m : LinquHeader × List UInt8}

theorem message_some (h : message stream = some m) : wireSize ≤ stream.length ∧
    m.1 = LinquHeader.deserialize (stream.take wireSize) ∧ m.1.magic = linquMagic ∧
      wireSize+m.1.payloadSize.toNat ≤ stream.length ∧
        m.2 = (stream.drop wireSize).take m.1.payloadSize.toNat := by
  simp only [message] at h
  split at h
  · rename_i hc
    cases h
    exact ⟨hc.1,rfl,hc.2.1,hc.2.2,rfl⟩
  · cases h

/-- Whatever the pieces, a message that is received is the one of the stream. -/
theorem message_of_receive (h : receive calls stream = some m) : message stream = some m := by
  obtain ⟨wire,hwire,h⟩ := Option.bind_eq_some_iff.mp h
  obtain ⟨hlen,hgot,hrest⟩ := recvAll_spec hwire
  rw [hgot] at h
  unfold message
  by_cases hmagic : (LinquHeader.deserialize (stream.take wireSize)).magic = linquMagic
  · rw [if_neg (not_not.mpr hmagic)] at h
    by_cases hsize : 0 < (LinquHeader.deserialize (stream.take wireSize)).payloadSize
    · rw [if_pos hsize] at h
      obtain ⟨t,ht,rfl⟩ := Option.map_eq_some_iff.mp h
      obtain ⟨hmore,hpay,-⟩ := recvAll_spec ht
      rw [hrest, List.length_drop] at hmore
      rw [if_pos ⟨hlen,hmagic,by omega⟩, hpay, hrest]
    · rw [if_neg hsize] at h
      cases h
      have hzero : (LinquHeader.deserialize (stream.take wireSize)).payloadSize.toNat = 0 := by
        rw [UInt32.lt_iff_toNat_lt] at hsize
        exact Nat.eq_zero_of_not_pos hsize
      rw [if_pos ⟨hlen,hmagic,by rw [hzero]; exact hlen⟩, hzero, List.take_zero]
  · rw [if_pos hmagic] at h
    cases h

/-- A message that is there is received if the calls do not fail. -/
theorem receive_served (h : message stream = some m)
    (hcalls : Serve calls (wireSize+m.1.payloadSize.toNat)) : receive calls stream = some m := by
  obtain ⟨hlen,hhdr,hmagic,hmore,hpay⟩ := message_some h
  obtain ⟨wire,hwire,hserve⟩ := recvAll_served hlen hcalls
  obtain ⟨-,hgot,hrest⟩ := recvAll_spec hwire
  have hm : (m.1,(stream.drop wireSize).take m.1.payloadSize.toNat) = m := by rw [← hpay]
  rw [receive, hwire, Option.bind_eq_bind, Option.bind_some, hgot, ← hhdr]
  rw [if_neg (not_not.mpr hmagic)]
  by_cases hsize : 0 < m.1.payloadSize
  · have hroom : m.1.payloadSize.toNat ≤ wire.rest.length := by
      rw [hrest, List.length_drop]
      omega
    have hserve : Serve wire.calls (m.1.payloadSize.toNat+0) := hserve
    obtain ⟨t,ht,-⟩ := recvAll_served hroom hserve
    rw [if_pos hsize, ht, Option.map_some, (recvAll_spec ht).2.1, hrest, hm]
  · have hzero : m.1.payloadSize.toNat = 0 := by
      rw [UInt32.lt_iff_toNat_lt] at hsize
      exact Nat.eq_zero_of_not_pos hsize
    rw [hzero, List.take_zero] at hm
    rw [if_neg hsize, hm]

theorem message_frame (hmagic : hdr.magic = linquMagic)
    (hsize : hdr.payloadSize.toNat = payload.length) :
    message (hdr.serialize++payload) = some (hdr,payload) := by
  have hlen := hdr.length_serialize
  have htake : (hdr.serialize++payload).take wireSize = hdr.serialize := by
    rw [← hlen, List.take_left]
  have hdrop : (hdr.serialize++payload).drop wireSize = payload := by
    rw [← hlen, List.drop_left]
  rw [message, htake, header_decodes, hdrop, hsize, List.take_length]
  rw [if_pos ⟨by simp [hlen],hmagic,by simp [hlen]⟩]

/-- A frame that is cut off holds no message. -/
theorem message_cut (hsize : hdr.payloadSize.toNat = payload.length) {w : List UInt8}
    (hpre : w <+: hdr.serialize++payload) (hcut : w ≠ hdr.serialize++payload) :
    message w = none := by
  by_contra hne
  obtain ⟨m,hm⟩ := Option.ne_none_iff_exists'.mp hne
  obtain ⟨hlen,hhdr,-,hmore,-⟩ := message_some hm
  have htake : w.take wireSize = hdr.serialize := by
    obtain ⟨more,hmore⟩ := hpre
    have hall : (w++more).take wireSize = hdr.serialize := by
      rw [hmore, ← hdr.length_serialize, List.take_left]
    rwa [List.take_append_of_le_length hlen] at hall
  rw [htake, header_decodes] at hhdr
  rw [hhdr, hsize] at hmore
  refine hcut (hpre.eq_of_length_le ?_)
  rw [List.length_append, hdr.length_serialize]
  exact hmore

/-- The sender has written a prefix, and all of it exactly if it says so. -/
theorem transmit_spec (calls : List Io) (hdr : LinquHeader) (payload : List UInt8) :
    (transmit calls hdr payload).written <+: hdr.serialize++payload ∧
      ((transmit calls hdr payload).ok = true ↔
        (transmit calls hdr payload).written = hdr.serialize++payload) := by
  obtain ⟨hpre,hok⟩ := sendAll_spec calls hdr.serialize
  by_cases hnil : payload = []
  · rw [transmit, if_neg (fun h => h.2 hnil), hnil, List.append_nil]
    exact ⟨hpre,hok⟩
  · by_cases hfirst : (sendAll calls hdr.serialize).ok = true
    · obtain ⟨hpre',hok'⟩ := sendAll_spec (sendAll calls hdr.serialize).calls payload
      rw [transmit, if_pos ⟨hfirst,hnil⟩]
      dsimp only
      rw [hok.mp hfirst]
      refine ⟨(List.prefix_append_right_inj _).mpr hpre',hok'.trans ?_⟩
      exact ⟨fun h => by rw [h],fun h => List.append_cancel_left h⟩
    · rw [transmit, if_neg (fun h => hfirst h.1)]
      refine ⟨hpre.trans (List.prefix_append _ _),fun h => absurd h hfirst,fun h => ?_⟩
      have hlen := hpre.length_le
      rw [h, List.length_append] at hlen
      exact absurd (List.eq_nil_of_length_eq_zero (by omega)) hnil

/-- However the bytes are written and read in pieces, and wherever the sender is
cut off: what is received is the message that was sent, and it was sent in full;
a message that was sent in full is received if the calls of `read` do not fail. -/
theorem sent_received {writes reads : List Io} (hmagic : hdr.magic = linquMagic)
    (hsize : hdr.payloadSize.toNat = payload.length) :
    (∀ m, receive reads (transmit writes hdr payload).written = some m →
      (transmit writes hdr payload).ok = true ∧ m = (hdr,payload)) ∧
    ((transmit writes hdr payload).ok = true → Serve reads (wireSize+payload.length) →
      receive reads (transmit writes hdr payload).written = some (hdr,payload)) := by
  obtain ⟨hpre,hok⟩ := transmit_spec writes hdr payload
  constructor
  · intro m hm
    have hmsg := message_of_receive hm
    have hall : (transmit writes hdr payload).written = hdr.serialize++payload := by
      by_contra hcut
      rw [message_cut hsize hpre hcut] at hmsg
      cases hmsg
    rw [hall, message_frame hmagic hsize] at hmsg
    exact ⟨hok.mpr hall,(Option.some.inj hmsg).symm⟩
  · intro hsent hcalls
    have hmsg := message_frame hmagic hsize
    rw [← hok.mp hsent] at hmsg
    exact receive_served hmsg (by rwa [hsize])

/-- A message of 26 bytes, in three writes and four reads. -/
theorem sent_received_pieces :
    receive ([.moved 2,.interrupted,.moved 100]++List.replicate 24 (.moved 0))
      (transmit [.moved 9,.moved 100,.interrupted,.moved 100]
        (.make taskComplete 4 {} {} 2) [7,8]).written =
      some (.make taskComplete 4 {} {} 2,[7,8]) := by
  have hok : (transmit [.moved 9,.moved 100,.interrupted,.moved 100]
      (.make taskComplete 4 {} {} 2) [7,8]).ok = true := by decide
  exact (sent_received rfl rfl).2 hok ⟨by decide,by decide⟩

/-- The size of the payload is in the first twelve bytes. -/
theorem payloadSize_of_take {l l' : List UInt8} (h : l.take 12 = l'.take 12) :
    (LinquHeader.deserialize l).payloadSize = (LinquHeader.deserialize l').payloadSize := by
  have hbyte : ∀ i < 12, l.getD i 0 = l'.getD i 0 := by
    intro i hi
    have hi' := congrArg (fun b : List UInt8 => b[i]?) h
    simp only [List.getElem?_take_of_lt hi] at hi'
    rw [List.getD_eq_getElem?_getD, List.getD_eq_getElem?_getD, hi']
  change ntohl l 8 = ntohl l' 8
  rw [ntohl_eq, ntohl_eq, hbyte 8 (by decide), hbyte (8+1) (by decide), hbyte (8+2) (by decide),
    hbyte (8+3) (by decide)]

/-- The two writes of a daemon are not repeated. Where the payload is short, no
pieces of the header and the payload make another message. -/
theorem message_pieces (hshort : payload.length ≤ 12)
    (hsize : hdr.payloadSize.toNat = payload.length) (a b : ℕ)
    (h : message (hdr.serialize.take a++payload.take b) = some m) :
    hdr.serialize.take a++payload.take b = hdr.serialize++payload := by
  obtain ⟨hlen,hhdr,-,hmore,-⟩ := message_some h
  have hwire := hdr.length_serialize
  have hw : wireSize = 24 := rfl
  rw [List.length_append, List.length_take, List.length_take, hwire] at hlen hmore
  by_cases ha : wireSize ≤ a
  · have htake : hdr.serialize.take a = hdr.serialize := List.take_of_length_le (by omega)
    rw [htake] at hhdr ⊢
    rw [← hwire, List.take_left, header_decodes] at hhdr
    rw [hhdr, hsize] at hmore
    rw [List.take_of_length_le (by omega)]
  · exfalso
    have hfront : ((hdr.serialize.take a++payload.take b).take wireSize).take 12 =
        hdr.serialize.take 12 := by
      rw [List.take_take, List.take_append_of_le_length, List.take_take]
      · congr 1
        omega
      · rw [List.length_take, hwire]
        omega
    have hsame := payloadSize_of_take hfront
    rw [← hhdr, header_decodes] at hsame
    rw [hsame, hsize] at hmore
    omega

end Linqu.Transport
