import Linqu.Header
import Linqu.Payloads

/-!
# Decoding what was encoded

`deserialize` undoes `serialize` for the header and for every payload whose
buffer is as large as its fields. The sizes of two of the buffers are computed
in 32 bits and wrap.
-/

set_option autoImplicit false

namespace Linqu.RoundTrip
open Linqu.Bytes Linqu.MsgTypes Linqu.Header Linqu.OrchestrationApi

theorem ntohl_toBytes (pre : List UInt8) (n : UInt32) (post : List UInt8) :
    ntohl (pre++toBytes 4 n.toNat++post) pre.length = n := by
  rw [ntohl_eq]
  have h : ∀ i < 4, (pre++toBytes 4 n.toNat++post).getD (pre.length+i) 0 =
      (toBytes 4 n.toNat).getD i 0 := by
    intro i hi
    simp only [List.getD_eq_getElem?_getD]
    rw [List.append_assoc, List.getElem?_append_right (by omega), Nat.add_sub_cancel_left,
      List.getElem?_append_left (by simpa using hi)]
  have h0 := h 0 (by decide)
  rw [Nat.add_zero] at h0
  rw [h0, h 1 (by decide), h 2 (by decide), h 3 (by decide)]
  show UInt32.ofNat (ofBytes (toBytes 4 n.toNat)) = n
  rw [ofBytes_toBytes, Nat.mod_eq_of_lt (show n.toNat < 256^4 from n.toNat_lt),
    UInt32.ofNat_toNat]

theorem header_decodes (h : LinquHeader) : LinquHeader.deserialize h.serialize = h := by
  have hm := ntohl_toBytes [] h.magic ([h.version,h.msgType,h.senderLevel,h.reserved]++
    toBytes 4 h.payloadSize.toNat++
    [h.senderL6,h.senderL5,h.senderL4,h.senderL3Hi,h.senderL3Lo,
      h.targetL6,h.targetL5,h.targetL4,h.targetL3Hi,h.targetL3Lo,h.padding0,h.padding1])
  have hp := ntohl_toBytes (toBytes 4 h.magic.toNat++
    [h.version,h.msgType,h.senderLevel,h.reserved]) h.payloadSize
    [h.senderL6,h.senderL5,h.senderL4,h.senderL3Hi,h.senderL3Lo,
      h.targetL6,h.targetL5,h.targetL4,h.targetL3Hi,h.targetL3Lo,h.padding0,h.padding1]
  cases h
  simp only [LinquHeader.deserialize, LinquHeader.serialize, LinquHeader.mk.injEq]
  refine ⟨?_,rfl,rfl,rfl,rfl,?_,rfl,rfl,rfl,rfl,rfl,rfl,rfl,rfl,rfl,rfl,rfl,rfl⟩
  · exact hm
  · exact hp

theorem header_encodes (b : List UInt8) (hb : b.length = wireSize) :
    (LinquHeader.deserialize b).serialize = b := by
  have hlist : b = (List.range 24).map (b.getD · 0) := by
    apply List.ext_getElem
    · simpa [wireSize] using hb
    · intro i hi hi'
      simp [hi]
  have hn : ∀ off, toBytes 4 (ntohl b off).toNat =
      [b.getD off 0,b.getD (off+1) 0,b.getD (off+2) 0,b.getD (off+3) 0] := by
    intro off
    have hlt := ofBytes_lt [b.getD off 0,b.getD (off+1) 0,b.getD (off+2) 0,b.getD (off+3) 0]
    rw [ntohl_eq, UInt32.toNat_ofNat', Nat.mod_eq_of_lt (by simpa using hlt)]
    exact toBytes_ofBytes [_,_,_,_]
  rw [LinquHeader.serialize]
  show toBytes 4 (ntohl b 0).toNat++_++toBytes 4 (ntohl b 8).toNat++_ = b
  rw [hn 0, hn 8]
  conv_rhs => rw [hlist]
  rfl

theorem index_halves (x : UInt16) :
    (x >>> 8).toUInt8.toUInt16 <<< 8 ||| (x &&& 0xFF).toUInt8.toUInt16 = x := by
  apply UInt16.toNat_inj.mp
  have hx := x.toNat_lt
  have hhi : x.toNat >>> 8 % 256 = x.toNat/256 := by
    rw [Nat.shiftRight_eq_div_pow]
    omega
  have hlo : (x.toNat &&& 255) % 256 = x.toNat % 256 := by
    rw [show 255 = 2^8-1 from rfl, Nat.and_two_pow_sub_one_eq_mod, Nat.mod_mod]
  have hfit : (x.toNat/256) <<< 8 % 65536 = (x.toNat/256) <<< 8 := by
    rw [Nat.shiftLeft_eq]
    omega
  simp only [UInt16.toNat_or, UInt16.toNat_shiftLeft, UInt8.toNat_toUInt16, UInt16.toNat_toUInt8,
    UInt16.toNat_shiftRight, UInt16.toNat_and]
  show (x.toNat >>> 8 % 256) <<< 8 % 65536 ||| (x.toNat &&& 255) % 256 = x.toNat
  rw [hhi, hfit, hlo, shift_or (Nat.mod_lt _ (by decide))]
  omega

/-! ## Fields -/

section Fields

variable (rest : List UInt8)

@[simp] theorem read_byte (b : UInt8) : readNat 1 (b::rest) = some (b.toNat,rest) := by
  rw [readNat_of_le (by simp)]
  simp [ofBytes]

@[simp] theorem read_u16 (x : UInt16) :
    readNat 2 (toBytes 2 x.toNat++rest) = some (x.toNat,rest) :=
  readNat_append x.toNat_lt rest

@[simp] theorem read_u32 (x : UInt32) :
    readNat 4 (toBytes 4 x.toNat++rest) = some (x.toNat,rest) :=
  readNat_append x.toNat_lt rest

@[simp] theorem read_u64 (x : UInt64) :
    readNat 8 (toBytes 8 x.toNat++rest) = some (x.toNat,rest) :=
  readNat_append x.toNat_lt rest

@[simp] theorem read_u16_last (x : UInt16) : readNat 2 (toBytes 2 x.toNat) = some (x.toNat,[]) := by
  simpa using read_u16 [] x

@[simp] theorem read_u32_last (x : UInt32) : readNat 4 (toBytes 4 x.toNat) = some (x.toNat,[]) := by
  simpa using read_u32 [] x

@[simp] theorem read_u64_last (x : UInt64) : readNat 8 (toBytes 8 x.toNat) = some (x.toNat,[]) := by
  simpa using read_u64 [] x

theorem read_length {n : ℕ} (h : n < 2^32) : readNat 4 (toBytes 4 n++rest) = some (n,rest) :=
  readNat_append h rest

end Fields

theorem fill_of_length {size : ℕ} {ps : List (List UInt8)} (h : ps.flatten.length = size) :
    fill size ps = some ps.flatten := by
  rw [← h, fill_exact]

theorem readBlob_append {blob : List UInt8} (h : blob.length < 2^32) :
    readBlob (toBytes 4 blob.length++blob) = some blob := by
  have hr := read_append blob []
  rw [List.append_nil] at hr
  rw [readBlob, read_length _ h]
  simp [hr]

/-- The value is encoded, and the encoding is decoded to it. -/
def RoundTrips {α : Type} (serialize : α → Option (List UInt8))
    (deserialize : List UInt8 → Option α) (p : α) : Prop :=
  ∃ b, serialize p = some b ∧ deserialize b = some p

section Payloads

@[simp] theorem int32_ofNat (x : Int32) : Int32.ofNat x.toUInt32.toNat = x := by
  apply Int32.toBitVec_inj.mp
  simp

theorem task_complete_trips (p : TaskCompletePayload) :
    RoundTrips TaskCompletePayload.serialize TaskCompletePayload.read p := by
  apply Exists.intro
  apply And.intro (fill_of_length (by simp))
  simp [TaskCompletePayload.read]

theorem shutdown_trips (p : ShutdownPayload) :
    RoundTrips ShutdownPayload.serialize ShutdownPayload.deserialize p :=
  ⟨_,rfl,by simp [ShutdownPayload.deserialize]⟩

theorem scope_exit_trips (p : ScopeExitPayload) :
    RoundTrips ScopeExitPayload.serialize ScopeExitPayload.deserialize p := by
  apply Exists.intro
  apply And.intro (fill_of_length (by simp))
  simp [ScopeExitPayload.deserialize]

theorem retry_with_code_trips (p : RetryWithCodePayload) :
    RoundTrips RetryWithCodePayload.serialize RetryWithCodePayload.deserialize p := by
  apply Exists.intro
  apply And.intro (fill_of_length (by simp))
  simp [RetryWithCodePayload.deserialize]

theorem tensor_lookup_trips (p : TensorLookupPayload) :
    RoundTrips TensorLookupPayload.serialize TensorLookupPayload.deserialize p := by
  apply Exists.intro
  apply And.intro (fill_of_length (by simp))
  simp [TensorLookupPayload.deserialize]

theorem reg_code_trips {p : RegCodePayload} (h : p.codeBinary.length < 2^32) :
    RoundTrips RegCodePayload.serialize RegCodePayload.deserialize p := by
  rw [RoundTrips, RegCodePayload.serialize, Nat.mod_eq_of_lt h]
  apply Exists.intro
  apply And.intro (fill_of_length (by simp; omega))
  have hlen : ¬ 8+(4+p.codeBinary.length) < 12 := by omega
  simp [RegCodePayload.deserialize, readBlob_append h, hlen]

theorem reg_data_trips {p : RegDataPayload} (h : p.bufferBytes.length < 2^32) :
    RoundTrips RegDataPayload.serialize RegDataPayload.deserialize p := by
  rw [RoundTrips, RegDataPayload.serialize, Nat.mod_eq_of_lt h]
  apply Exists.intro
  apply And.intro (fill_of_length (by simp; omega))
  have hlen : ¬ 8+(2+(4+p.bufferBytes.length)) < 14 := by omega
  simp [RegDataPayload.deserialize, readBlob_append h, hlen]

theorem tensor_data_trips {p : TensorDataPayload} (h : p.data.length < 2^32) :
    RoundTrips TensorDataPayload.serialize TensorDataPayload.deserialize p := by
  rw [RoundTrips, TensorDataPayload.serialize, Nat.mod_eq_of_lt h]
  apply Exists.intro
  apply And.intro (fill_of_length (by simp; omega))
  have hlen : ¬ 8+(4+(4+p.data.length)) < 16 := by omega
  simp [TensorDataPayload.deserialize, readBlob_append h, hlen]

/-! The parameters of a call, all of them or as many as are there. -/

@[simp] theorem length_entry (e : ParamEntry) : e.bytes.length = 17 := by
  simp [ParamEntry.bytes]

theorem length_entries (es : List ParamEntry) :
    (es.map ParamEntry.bytes).flatten.length = 17*es.length := by
  induction es with
  | nil => rfl
  | cons e es ih =>
    simp only [List.map_cons, List.flatten_cons, List.length_append, length_entry, ih,
      List.length_cons]
    omega

@[simp] theorem read_entry (e : ParamEntry) (rest : List UInt8) :
    ParamEntry.read (e.bytes++rest) = some (e,rest) := by
  simp [ParamEntry.read, ParamEntry.bytes]

theorem readParams_take (n m : ℕ) (es : List ParamEntry) :
    readParams n ((es.map ParamEntry.bytes).flatten.take m) = some (es.take (min n (m/17))) := by
  induction n generalizing m es with
  | zero => simp [readParams]
  | succ n ih =>
    rw [readParams]
    by_cases hm : m < 17
    · rw [if_pos (by simp; omega), Nat.div_eq_of_lt hm]
      simp
    · cases es with
      | nil => simp
      | cons e es =>
        have htake : (((e::es).map ParamEntry.bytes).flatten).take m =
            e.bytes++((es.map ParamEntry.bytes).flatten).take (m-17) := by
          rw [List.map_cons, List.flatten_cons, List.take_append, length_entry,
            List.take_of_length_le (by simp; omega)]
        have hdiv : min (n+1) (m/17) = min n ((m-17)/17)+1 := by omega
        rw [htake, if_neg (by simp), read_entry, hdiv]
        simp [ih]

/-- What a call is encoded as, when the buffer is large enough. -/
def callBytes (p : CallTaskPayload) : List UInt8 :=
  toBytes 4 p.kernelSoName.length++(p.kernelSoName++(toBytes 4 p.taskId.toNat++
    (toBytes 2 p.scopeDepth.toNat++(toBytes 4 p.numParams.toNat++
      (p.params.map ParamEntry.bytes).flatten))))

theorem call_task_fits {p : CallTaskPayload} (hn : p.numParams.toNat = p.params.length)
    (h : p.kernelSoName.length+14 < 2^32) : p.serialize = some (callBytes p) := by
  have hlen : p.kernelSoName.length % 2^32 = p.kernelSoName.length := Nat.mod_eq_of_lt (by omega)
  have hsize : (4+p.kernelSoName.length+4+2+4) % 2^32 = 4+p.kernelSoName.length+4+2+4 :=
    Nat.mod_eq_of_lt (by omega)
  rw [CallTaskPayload.serialize, hlen, hsize, List.take_length, hn, List.take_length,
    fill_of_length (by simp; omega)]
  simp [callBytes, hn]

theorem call_task_overflows {p : CallTaskPayload} (h : p.kernelSoName.length < 2^32)
    (hbig : 2^32 ≤ p.kernelSoName.length+14) : p.serialize = none := by
  have hlen : p.kernelSoName.length % 2^32 = p.kernelSoName.length := Nat.mod_eq_of_lt h
  rw [CallTaskPayload.serialize, hlen, List.take_length, fill_overflows]
  · rfl
  · simp only [List.flatten_cons, List.flatten_nil, List.length_append, length_toBytes,
      List.length_nil]
    omega

theorem call_task_trips {p : CallTaskPayload} (hn : p.numParams.toNat = p.params.length)
    (h : p.kernelSoName.length < 2^32) :
    RoundTrips CallTaskPayload.serialize CallTaskPayload.deserialize p ↔
      p.kernelSoName.length+14 < 2^32 := by
  constructor
  · rintro ⟨b,hb,-⟩
    by_contra hbig
    rw [call_task_overflows h (by omega)] at hb
    cases hb
  · intro hfit
    apply Exists.intro
    apply And.intro (call_task_fits hn hfit)
    have hparams := readParams_take p.numParams.toNat (17*p.params.length) p.params
    rw [← length_entries, List.take_length, length_entries, Nat.mul_div_cancel_left _ (by decide),
      hn, Nat.min_self, List.take_length, ← hn] at hparams
    have hsize : ¬ (callBytes p).length < 14 := by
      simp [callBytes]
      omega
    rw [CallTaskPayload.deserialize, if_neg hsize, callBytes, read_length _ h]
    simp [hparams]

theorem readString_append {str : List UInt8} (h : str.length < 2^32) (rest : List UInt8) :
    readString (toBytes 4 str.length++(str++rest)) = some (str,rest) := by
  have hroom : 4 ≤ (toBytes 4 str.length++(str++rest)).length := by
    simp
  rw [readString, if_pos hroom, read_length _ h]
  simp

/-- What a heartbeat is encoded as, when the second buffer is large enough. -/
def heartbeatBytes (p : HeartbeatPayload) : List UInt8 :=
  [p.senderL6,p.senderL5,p.senderL4]++(toBytes 2 p.senderL3.toNat++(p.status::
    (toBytes 8 p.timestamp.toNat++(toBytes 4 p.logicalSystem.length++(p.logicalSystem++
      (toBytes 4 p.physicalSystem.length++(p.physicalSystem++[])))))))

theorem heartbeat_fits {p : HeartbeatPayload}
    (h : p.logicalSystem.length+p.physicalSystem.length+22 < 2^32) :
    p.serialize = some (heartbeatBytes p) := by
  have hls : p.logicalSystem.length % 2^32 = p.logicalSystem.length := Nat.mod_eq_of_lt (by omega)
  have hps : p.physicalSystem.length % 2^32 = p.physicalSystem.length :=
    Nat.mod_eq_of_lt (by omega)
  have hfirst : (4+1+8+4+p.logicalSystem.length+4+p.physicalSystem.length) % 2^32 =
      4+1+8+4+p.logicalSystem.length+4+p.physicalSystem.length := Nat.mod_eq_of_lt (by omega)
  have hsecond : (3+2+1+8+4+p.logicalSystem.length+4+p.physicalSystem.length) % 2^32 =
      3+2+1+8+4+p.logicalSystem.length+4+p.physicalSystem.length := Nat.mod_eq_of_lt (by omega)
  have hcoord : (fill (4+1+8+4+p.logicalSystem.length+4+p.physicalSystem.length)
      [[p.senderL6],[p.senderL5],[p.senderL4],toBytes 2 p.senderL3.toNat]).isSome :=
    fill_fits (by simp; omega)
  obtain ⟨c,hc⟩ := Option.isSome_iff_exists.mp hcoord
  simp only [HeartbeatPayload.serialize, hls, hps, hfirst, hsecond, hc, Option.bind_eq_bind,
    Option.bind_some, List.take_length]
  rw [fill_of_length (by simp; omega)]
  simp [heartbeatBytes]

theorem heartbeat_overflows {p : HeartbeatPayload} (hls : p.logicalSystem.length < 2^32)
    (hps : p.physicalSystem.length < 2^32)
    (hbig : 2^32 ≤ p.logicalSystem.length+p.physicalSystem.length+22) : p.serialize = none := by
  have hsecond : fill ((3+2+1+8+4+p.logicalSystem.length+4+p.physicalSystem.length) % 2^32)
      [[p.senderL6],[p.senderL5],[p.senderL4],toBytes 2 p.senderL3.toNat,[p.status],
        toBytes 8 p.timestamp.toNat,toBytes 4 p.logicalSystem.length,p.logicalSystem,
        toBytes 4 p.physicalSystem.length,p.physicalSystem] = none := by
    apply fill_overflows
    simp only [List.flatten_cons, List.flatten_nil, List.length_append, List.length_cons,
      List.length_nil, length_toBytes]
    omega
  simp only [HeartbeatPayload.serialize, Nat.mod_eq_of_lt hls, Nat.mod_eq_of_lt hps,
    List.take_length]
  apply Option.bind_eq_none_iff.mpr
  intro _ _
  exact hsecond

theorem heartbeat_trips {p : HeartbeatPayload} (hls : p.logicalSystem.length < 2^32)
    (hps : p.physicalSystem.length < 2^32) :
    RoundTrips HeartbeatPayload.serialize HeartbeatPayload.deserialize p ↔
      p.logicalSystem.length+p.physicalSystem.length+22 < 2^32 := by
  constructor
  · rintro ⟨b,hb,-⟩
    by_contra hbig
    rw [heartbeat_overflows hls hps (by omega)] at hb
    cases hb
  · intro hfit
    apply Exists.intro
    apply And.intro (heartbeat_fits hfit)
    have hsize : ¬ (heartbeatBytes p).length < 14 := by
      simp [heartbeatBytes]
      omega
    have hlast := readString_append hps []
    rw [List.append_nil] at hlast
    rw [HeartbeatPayload.deserialize, if_neg hsize, heartbeatBytes]
    simp [readString_append hls, hlast]

end Payloads

/-- Strings and blobs have a length of 32 bits, and the count of the
parameters is their number. -/
def Encodable : Payload → Prop
  | .callTask p => p.numParams.toNat = p.params.length ∧ p.kernelSoName.length < 2^32
  | .regCode p => p.codeBinary.length < 2^32
  | .regData p => p.bufferBytes.length < 2^32
  | .heartbeat p => p.logicalSystem.length < 2^32 ∧ p.physicalSystem.length < 2^32
  | .tensorData p => p.data.length < 2^32
  | _ => True

/-- The size of the buffer does not wrap. -/
def Fits : Payload → Prop
  | .callTask p => p.kernelSoName.length+14 < 2^32
  | .heartbeat p => p.logicalSystem.length+p.physicalSystem.length+22 < 2^32
  | _ => True

/-- Round trips of a payload type are those of the sum of the types. -/
theorem trips_of {α : Type} (serialize : α → Option (List UInt8))
    (deserialize : List UInt8 → Option α) {inj : α → Payload} (hinj : Function.Injective inj)
    {a : α} (hs : (inj a).serialize = serialize a)
    (hd : ∀ b, Payload.deserialize (inj a).type b = (deserialize b).map inj) :
    RoundTrips Payload.serialize (Payload.deserialize (inj a).type) (inj a) ↔
      RoundTrips serialize deserialize a := by
  simp only [RoundTrips, hs, hd, Option.map_eq_some_iff, hinj.eq_iff, exists_eq_right]

theorem payload_trips {p : Payload} (h : Encodable p) :
    RoundTrips Payload.serialize (Payload.deserialize p.type) p ↔ Fits p := by
  cases p with
  | callTask p =>
    rw [trips_of CallTaskPayload.serialize CallTaskPayload.deserialize (fun _ _ => Payload.callTask.inj) rfl
      fun _ => rfl]
    exact call_task_trips h.1 h.2
  | taskComplete p =>
    rw [trips_of TaskCompletePayload.serialize TaskCompletePayload.read (fun _ _ => Payload.taskComplete.inj) rfl
      fun _ => rfl]
    exact iff_of_true (task_complete_trips p) trivial
  | shutdown p =>
    rw [trips_of ShutdownPayload.serialize ShutdownPayload.deserialize (fun _ _ => Payload.shutdown.inj) rfl
      fun _ => rfl]
    exact iff_of_true (shutdown_trips p) trivial
  | regCode p =>
    rw [trips_of RegCodePayload.serialize RegCodePayload.deserialize (fun _ _ => Payload.regCode.inj) rfl
      fun _ => rfl]
    exact iff_of_true (reg_code_trips h) trivial
  | regData p =>
    rw [trips_of RegDataPayload.serialize RegDataPayload.deserialize (fun _ _ => Payload.regData.inj) rfl
      fun _ => rfl]
    exact iff_of_true (reg_data_trips h) trivial
  | scopeExit p =>
    rw [trips_of ScopeExitPayload.serialize ScopeExitPayload.deserialize (fun _ _ => Payload.scopeExit.inj) rfl
      fun _ => rfl]
    exact iff_of_true (scope_exit_trips p) trivial
  | retryWithCode p =>
    rw [trips_of RetryWithCodePayload.serialize RetryWithCodePayload.deserialize (fun _ _ => Payload.retryWithCode.inj) rfl
      fun _ => rfl]
    exact iff_of_true (retry_with_code_trips p) trivial
  | heartbeat p =>
    rw [trips_of HeartbeatPayload.serialize HeartbeatPayload.deserialize (fun _ _ => Payload.heartbeat.inj) rfl
      fun _ => rfl]
    exact heartbeat_trips h.1 h.2
  | tensorLookup p =>
    rw [trips_of TensorLookupPayload.serialize TensorLookupPayload.deserialize (fun _ _ => Payload.tensorLookup.inj) rfl
      fun _ => rfl]
    exact iff_of_true (tensor_lookup_trips p) trivial
  | tensorData p =>
    rw [trips_of TensorDataPayload.serialize TensorDataPayload.deserialize (fun _ _ => Payload.tensorData.inj) rfl
      fun _ => rfl]
    exact iff_of_true (tensor_data_trips h) trivial

/-- The part of a coordinate that a header holds. -/
def hostPart (c : LinquCoordinate) : LinquCoordinate := { c with l2Idx := 0, l1Idx := 0, l0Idx := 0 }

theorem make_sender (type : MsgType) (level : UInt8) (sender target : LinquCoordinate)
    (size : UInt32) : (LinquHeader.make type level sender target size).getSender =
      hostPart sender :=
  congrArg (fun x => { hostPart sender with l3Idx := x }) (index_halves sender.l3Idx)

theorem make_target (type : MsgType) (level : UInt8) (sender target : LinquCoordinate)
    (size : UInt32) : (LinquHeader.make type level sender target size).getTarget =
      hostPart target :=
  congrArg (fun x => { hostPart target with l3Idx := x }) (index_halves target.l3Idx)

/-- Headers are decoded to what was encoded, and the other way round; a payload
is exactly when the size of its buffer, computed in 32 bits, does not wrap. -/
theorem decode_encode_iff (h : LinquHeader) (b : List UInt8) (type : MsgType) (level : UInt8)
    (sender target : LinquCoordinate) (size : UInt32) (p : Payload) :
    LinquHeader.deserialize h.serialize = h ∧
      (b.length = wireSize → (LinquHeader.deserialize b).serialize = b) ∧
      (LinquHeader.make type level sender target size).getSender = hostPart sender ∧
      (LinquHeader.make type level sender target size).getTarget = hostPart target ∧
      (Encodable p →
        (RoundTrips Payload.serialize (Payload.deserialize p.type) p ↔ Fits p)) :=
  ⟨header_decodes h,header_encodes b,make_sender type level sender target size,
    make_target type level sender target size,payload_trips⟩

/-- A name whose length and fourteen bytes more are no longer a `uint32_t`. -/
def longName : CallTaskPayload := { kernelSoName := List.replicate (2^32-14) 0 }

theorem encodable_longName : Encodable (.callTask longName) := by
  constructor
  · rfl
  · simp only [longName, List.length_replicate]
    omega

theorem long_name_overflows : Encodable (.callTask longName) ∧
    ¬ RoundTrips Payload.serialize (Payload.deserialize .callTask) (.callTask longName) := by
  apply And.intro encodable_longName
  intro hr
  have hfit := (payload_trips encodable_longName).mp hr
  simp only [Fits, longName, List.length_replicate] at hfit
  omega

theorem decode_encode_iff_add : (LinquHeader.deserialize (zeros 24)).serialize = zeros 24 ∧
    RoundTrips Payload.serialize (Payload.deserialize .callTask)
      (.callTask { kernelSoName := [97,100,100], numParams := 1, params := [⟨3,0,7⟩] }) := by
  have h := decode_encode_iff {} (zeros 24) 0 0 {} {} 0
    (.callTask { kernelSoName := [97,100,100], numParams := 1, params := [⟨3,0,7⟩] })
  apply And.intro (h.2.1 rfl)
  apply (h.2.2.2.2 ⟨rfl,by decide⟩).mpr
  show 3+14 < 2^32
  norm_num

end Linqu.RoundTrip
