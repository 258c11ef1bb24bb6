import Linqu.Bytes
import Linqu.MsgTypes
import Linqu.OrchestrationApi

/-!
# The message header

Twenty-four bytes with the two coordinates down to the host level. The type
of a message is a byte, and one off the wire need not be a type that has a
name.
-/

set_option autoImplicit false

namespace Linqu.Header
open Linqu.Bytes Linqu.MsgTypes Linqu.OrchestrationApi

abbrev MsgType := UInt8

def MsgType.heartbeat : MsgType := 0
def MsgType.callTask : MsgType := 3

def linquMagic : UInt32 := 0x4C51524D

def wireSize : ℕ := 24

structure LinquHeader where
  magic : UInt32 := 0
  version : UInt8 := 0
  msgType : MsgType := 0
  senderLevel : UInt8 := 0
  reserved : UInt8 := 0
  payloadSize : UInt32 := 0
  senderL6 : UInt8 := 0
  senderL5 : UInt8 := 0
  senderL4 : UInt8 := 0
  senderL3Hi : UInt8 := 0
  senderL3Lo : UInt8 := 0
  targetL6 : UInt8 := 0
  targetL5 : UInt8 := 0
  targetL4 : UInt8 := 0
  targetL3Hi : UInt8 := 0
  targetL3Lo : UInt8 := 0
  padding0 : UInt8 := 0
  padding1 : UInt8 := 0
  deriving DecidableEq, Repr

namespace LinquHeader

def setSender (h : LinquHeader) (c : LinquCoordinate) : LinquHeader :=
  { h with
    senderL6 := c.l6Idx
    senderL5 := c.l5Idx
    senderL4 := c.l4Idx
    senderL3Hi := (c.l3Idx >>> 8).toUInt8
    senderL3Lo := (c.l3Idx &&& 0xFF).toUInt8 }

def getSender (h : LinquHeader) : LinquCoordinate :=
  { l6Idx := h.senderL6, l5Idx := h.senderL5, l4Idx := h.senderL4
    l3Idx := h.senderL3Hi.toUInt16 <<< 8 ||| h.senderL3Lo.toUInt16 }

def setTarget (h : LinquHeader) (c : LinquCoordinate) : LinquHeader :=
  { h with
    targetL6 := c.l6Idx
    targetL5 := c.l5Idx
    targetL4 := c.l4Idx
    targetL3Hi := (c.l3Idx >>> 8).toUInt8
    targetL3Lo := (c.l3Idx &&& 0xFF).toUInt8 }

def getTarget (h : LinquHeader) : LinquCoordinate :=
  { l6Idx := h.targetL6, l5Idx := h.targetL5, l4Idx := h.targetL4
    l3Idx := h.targetL3Hi.toUInt16 <<< 8 ||| h.targetL3Lo.toUInt16 }

/-- The buffer of `WIRE_SIZE` bytes. -/
def serialize (h : LinquHeader) : List UInt8 :=
  toBytes 4 h.magic.toNat++[h.version,h.msgType,h.senderLevel,h.reserved]++
    toBytes 4 h.payloadSize.toNat++
    [h.senderL6,h.senderL5,h.senderL4,h.senderL3Hi,h.senderL3Lo,
      h.targetL6,h.targetL5,h.targetL4,h.targetL3Hi,h.targetL3Lo,h.padding0,h.padding1]

def deserialize (buf : List UInt8) : LinquHeader :=
  { magic := ntohl buf 0
    version := buf.getD 4 0
    msgType := buf.getD 5 0
    senderLevel := buf.getD 6 0
    reserved := buf.getD 7 0
    payloadSize := ntohl buf 8
    senderL6 := buf.getD 12 0
    senderL5 := buf.getD 13 0
    senderL4 := buf.getD 14 0
    senderL3Hi := buf.getD 15 0
    senderL3Lo := buf.getD 16 0
    targetL6 := buf.getD 17 0
    targetL5 := buf.getD 18 0
    targetL4 := buf.getD 19 0
    targetL3Hi := buf.getD 20 0
    targetL3Lo := buf.getD 21 0
    padding0 := buf.getD 22 0
    padding1 := buf.getD 23 0 }

def make (type : MsgType) (senderLevel : UInt8) (sender target : LinquCoordinate)
    (payloadSize : UInt32) : LinquHeader :=
  (({ magic := linquMagic, version := 1, msgType := type, senderLevel, payloadSize } :
    LinquHeader).setSender sender).setTarget target

theorem length_serialize (h : LinquHeader) : h.serialize.length = wireSize := by
  simp [serialize, wireSize]

end LinquHeader

end Linqu.Header
