import Linqu.OrchestrationApi

/-!
# The registry of peers

A map from a coordinate and a level to what is known of the peer. The order
in which the map is walked is not modelled.
-/

set_option autoImplicit false

namespace Linqu.PeerRegistry
open Linqu.OrchestrationApi

structure PeerInfo where
  coord : LinquCoordinate
  level : UInt8
  socketPath : String := ""
  alive : Bool := true
  deriving DecidableEq, Repr

/-- The result type of `index_at` is 8 bits wide at every level. -/
def indexAt (c : LinquCoordinate) : ℕ → UInt8
  | 0 => c.l0Idx.toUInt8
  | 1 => c.l1Idx
  | 2 => c.l2Idx.toUInt8
  | 3 => c.l3Idx.toUInt8
  | 4 => c.l4Idx
  | 5 => c.l5Idx
  | 6 => c.l6Idx
  | _ => 0

/-- The loop of `peers_same_parent`, from level `lv` down to the child's. -/
def sameParent (childLevel : ℕ) (coord self : LinquCoordinate) : ℕ → Bool
  | 0 => true
  | lv+1 =>
    if childLevel < lv+1 then
      if indexAt coord (lv+1) ≠ indexAt self (lv+1) then false
      else sameParent childLevel coord self lv
    else true

abbrev CoordLevelKey := LinquCoordinate × UInt8

structure PeerRegistry where
  peers : List (CoordLevelKey × PeerInfo) := []
  deriving DecidableEq, Repr

namespace PeerRegistry

def add (r : PeerRegistry) (peer : PeerInfo) : PeerRegistry :=
  { peers := ((peer.coord,peer.level),peer)::
      r.peers.filter (fun e => e.1 ≠ (peer.coord,peer.level)) }

def remove (r : PeerRegistry) (coord : LinquCoordinate) (level : UInt8) : PeerRegistry :=
  { peers := r.peers.filter (fun e => e.1 ≠ (coord,level)) }

def setAlive (r : PeerRegistry) (coord : LinquCoordinate) (level : UInt8) (alive : Bool) :
    PeerRegistry :=
  { peers := r.peers.map (fun e => if e.1 = (coord,level) then (e.1,{ e.2 with alive }) else e) }

def peersAtLevel (r : PeerRegistry) (level : UInt8) : List PeerInfo :=
  (r.peers.filter (fun e => e.1.2 = level ∧ e.2.alive)).map Prod.snd

def peersSameParent (r : PeerRegistry) (self : LinquCoordinate) (childLevel : UInt8) :
    List PeerInfo :=
  (r.peers.filter (fun e => e.1.2 = childLevel ∧ e.2.alive ∧
    sameParent childLevel.toNat e.2.coord self 6)).map Prod.snd

end PeerRegistry
end Linqu.PeerRegistry
