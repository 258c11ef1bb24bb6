import Linqu.Bytes

/-!
# Message payloads

The payload of a TASK_COMPLETE message: two 32-bit words in network byte
order. A buffer that is too short is read as the default payload.
-/

set_option autoImplicit false

namespace Linqu.MsgTypes
open Linqu.Bytes

structure TaskCompletePayload where
  taskId : UInt32 := 0
  status : Int32 := 0
  deriving DecidableEq, Repr

/-- `ntohl` of the four bytes at an offset. -/
def ntohl (data : List UInt8) (off : ℕ) : UInt32 :=
  (data.getD off 0).toUInt32 <<< 24 ||| (data.getD (off+1) 0).toUInt32 <<< 16 |||
    (data.getD (off+2) 0).toUInt32 <<< 8 ||| (data.getD (off+3) 0).toUInt32

def TaskCompletePayload.deserialize (data : List UInt8) : TaskCompletePayload :=
  if data.length < 8 then {} else { taskId := ntohl data 0, status := (ntohl data 4).toInt32 }

/-- Shifting and joining a byte is a digit more in base 256. -/
theorem shift_or {x y : ℕ} (hy : y < 256) : x <<< 8 ||| y = x*256+y := by
  rw [← Nat.shiftLeft_add_eq_or_of_lt hy, Nat.shiftLeft_eq]

theorem ntohl_eq (data : List UInt8) (off : ℕ) : ntohl data off = .ofNat (ofBytes
    [data.getD off 0,data.getD (off+1) 0,data.getD (off+2) 0,data.getD (off+3) 0]) := by
  rw [ntohl]
  generalize data.getD off 0 = a, data.getD (off+1) 0 = b, data.getD (off+2) 0 = c,
    data.getD (off+3) 0 = d
  have ha := a.toNat_lt
  have hb := b.toNat_lt
  have hc := c.toNat_lt
  have hd := d.toNat_lt
  have hdigits : a.toNat <<< 24 ||| b.toNat <<< 16 ||| c.toNat <<< 8 ||| d.toNat =
      ((a.toNat*256+b.toNat)*256+c.toNat)*256+d.toNat := by
    rw [← shift_or hd, ← shift_or hc, ← shift_or hb]
    simp only [Nat.shiftLeft_or_distrib, ← Nat.shiftLeft_add]
  apply UInt32.toNat_inj.mp
  have hfit : ∀ {x k : ℕ}, x < 2^8 → k ≤ 24 → x <<< k % 2^32 = x <<< k := by
    intro x k hx hk
    apply Nat.mod_eq_of_lt
    calc
      x <<< k = x*2^k := Nat.shiftLeft_eq x k
      _ ≤ x*2^24 := Nat.mul_le_mul_left x (Nat.pow_le_pow_right (by decide) hk)
      _ < 2^32 := by omega
  simp only [UInt32.toNat_or, UInt32.toNat_shiftLeft, UInt8.toNat_toUInt32, UInt32.toNat_ofNat',
    ofBytes, List.foldl_cons, List.foldl_nil]
  show a.toNat <<< 24 % 2^32 ||| b.toNat <<< 16 % 2^32 ||| c.toNat <<< 8 % 2^32 ||| d.toNat = _
  rw [hfit ha (by decide), hfit hb (by decide), hfit hc (by decide), hdigits]
  omega

end Linqu.MsgTypes
