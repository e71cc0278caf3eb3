import Mathlib.Data.Nat.Bits
import Mathlib.Logic.Function.Basic
import Mathlib.Tactic.Ring

/-!
Byte arrays as total functions from offsets, and the little-endian integer
fields a C program keeps in them. `getLE` reads `width` bytes, `putLE` stores
them. A field read after a store sees the stored value when it is the same
field and the old value when the two fields do not overlap.
-/

namespace Foundation.LittleEndian

abbrev Bytes := Nat → UInt8

def getLE (bytes : Bytes) : Nat → Nat → Nat
  | _, 0 => 0
  | offset, width + 1 => (bytes offset).toNat + 256 * getLE bytes (offset + 1) width

def putLE (bytes : Bytes) : Nat → Nat → Nat → Bytes
  | _, 0, _ => bytes
  | offset, width + 1, value =>
      putLE (Function.update bytes offset (UInt8.ofNat value)) (offset + 1) width (value / 256)

theorem getLE_congr (left right : Bytes) (offset width : Nat)
    (agree : ∀ index, offset ≤ index → index < offset + width → left index = right index) :
    getLE left offset width = getLE right offset width := by
  induction width generalizing offset with
  | zero => rfl
  | succ width ih =>
      rw [getLE, getLE, agree offset (Nat.le_refl _) (by omega),
        ih (offset + 1) (fun index low high => agree index (by omega) (by omega))]

/-- The same bytes at another place. -/
theorem getLE_moved (left right : Bytes) (width : Nat) : ∀ a b : Nat,
    (∀ index < width, left (a + index) = right (b + index)) → getLE left a width = getLE right b width := by
  induction width with
  | zero => intro a b _; rfl
  | succ width ih =>
      intro a b agree
      rw [getLE, getLE, show left a = right b from agree 0 (by omega), ih (a + 1) (b + 1) ?_]
      intro index low
      rw [Nat.add_assoc, Nat.add_assoc, Nat.add_comm 1 index]
      exact agree (index + 1) (by omega)

theorem getLE_lt (bytes : Bytes) (offset width : Nat) :
    getLE bytes offset width < 256 ^ width := by
  induction width generalizing offset with
  | zero => simp [getLE]
  | succ width ih =>
      have first := (bytes offset).toNat_lt
      have rest := ih (offset + 1)
      rw [getLE, pow_succ]
      omega

theorem putLE_outside (bytes : Bytes) (offset width value index : Nat)
    (outside : index < offset ∨ offset + width ≤ index) :
    putLE bytes offset width value index = bytes index := by
  induction width generalizing bytes offset value with
  | zero => rfl
  | succ width ih =>
      rw [putLE, ih _ _ _ (by omega), Function.update_of_ne (by omega)]

theorem getLE_putLE_same (bytes : Bytes) (offset width value : Nat)
    (fits : value < 256 ^ width) :
    getLE (putLE bytes offset width value) offset width = value := by
  induction width generalizing bytes offset value with
  | zero => simp only [pow_zero] at fits; simp only [getLE]; omega
  | succ width ih =>
      have head : putLE bytes offset (width + 1) value offset = UInt8.ofNat value := by
        rw [putLE, putLE_outside _ _ _ _ _ (by omega), Function.update_self]
      have low : (UInt8.ofNat value).toNat = value % 256 := by simp
      rw [getLE, head, low, putLE, ih _ _ _ (by rw [pow_succ] at fits; omega)]
      omega

theorem getLE_putLE_disjoint (bytes : Bytes) (offset width value other span : Nat)
    (apart : other + span ≤ offset ∨ offset + width ≤ other) :
    getLE (putLE bytes offset width value) other span = getLE bytes other span :=
  getLE_congr _ _ _ _ fun index low high =>
    putLE_outside bytes offset width value index (by omega)

/-- The two's complement reading of a 32-bit word. -/
def signed (word : Nat) : Int :=
  if word < 0x80000000 then (word : Int) else (word : Int) - 0x100000000

/-- A signed 32-bit field. -/
def getInt (bytes : Bytes) (offset : Nat) : Int := signed (getLE bytes offset 4)

def putInt (bytes : Bytes) (offset : Nat) (value : Int) : Bytes :=
  putLE bytes offset 4 (value % 0x100000000).toNat

theorem getInt_putInt_same (bytes : Bytes) (offset : Nat) (value : Int)
    (low : -0x80000000 ≤ value) (high : value < 0x80000000) :
    getInt (putInt bytes offset value) offset = value := by
  have fits : (value % 0x100000000).toNat < 256 ^ 4 := by norm_num; omega
  rw [getInt, putInt, getLE_putLE_same _ _ _ _ fits, signed]
  split <;> omega

theorem getInt_putLE_disjoint (bytes : Bytes) (offset width value other : Nat)
    (apart : other + 4 ≤ offset ∨ offset + width ≤ other) :
    getInt (putLE bytes offset width value) other = getInt bytes other :=
  congrArg signed
    (getLE_putLE_disjoint bytes offset width value other 4 apart)

end Foundation.LittleEndian
