/-! # Bytes

Numbers as bytes, the least significant byte first, and runs of bytes in an array.
-/

namespace Wgsl.Bytes
set_option autoImplicit false

/-- The lowest `count` bytes of a number, the least significant first. -/
def ofNat : Nat → Nat → List UInt8
  | 0, _ => []
  | count + 1, n => (n % 256).toUInt8 :: ofNat count (n / 256)

/-- The number that the bytes spell. -/
def toNat : List UInt8 → Nat
  | [] => 0
  | b :: r => b.toNat + 256 * toNat r

/-- The four bytes of a word. -/
def ofUInt32 (n : UInt32) : List UInt8 := ofNat 4 n.toNat

/-- The two bytes of a half word. -/
def ofUInt16 (n : UInt16) : List UInt8 := ofNat 2 n.toNat

/-- The word that the bytes spell. -/
def toUInt32 (bytes : List UInt8) : UInt32 := (toNat bytes).toUInt32

/-- The half word that the bytes spell. -/
def toUInt16 (bytes : List UInt8) : UInt16 := (toNat bytes).toUInt16

@[simp] theorem length_ofNat (count n : Nat) : (ofNat count n).length = count := by
  induction count generalizing n with
  | zero => rfl
  | succ count ih => simp [ofNat, ih]

/-- Bytes written and read back give the number that fits in them. -/
theorem toNat_ofNat (count n : Nat) : toNat (ofNat count n) = n % Nat.pow 256 count := by
  induction count generalizing n with
  | zero => simp [ofNat, toNat, Nat.mod_one]
  | succ count ih =>
    have byte : (n % 256).toUInt8.toNat = n % 256 := by simp
    have split : Nat.pow 256 (count + 1) = 256 * Nat.pow 256 count := Nat.mul_comm ..
    rw [ofNat, toNat, ih, byte, split, Nat.mod_mul]

/-! ## Runs of bytes in an array -/

/-- The `count` bytes from `start` on, if the array has them all. -/
def read? (data : Array UInt8) (start count : Nat) : Option (List UInt8) :=
  if start + count ≤ data.size then some (data.extract start (start + count)).toList else none

/-- The array with the bytes written from `start` on. -/
def write (data : Array UInt8) (start : Nat) : List UInt8 → Array UInt8
  | [] => data
  | b :: r => write (data.setIfInBounds start b) (start + 1) r

@[simp] theorem size_write (data : Array UInt8) (start : Nat) (bytes : List UInt8) :
    (write data start bytes).size = data.size := by
  induction bytes generalizing data start with
  | nil => rfl
  | cons b r ih => simp [write, ih]

end Wgsl.Bytes
