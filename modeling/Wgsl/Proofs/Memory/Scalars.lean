import Wgsl.Memory
import Wgsl.Proofs.Number.Halves

/-! # Scalars in buffers

Bytes written into an array are read back and leave the others alone, and the bytes of a scalar spell
that scalar again. A half-precision leaf has to hold a number that sixteen bits can hold.
-/

namespace Wgsl
set_option autoImplicit false

open Number (Single)

/-! ## Runs of bytes -/

namespace Bytes

theorem getElem?_write (data : Array UInt8) (start : Nat) (bytes : List UInt8) (i : Nat) :
    (write data start bytes)[i]? =
      if start ≤ i ∧ i < start + bytes.length ∧ i < data.size then bytes[i - start]? else data[i]? := by
  induction bytes generalizing data start with
  | nil =>
    have h : ¬(start ≤ i ∧ i < start + 0 ∧ i < data.size) := by omega
    rw [write, List.length_nil, if_neg h]
  | cons b rest ih =>
    rw [write, ih, Array.size_setIfInBounds, Array.getElem?_setIfInBounds, List.length_cons]
    by_cases hi : start = i
    · subst hi
      have h : ¬(start + 1 ≤ start ∧ start < start + 1 + rest.length ∧ start < data.size) := by omega
      rw [if_neg h, if_pos rfl]
      by_cases hs : start < data.size
      · rw [if_pos hs, if_pos ⟨le_refl _, by omega, hs⟩, Nat.sub_self, List.getElem?_cons_zero]
      · rw [if_neg hs, if_neg (fun h => hs h.2.2), Array.getElem?_eq_none (by omega)]
    · rw [if_neg hi]
      by_cases hc : start ≤ i ∧ i < start + (rest.length + 1) ∧ i < data.size
      · have e : i - start = i - (start + 1) + 1 := by omega
        rw [if_pos ⟨by omega, by omega, hc.2.2⟩, if_pos hc, e, List.getElem?_cons_succ]
      · rw [if_neg (by omega), if_neg hc]

/-- Bytes outside the run that is written stay as they are. -/
theorem getElem?_write_outside (data : Array UInt8) {start i : Nat} {bytes : List UInt8}
    (h : i < start ∨ start + bytes.length ≤ i) : (write data start bytes)[i]? = data[i]? := by
  rw [getElem?_write, if_neg (by omega)]

theorem getElem?_read {data : Array UInt8} {start count : Nat} (h : start + count ≤ data.size)
    (i : Nat) :
    ((read? data start count).getD [])[i]? = if i < count then data[start + i]? else none := by
  rw [read?, if_pos h, Option.getD_some, Array.getElem?_toList, Array.getElem?_extract]
  have e : min (start + count) data.size - start = count := by omega
  rw [e]

/-- Only the bytes of the run itself are read. -/
theorem read_congr {data data' : Array UInt8} {start count : Nat} (h : start + count ≤ data.size)
    (hs : data'.size = data.size)
    (hd : ∀ i, start ≤ i → i < start + count → data'[i]? = data[i]?) :
    (read? data' start count).getD [] = (read? data start count).getD [] := by
  apply List.ext_getElem?
  intro i
  rw [getElem?_read h, getElem?_read (by omega)]
  split
  · exact hd (start + i) (by omega) (by omega)
  · rfl

theorem read_write (data : Array UInt8) {start : Nat} {bytes : List UInt8}
    (h : start + bytes.length ≤ data.size) :
    (read? (write data start bytes) start bytes.length).getD [] = bytes := by
  apply List.ext_getElem?
  intro i
  rw [getElem?_read (by rw [size_write]; exact h), getElem?_write]
  by_cases hi : i < bytes.length
  · rw [if_pos hi, if_pos ⟨by omega, by omega, by omega⟩, Nat.add_sub_cancel_left]
  · rw [if_neg hi, List.getElem?_eq_none (by omega)]

theorem toUInt32_ofUInt32 (n : UInt32) : toUInt32 (ofUInt32 n) = n := by
  have h : n.toNat < 4294967296 := n.toNat_lt
  rw [toUInt32, ofUInt32, toNat_ofNat]
  have e : n.toNat % Nat.pow 256 4 = n.toNat := Nat.mod_eq_of_lt h
  rw [e]
  exact UInt32.ofNat_toNat

theorem toUInt16_ofUInt16 (n : UInt16) : toUInt16 (ofUInt16 n) = n := by
  have h : n.toNat < 65536 := n.toNat_lt
  rw [toUInt16, ofUInt16, toNat_ofNat]
  have e : n.toNat % Nat.pow 256 2 = n.toNat := Nat.mod_eq_of_lt h
  rw [e]
  exact UInt16.ofNat_toNat

end Bytes

/-! ## Scalars -/

/-- The value is a scalar of the kind. Half-precision scalars are held as singles. -/
def Value.OfKind : ScalarKind → Value → Prop
  | .bool, .bool _ => True
  | .i32, .i32 _ => True
  | .u32, .u32 _ => True
  | .f32, .f32 _ => True
  | .f16, .f32 x => Number.Half.Holds x
  | _, _ => False

theorem ScalarKind.length_of_encode {kind : ScalarKind} {v : Value} {bytes : List UInt8}
    (h : kind.encode v = .ok bytes) : bytes.length = kind.size := by
  cases kind <;> simp only [encode, Functor.map, Except.map] at h <;> split at h <;> cases h <;>
    simp [Bytes.ofUInt32, Bytes.ofUInt16, size]

/-- The bytes of a scalar spell the scalar. -/
theorem ScalarKind.decode_encode {kind : ScalarKind} {v : Value} (h : v.OfKind kind) :
    ∃ bytes, kind.encode v = .ok bytes ∧ kind.decode bytes = v := by
  cases kind <;> cases v <;> simp only [Value.OfKind] at h
  · rename_i b
    refine ⟨_, rfl, ?_⟩
    cases b <;> rfl
  · rename_i n
    refine ⟨_, rfl, ?_⟩
    simp only [decode, Bytes.toUInt32_ofUInt32]
    simp
  · refine ⟨_, rfl, ?_⟩
    simp only [decode, Bytes.toUInt32_ofUInt32]
    simp
  · refine ⟨_, rfl, ?_⟩
    simp only [decode, Bytes.toUInt32_ofUInt32]
  · refine ⟨_, rfl, ?_⟩
    simp only [decode, Bytes.toUInt16_ofUInt16, Number.Half.toSingle_ofSingle h]

end Wgsl
