import Mathlib.Data.List.Infix
import Mathlib.Data.Nat.Bitwise
import Mathlib.Data.UInt
import Mathlib.Tactic.Common

/-!
Reading a byte buffer at a position. A buffer only ever grows at its end while
a message is written, so a fact about the bytes at a position is stated as one
list occurring there and is kept by every later write.
-/

namespace Bytes

open List UInt8

/-- `u16::to_be_bytes`. -/
def be16 (value : UInt16) : List UInt8 :=
  [UInt8.ofNat (value.toNat / 256), UInt8.ofNat (value.toNat % 256)]

/-- `u32::to_be_bytes`. -/
def be32 (value : UInt32) : List UInt8 :=
  [UInt8.ofNat (value.toNat / 16777216), UInt8.ofNat (value.toNat / 65536 % 256),
    UInt8.ofNat (value.toNat / 256 % 256), UInt8.ofNat (value.toNat % 256)]

/-- `u16::from_be_bytes`. -/
def fromBe16 (high low : UInt8) : UInt16 :=
  UInt16.ofNat (high.toNat * 256 + low.toNat)

/-- `u32::from_be_bytes`. -/
def fromBe32 (b0 b1 b2 b3 : UInt8) : UInt32 :=
  UInt32.ofNat (b0.toNat * 16777216 + b1.toNat * 65536 + b2.toNat * 256 + b3.toNat)

@[simp] theorem length_be16 (value : UInt16) : (be16 value).length = 2 := rfl

@[simp] theorem length_be32 (value : UInt32) : (be32 value).length = 4 := rfl

theorem be16_fromBe16 (high low : UInt8) : be16 (fromBe16 high low) = [high, low] := by
  have hhigh := high.toNat_lt
  have hlow := low.toNat_lt
  have hvalue : (fromBe16 high low).toNat = high.toNat * 256 + low.toNat := by
    rw [fromBe16, UInt16.toNat_ofNat']
    omega
  rw [be16, hvalue]
  congr 1
  · apply UInt8.toNat_inj.mp
    rw [UInt8.toNat_ofNat']
    omega
  · congr 1
    apply UInt8.toNat_inj.mp
    rw [UInt8.toNat_ofNat']
    omega

theorem fromBe16_be16 (value : UInt16) :
    fromBe16 (UInt8.ofNat (value.toNat / 256)) (UInt8.ofNat (value.toNat % 256)) = value := by
  have hvalue := value.toNat_lt
  apply UInt16.toNat_inj.mp
  rw [fromBe16, UInt16.toNat_ofNat', toNat_ofNat', toNat_ofNat']
  omega

theorem be32_fromBe32 (b0 b1 b2 b3 : UInt8) : be32 (fromBe32 b0 b1 b2 b3) = [b0, b1, b2, b3] := by
  have h0 := b0.toNat_lt
  have h1 := b1.toNat_lt
  have h2 := b2.toNat_lt
  have h3 := b3.toNat_lt
  have hvalue : (fromBe32 b0 b1 b2 b3).toNat = b0.toNat * 16777216 + b1.toNat * 65536 + b2.toNat *
      256 + b3.toNat := by
    rw [fromBe32, UInt32.toNat_ofNat']
    omega
  have hbyte : ∀ (value : ℕ) (byte : UInt8), value % 256 = byte.toNat →
      UInt8.ofNat value = byte := by
    intro value byte hmod
    apply UInt8.toNat_inj.mp
    exact hmod
  rw [be32, hvalue, hbyte _ b0 (by omega), hbyte _ b1 (by omega), hbyte _ b2 (by omega),
    hbyte _ b3 (by omega)]

theorem fromBe32_be32 (value : UInt32) :
    fromBe32 (UInt8.ofNat (value.toNat / 16777216)) (UInt8.ofNat (value.toNat / 65536 % 256))
      (UInt8.ofNat (value.toNat / 256 % 256)) (UInt8.ofNat (value.toNat % 256)) = value := by
  have hvalue := value.toNat_lt
  apply UInt32.toNat_inj.mp
  rw [fromBe32, UInt32.toNat_ofNat', toNat_ofNat', toNat_ofNat', toNat_ofNat', toNat_ofNat']
  omega

theorem ofNat_inj_of_lt {left right : ℕ} (hleft : left < 256) (hright : right < 256)
    (h : UInt8.ofNat left = UInt8.ofNat right) : left = right := by
  have hvalue := congrArg UInt8.toNat h
  simp only [toNat_ofNat'] at hvalue
  omega

theorem be16_inj {left right : UInt16} (h : be16 left = be16 right) : left = right := by
  have hleft := left.toNat_lt
  have hright := right.toNat_lt
  simp only [be16, List.cons.injEq, and_true] at h
  have hhigh := ofNat_inj_of_lt (by omega) (by omega) h.1
  have hlow := ofNat_inj_of_lt (by omega) (by omega) h.2
  apply UInt16.toNat_inj.mp
  omega

theorem be32_inj {left right : UInt32} (h : be32 left = be32 right) : left = right := by
  have hleft := left.toNat_lt
  have hright := right.toNat_lt
  simp only [be32, List.cons.injEq, and_true] at h
  have h0 := ofNat_inj_of_lt (by omega) (by omega) h.1
  have h1 := ofNat_inj_of_lt (by omega) (by omega) h.2.1
  have h2 := ofNat_inj_of_lt (by omega) (by omega) h.2.2.1
  have h3 := ofNat_inj_of_lt (by omega) (by omega) h.2.2.2
  apply UInt32.toNat_inj.mp
  omega

/-- The bytes `chunk` stand at `pos`. -/
def At (bytes : List UInt8) (pos : ℕ) (chunk : List UInt8) : Prop :=
  chunk <+: bytes.drop pos

namespace At

variable {bytes : List UInt8} {pos : ℕ} {chunk right : List UInt8}

theorem append (h : At bytes pos chunk) (hpos : pos ≤ bytes.length) (more : List UInt8) :
    At (bytes ++ more) pos chunk := by
  unfold At
  rw [drop_append_of_le_length hpos]
  exact h.trans (prefix_append _ _)

theorem at_end (bytes chunk : List UInt8) : At (bytes ++ chunk) bytes.length chunk := by
  unfold At
  rw [drop_left]

theorem at_end_append (bytes chunk more : List UInt8) :
    At (bytes ++ (chunk ++ more)) bytes.length chunk := by
  unfold At
  rw [drop_left]
  exact prefix_append _ _

variable {left : List UInt8}

theorem left_of_append (h : At bytes pos (left ++ right)) : At bytes pos left :=
  (prefix_append _ _).trans h

theorem right_of_append (left : List UInt8) (h : At bytes pos (left ++ right)) :
    At bytes (pos + left.length) right := by
  obtain ⟨rest, hrest⟩ := h
  refine ⟨rest, ?_⟩
  rw [← drop_drop, ← hrest, append_assoc, drop_left]

theorem getElem? {byte : UInt8} (h : At bytes pos (byte :: chunk)) : bytes[pos]? = some byte := by
  obtain ⟨rest, hrest⟩ := h
  rw [← List.head?_drop, ← hrest]
  rfl

theorem bound (h : At bytes pos chunk) (hne : chunk ≠ []) : pos + chunk.length ≤ bytes.length := by
  have hlen := List.IsPrefix.length_le h
  have hpos : 0 < chunk.length := length_pos_iff.mpr hne
  rw [length_drop] at hlen
  omega

theorem take_drop (h : At bytes pos chunk) : (bytes.drop pos).take chunk.length = chunk :=
  (prefix_iff_eq_take.mp h).symm

theorem exists_be16 (bytes : List UInt8) {pos : ℕ} (h : pos + 2 ≤ bytes.length) :
    ∃ value, At bytes pos (be16 value) := by
  refine ⟨fromBe16 bytes[pos] bytes[pos + 1], ?_⟩
  rw [be16_fromBe16]
  refine ⟨bytes.drop (pos + 2), ?_⟩
  rw [drop_eq_getElem_cons (show pos < bytes.length by omega),
    drop_eq_getElem_cons (show pos + 1 < bytes.length by omega)]
  rfl

theorem concat (hleft : At bytes pos left)
    (hright : At bytes (pos + left.length) right) : At bytes pos (left ++ right) := by
  obtain ⟨rest, hrest⟩ := hleft
  obtain ⟨tail, htail⟩ := hright
  rw [← drop_drop, ← hrest, drop_left] at htail
  exact ⟨tail, by rw [append_assoc, htail, hrest]⟩

theorem exists_be32 (bytes : List UInt8) {pos : ℕ} (h : pos + 4 ≤ bytes.length) :
    ∃ value, At bytes pos (be32 value) := by
  refine ⟨fromBe32 bytes[pos] bytes[pos + 1] bytes[pos + 2] bytes[pos + 3], ?_⟩
  rw [be32_fromBe32]
  refine ⟨bytes.drop (pos + 4), ?_⟩
  rw [drop_eq_getElem_cons (show pos < bytes.length by omega),
    drop_eq_getElem_cons (show pos + 1 < bytes.length by omega),
    drop_eq_getElem_cons (show pos + 2 < bytes.length by omega),
    drop_eq_getElem_cons (show pos + 3 < bytes.length by omega)]
  rfl

/-- Only one chunk of a given length stands at a position. -/
theorem unique (h : At bytes pos chunk) {other : List UInt8} (hother : At bytes pos other)
    (hlen : chunk.length = other.length) : chunk = other := by
  rw [← h.take_drop, ← hother.take_drop, hlen]

end At

end Bytes
