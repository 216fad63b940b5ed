import BoronDns.Lib.Bytes
import BoronDns.Lib.Except

/-!
Reading the fields of a file in order. A reader takes its field off the front of
the bytes and gives what is left; when there are too few bytes it fails with the
error it was given. Each reader undoes the writer of its field.
-/

namespace Fields

open Bytes List

variable {ε : Type}

/-- `u64::to_be_bytes`. -/
def be64 (value : UInt64) : List UInt8 :=
  be32 (UInt32.ofNat (value.toNat / 4294967296)) ++ be32 (UInt32.ofNat (value.toNat % 4294967296))

@[simp] theorem length_be64 (value : UInt64) : (be64 value).length = 8 := rfl

def take (truncated : ε) (length : ℕ) (bytes : List UInt8) : Except ε (List UInt8 × List UInt8) :=
  if bytes.length < length then .error truncated else .ok (bytes.take length, bytes.drop length)

def u8 (truncated : ε) : List UInt8 → Except ε (UInt8 × List UInt8)
  | value :: rest => .ok (value, rest)
  | _ => .error truncated

def u16 (truncated : ε) : List UInt8 → Except ε (UInt16 × List UInt8)
  | high :: low :: rest => .ok (fromBe16 high low, rest)
  | _ => .error truncated

def u32 (truncated : ε) : List UInt8 → Except ε (UInt32 × List UInt8)
  | b0 :: b1 :: b2 :: b3 :: rest => .ok (fromBe32 b0 b1 b2 b3, rest)
  | _ => .error truncated

def u64 (truncated : ε) (bytes : List UInt8) : Except ε (UInt64 × List UInt8) := do
  let (high, rest) ← u32 truncated bytes
  let (low, rest) ← u32 truncated rest
  .ok (UInt64.ofNat (high.toNat * 4294967296 + low.toNat), rest)

/-- The same field a number of times. -/
def many {α : Type} (read : List UInt8 → Except ε (α × List UInt8)) :
    ℕ → List UInt8 → Except ε (List α × List UInt8)
  | 0, bytes => .ok ([], bytes)
  | count + 1, bytes => do
    let (item, rest) ← read bytes
    let (items, rest) ← many read count rest
    .ok (item :: items, rest)

section Writers

variable (truncated : ε)

theorem take_append {length : ℕ} (front back : List UInt8) (h : front.length = length) :
    take truncated length (front ++ back) = .ok (front, back) := by
  rw [take, if_neg (by rw [length_append]; omega), ← h, take_left, drop_left]

@[simp] theorem u8_cons (value : UInt8) (rest : List UInt8) :
    u8 truncated (value :: rest) = .ok (value, rest) := rfl

@[simp] theorem u16_be16 (value : UInt16) (rest : List UInt8) :
    u16 truncated (be16 value ++ rest) = .ok (value, rest) := by
  show Except.ok (fromBe16 _ _, rest) = _
  rw [fromBe16_be16]

@[simp] theorem u32_be32 (value : UInt32) (rest : List UInt8) :
    u32 truncated (be32 value ++ rest) = .ok (value, rest) := by
  show Except.ok (fromBe32 _ _ _ _, rest) = _
  rw [fromBe32_be32]

@[simp] theorem u64_be64 (value : UInt64) (rest : List UInt8) :
    u64 truncated (be64 value ++ rest) = .ok (value, rest) := by
  have hvalue : UInt64.ofNat (value.toNat / 4294967296 * 4294967296 + value.toNat % 4294967296) =
      value := by
    rw [Nat.div_add_mod', UInt64.ofNat_toNat]
  have hhigh : (UInt32.ofNat (value.toNat / 4294967296)).toNat = value.toNat / 4294967296 :=
    UInt32.toNat_ofNat_of_lt' (Nat.div_lt_of_lt_mul value.toNat_lt)
  have hlow : (UInt32.ofNat (value.toNat % 4294967296)).toNat = value.toNat % 4294967296 :=
    UInt32.toNat_ofNat_of_lt' (Nat.mod_lt _ (by decide))
  simp only [u64, be64, append_assoc, u32_be32, Except.ok_bind_eq, hhigh, hlow, hvalue]

end Writers

section Many

variable {α : Type} {write : α → List UInt8}

theorem many_write {read : List UInt8 → Except ε (α × List UInt8)} {items : List α}
    (h : ∀ item ∈ items, ∀ rest, read (write item ++ rest) = .ok (item, rest)) (rest : List UInt8) :
    many read items.length (items.flatMap write ++ rest) = .ok (items, rest) := by
  induction items with
  | nil => rfl
  | cons item items ih =>
    have hrest := ih fun other hother => h other (mem_cons_of_mem _ hother)
    simp [many, h item (mem_cons_self ..), hrest]

/-- Items that take a least number of bytes each take as much together. -/
theorem mul_length_le {least : ℕ} (h : ∀ item, least ≤ (write item).length) (items : List α) :
    least * items.length ≤ (items.flatMap write).length := by
  induction items with
  | nil => exact Nat.zero_le _
  | cons item items ih =>
    have hitem := h item
    rw [flatMap_cons, length_append, length_cons, Nat.mul_succ]
    omega

end Many

end Fields
