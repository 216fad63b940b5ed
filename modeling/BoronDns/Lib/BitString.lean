import BoronDns.Lib.ListCompare
import Mathlib.Data.Nat.Bitwise
import Mathlib.Tactic.Common

/-!
Numbers as strings of bits, the most significant bit first, and lists of numbers
as the strings of their parts, a fixed number of bits each. Two lists of parts of
one size are equal when their strings are, and lists of one length compare as
their strings do, so text that spells the same string in parts of another size
sorts in the same order.
-/

namespace BitString

open ListCompare List Nat

def bits : ℕ → ℕ → List Bool
  | 0, _ => []
  | width + 1, value => value.testBit width :: bits width value

variable (width : ℕ) (values : List ℕ)

def chunks : List Bool := values.flatMap (bits width)

@[simp] theorem length_bits (value : ℕ) : (bits width value).length = width := by
  induction width with
  | zero => rfl
  | succ width ih => simp [bits, ih]

@[simp] theorem length_chunks : (chunks width values).length = width * values.length := by
  simp [chunks, length_flatMap, mul_comm]

@[simp] theorem chunks_nil : chunks width [] = [] := rfl

@[simp] theorem chunks_cons (value : ℕ) (values : List ℕ) :
    chunks width (value :: values) = bits width value ++ chunks width values := rfl

theorem chunks_append (left right : List ℕ) :
    chunks width (left ++ right) = chunks width left ++ chunks width right := by
  simp [chunks]

theorem bits_add (high low value : ℕ) :
    bits (high + low) value = bits high (value / 2 ^ low) ++ bits low value := by
  induction high with
  | zero => simp [bits]
  | succ high ih =>
    rw [succ_add, bits, ih, bits, testBit_div_two_pow, cons_append, add_comm high low]

theorem bits_mod {width bound : ℕ} (h : width ≤ bound) (value : ℕ) :
    bits width (value % 2 ^ bound) = bits width value := by
  induction width with
  | zero => rfl
  | succ width ih =>
    rw [bits, bits, ih (by omega), testBit_mod_two_pow]
    simp [show width < bound by omega]

theorem bits_zero : bits width 0 = List.replicate width false := by
  induction width with
  | zero => rfl
  | succ width ih => simp [bits, ih, replicate_succ]

/-- Appending the bits of a number is multiplying and adding. -/
theorem bits_mul_add {low tail : ℕ} (h : tail < 2 ^ low) (high value : ℕ) :
    bits (high + low) (value * 2 ^ low + tail) = bits high value ++ bits low tail := by
  have hpos : 0 < 2 ^ low := Nat.two_pow_pos low
  have hdiv : (value * 2 ^ low + tail) / 2 ^ low = value := by
    rw [mul_comm, mul_add_div hpos, div_eq_of_lt h, add_zero]
  have hmod : (value * 2 ^ low + tail) % 2 ^ low = tail := by
    rw [mul_comm, mul_add_mod, mod_eq_of_lt h]
  have hlow := bits_mod (le_refl low) (value * 2 ^ low + tail)
  rw [hmod] at hlow
  rw [bits_add, hdiv, hlow]

/-- The top bit of a number that fits is set when the number is in the upper
half. -/
theorem testBit_top {width value : ℕ} (h : value < 2 ^ (width + 1)) :
    value.testBit width = decide (2 ^ width ≤ value) := by
  by_cases hle : 2 ^ width ≤ value
  · have hone : value / 2 ^ width = 1 := by
      rw [Nat.div_eq_iff (Nat.two_pow_pos width)]
      omega
    simp [testBit_eq_decide_div_mod_eq, hone, hle]
  · rw [testBit_lt_two_pow (by omega)]
    simp [hle]

theorem bits_sub_top {width value : ℕ} (h : 2 ^ width ≤ value) :
    bits width (value - 2 ^ width) = bits width value := by
  rw [← bits_mod le_rfl value, ← bits_mod le_rfl (value - 2 ^ width), mod_eq_sub_mod h]

theorem bits_lt_iff {width left right : ℕ} (hleft : left < 2 ^ width) (hright : right < 2 ^ width) :
    bits width left < bits width right ↔ left < right := by
  induction width generalizing left right with
  | zero =>
    have hsame : left = right := by omega
    simp [bits, hsame]
  | succ width ih =>
    rw [bits, bits, cons_lt_cons_iff, testBit_top hleft, testBit_top hright]
    by_cases hl : 2 ^ width ≤ left
    · by_cases hr : 2 ^ width ≤ right
      · have hrest := ih (show left - 2 ^ width < 2 ^ width by omega)
          (show right - 2 ^ width < 2 ^ width by omega)
        rw [bits_sub_top hl, bits_sub_top hr] at hrest
        simp only [hl, hr, hrest, lt_self_iff_false, false_or, true_and]
        omega
      · simp only [hl, hr, decide_true, decide_false]
        constructor
        · rintro (h | ⟨h, -⟩)
          · exact absurd h (by decide)
          · exact absurd h (by decide)
        · omega
    · by_cases hr : 2 ^ width ≤ right
      · simp only [hl, hr, decide_true, decide_false, Bool.false_lt_true, true_or, true_iff]
        omega
      · have hrest := ih (not_le.mp hl) (not_le.mp hr)
        simp [hl, hr, hrest]

theorem bits_inj {width left right : ℕ} (hleft : left < 2 ^ width) (hright : right < 2 ^ width)
    (h : bits width left = bits width right) : left = right := by
  rcases lt_trichotomy left right with hlt | heq | hgt
  · exact absurd ((bits_lt_iff hleft hright).mpr hlt) (h ▸ lt_irrefl _)
  · exact heq
  · exact absurd ((bits_lt_iff hright hleft).mpr hgt) (h ▸ lt_irrefl _)

/-- Parts of the given width. -/
def Fits : Prop := ∀ value ∈ values, value < 2 ^ width

theorem chunks_lt_iff {width : ℕ} {left right : List ℕ} (hleft : Fits width left)
    (hright : Fits width right) (hlen : left.length = right.length) :
    chunks width left < chunks width right ↔ left < right := by
  induction left generalizing right with
  | nil =>
    have hnil : right = [] := length_eq_zero_iff.mp hlen.symm
    simp [hnil]
  | cons a left ih =>
    cases right with
    | nil => simp at hlen
    | cons b right =>
      have ha := hleft a (by simp)
      have hb := hright b (by simp)
      have hrest := ih (fun v hv => hleft v (mem_cons_of_mem _ hv))
        (fun v hv => hright v (mem_cons_of_mem _ hv)) (by simpa using hlen)
      have hhead : bits width a = bits width b ↔ a = b :=
        ⟨bits_inj ha hb, fun h => h ▸ rfl⟩
      rw [chunks_cons, chunks_cons, append_lt_append_iff (by simp), bits_lt_iff ha hb, hhead, hrest,
        cons_lt_cons_iff]

theorem chunks_inj {width : ℕ} (hwidth : 0 < width) {left right : List ℕ} (hleft : Fits width left)
    (hright : Fits width right) (h : chunks width left = chunks width right) : left = right := by
  have hlen : left.length = right.length := by
    have := congrArg List.length h
    rw [length_chunks, length_chunks] at this
    exact Nat.eq_of_mul_eq_mul_left hwidth this
  refine le_antisymm (not_lt.mp ?_) (not_lt.mp ?_)
  · rw [← chunks_lt_iff hright hleft hlen.symm, h]
    exact lt_irrefl _
  · rw [← chunks_lt_iff hleft hright hlen, h]
    exact lt_irrefl _

end BitString
