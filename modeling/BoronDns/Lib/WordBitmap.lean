import Mathlib.Data.UInt
import Mathlib.Logic.Function.Basic
import Mathlib.Tactic.Common

/-!
A bitmap kept in 64-bit words. A bit past the last word is never set. Setting a
bit makes it readable and clears no other.
-/

namespace WordBitmap

variable {n : ℕ}

variable (words : Fin n → UInt64)

def set (bit : ℕ) : Fin n → UInt64 :=
  if h : bit / 64 < n then
    Function.update words ⟨bit / 64, h⟩ (words ⟨bit / 64, h⟩ ||| (1 <<< UInt64.ofNat (bit % 64)))
  else
    words

def test (bit : ℕ) : Bool :=
  if h : bit / 64 < n then
    words ⟨bit / 64, h⟩ &&& (1 <<< UInt64.ofNat (bit % 64)) != 0
  else
    false

theorem shift_ne_zero (i : Fin 64) : (1 : UInt64) <<< UInt64.ofNat i.val ≠ 0 := by
  revert i
  decide

theorem and_ne_zero_of_or {x y z : UInt64} (h : x &&& z ≠ 0) : (x ||| y) &&& z ≠ 0 := by
  intro hz
  apply h
  apply UInt64.toBitVec_inj.mp
  have hb := congrArg UInt64.toBitVec hz
  simp only [UInt64.toBitVec_and, UInt64.toBitVec_or, UInt64.toBitVec_zero] at hb ⊢
  apply BitVec.eq_of_getLsbD_eq
  intro i _
  have hi := congrArg (fun v : BitVec 64 => v.getLsbD i) hb
  simp only [BitVec.getLsbD_and, BitVec.getLsbD_or, BitVec.getLsbD_zero] at hi ⊢
  cases hx : x.toBitVec.getLsbD i <;> simp_all

variable {bit : ℕ}

theorem test_set_self (h : bit / 64 < n) : test (set words bit) bit = true := by
  have hne := shift_ne_zero ⟨bit % 64, Nat.mod_lt _ (by decide)⟩
  simp only [test, set, h, dite_true, Function.update_self, bne_iff_ne]
  rw [UInt64.or_comm]
  apply and_ne_zero_of_or
  rw [UInt64.and_self]
  exact hne

theorem test_set_of_test (bit : ℕ) {other : ℕ} (h : test words other = true) :
    test (set words bit) other = true := by
  unfold test at h ⊢
  by_cases hother : other / 64 < n
  · simp only [hother, dite_true, bne_iff_ne] at h ⊢
    unfold set
    by_cases hbit : bit / 64 < n
    · simp only [hbit, dite_true]
      by_cases hsame : (⟨other / 64, hother⟩ : Fin n) = ⟨bit / 64, hbit⟩
      · rw [hsame, Function.update_self]
        exact and_ne_zero_of_or (hsame ▸ h)
      · rw [Function.update_of_ne hsame]
        exact h
    · simpa only [hbit, dite_false] using h
  · simp [hother] at h

theorem test_foldl_set_of_test (bits : List ℕ) (h : test words bit = true) :
    test (bits.foldl set words) bit = true :=
  List.foldlRecOn bits set h fun acc hacc added _ => test_set_of_test acc added hacc

theorem test_foldl_set_of_mem {bits : List ℕ} (hbits : ∀ bit ∈ bits, bit / 64 < n) (h : bit ∈ bits)
    : test (bits.foldl set words) bit = true := by
  obtain ⟨front, back, rfl⟩ := List.append_of_mem h
  rw [List.foldl_append, List.foldl_cons]
  exact test_foldl_set_of_test _ back (test_set_self _ (hbits bit h))

end WordBitmap
