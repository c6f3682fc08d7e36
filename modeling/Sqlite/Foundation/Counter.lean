import Mathlib.Algebra.Order.Ring.Nat
import Mathlib.Data.Nat.Bitwise
import Mathlib.Tactic.Ring

/-! The bits of a counter: what adding one does to them, and the ends of the blocks of `2 ^ k`
elements that they stand for. -/
namespace Sqlite.Foundation

variable {n i k : ℕ}

theorem testBit_iff (n k : ℕ) : n.testBit k = true ↔ n / 2 ^ k % 2 = 1 := by
  rw [Nat.testBit_eq_decide_div_mod_eq, decide_eq_true_eq]

theorem div_mul_antitone (n : ℕ) {j k : ℕ} (h : j ≤ k) :
    n / 2 ^ k * 2 ^ k ≤ n / 2 ^ j * 2 ^ j := by
  obtain ⟨d, rfl⟩ := Nat.exists_eq_add_of_le h
  rw [pow_add, ← Nat.div_div_eq_div_mul, mul_comm (2 ^ j), ← mul_assoc]
  exact Nat.mul_le_mul_right _ (Nat.div_mul_le_self _ _)

theorem pred_succ_of_odd {x : ℕ} (h : x % 2 = 1) : x = x - 1 + 1 := by omega

theorem div_mul_succ_of_bit (h : n / 2 ^ i % 2 = 1) :
    n / 2 ^ (i + 1) * 2 ^ (i + 1) = (n / 2 ^ i - 1) * 2 ^ i := by
  have hhalf : n / 2 ^ (i + 1) = n / 2 ^ i / 2 := by rw [pow_succ, Nat.div_div_eq_div_mul]
  have hodd : n / 2 ^ i - 1 = n / 2 ^ i / 2 * 2 := by omega
  rw [hhalf, hodd, pow_succ]
  ring

theorem div_mul_succ_of_not_bit (h : n / 2 ^ i % 2 ≠ 1) :
    n / 2 ^ (i + 1) * 2 ^ (i + 1) = n / 2 ^ i * 2 ^ i := by
  have hhalf : n / 2 ^ (i + 1) = n / 2 ^ i / 2 := by rw [pow_succ, Nat.div_div_eq_div_mul]
  have heven : n / 2 ^ i = n / 2 ^ i / 2 * 2 := by omega
  rw [hhalf, pow_succ, mul_comm (2 ^ i), ← mul_assoc, ← heven]

/-- Adding one to a number whose lowest zero bit is `k`. -/
theorem succ_div (hlow : n % 2 ^ k = 2 ^ k - 1) (hbit : ¬ n.testBit k) :
    (n + 1) % 2 ^ k = 0 ∧ (n + 1) / 2 ^ k = n / 2 ^ k + 1 ∧
      ∀ j, k < j → (n + 1) / 2 ^ j = n / 2 ^ j := by
  have hpow := Nat.two_pow_pos k
  have heven : n / 2 ^ k % 2 = 0 :=
    (Nat.mod_two_eq_zero_or_one _).resolve_right fun h => hbit ((testBit_iff n k).mpr h)
  have hsucc : n + 1 = (n / 2 ^ k + 1) * 2 ^ k := by
    have hsplit := Nat.div_add_mod n (2 ^ k)
    rw [Nat.succ_mul, mul_comm (n / 2 ^ k)]
    omega
  have hdiv : (n + 1) / 2 ^ k = n / 2 ^ k + 1 := by
    conv_lhs => rw [hsucc]
    exact Nat.mul_div_cancel _ hpow
  refine ⟨?_, hdiv, fun j hj => ?_⟩
  · rw [hsucc, Nat.mul_mod_left]
  · obtain ⟨d, rfl⟩ := Nat.exists_eq_add_of_lt hj
    have hsplit : 2 ^ (k + d + 1) = 2 ^ k * 2 * 2 ^ d := by
      rw [pow_succ, pow_add]
      ring
    rw [hsplit, ← Nat.div_div_eq_div_mul, ← Nat.div_div_eq_div_mul, hdiv,
      ← Nat.div_div_eq_div_mul n, ← Nat.div_div_eq_div_mul n]
    congr 1
    omega

theorem testBit_succ (hlow : n % 2 ^ k = 2 ^ k - 1) (hbit : ¬ n.testBit k) :
    (∀ j, j < k → ¬ (n + 1).testBit j) ∧ (n + 1).testBit k ∧
      ∀ j, k < j → (n + 1).testBit j = n.testBit j := by
  obtain ⟨hmod, hdiv, hhigh⟩ := succ_div hlow hbit
  have heven : n / 2 ^ k % 2 = 0 :=
    (Nat.mod_two_eq_zero_or_one _).resolve_right fun h => hbit ((testBit_iff n k).mpr h)
  refine ⟨fun j hj hset => ?_, (testBit_iff _ _).mpr (by omega), fun j hj => ?_⟩
  · rw [← Nat.div_mul_cancel (Nat.dvd_of_mod_eq_zero hmod), Nat.testBit_mul_two_pow] at hset
    simp [not_le.mpr hj] at hset
  · rw [Nat.testBit_eq_decide_div_mod_eq, Nat.testBit_eq_decide_div_mod_eq, hhigh j hj]

/-- The low bits of a counter that are all set, and one more. -/
theorem low_ones_succ (hlow : n % 2 ^ i = 2 ^ i - 1) (hbit : n.testBit i) :
    n % 2 ^ (i + 1) = 2 ^ (i + 1) - 1 := by
  have hodd := (testBit_iff n i).mp hbit
  have hpow := Nat.two_pow_pos i
  rw [Nat.mod_pow_succ, hodd, hlow, pow_succ]
  omega

end Sqlite.Foundation
