import Mathlib.Data.Int.Basic
import Mathlib.Data.Nat.Bitwise
import Mathlib.Tactic.IntervalCases

/-! Four-byte words in byte memory, in either byte order. -/
namespace Sqlite.Foundation


/-! Bits of natural numbers, as quotients and remainders. -/

/-- The bits of `c` from `k` on, as many as `j`, in their place. -/
theorem and_mask (c j k : ℕ) : c &&& (2 ^ j - 1) <<< k = c / 2 ^ k % 2 ^ j * 2 ^ k := by
  rw [← Nat.shiftRight_eq_div_pow, ← Nat.and_two_pow_sub_one_eq_mod, ← Nat.shiftLeft_eq]
  apply Nat.eq_of_testBit_eq
  intro i
  simp only [Nat.testBit_and, Nat.testBit_shiftLeft, Nat.testBit_shiftRight]
  by_cases h : k ≤ i
  · simp [h]
  · simp [h]

theorem and_low (c j : ℕ) : c &&& (2 ^ j - 1) = c % 2 ^ j := Nat.and_two_pow_sub_one_eq_mod c j

/-- Bits below those of a multiple of four. -/
theorem four_or (n : ℕ) {r : ℕ} (h : r < 4) : n * 4 ||| r = n * 4 + r := by
  rw [Nat.mul_comm n 4]
  exact (Nat.two_pow_add_eq_or_of_lt (i := 2) h n).symm

/-- Bits below those of a multiple of a power of two. -/
theorem mul_or {y k : ℕ} (x : ℕ) (h : y < 2 ^ k) : x * 2 ^ k ||| y = x * 2 ^ k + y := by
  rw [Nat.mul_comm x]
  exact (Nat.two_pow_add_eq_or_of_lt h x).symm

/-- Numbers are joined digit by digit. -/
theorem or_digits {y v k : ℕ} (x u : ℕ) (hy : y < 2 ^ k) (hv : v < 2 ^ k) :
    (x * 2 ^ k + y) ||| (u * 2 ^ k + v) = (x ||| u) * 2 ^ k + (y ||| v) := by
  have hlow : y ||| v < 2 ^ k := Nat.or_lt_two_pow hy hv
  rw [← mul_or x hy, ← mul_or u hv, ← mul_or _ hlow]
  apply Nat.eq_of_testBit_eq
  intro i
  simp only [Nat.testBit_or, Nat.testBit_mul_two_pow]
  by_cases hk : k ≤ i
  · simp only [hk, decide_true, Bool.true_and]
    grind
  · simp [hk]

theorem or_two (x : ℕ) : x ||| 2 = x / 4 * 4 + x % 2 + 2 := by
  have hx : x = x / 4 * 4 ||| x % 4 := by
    rw [four_or _ (Nat.mod_lt x (by decide))]
    omega
  have hr : x % 4 ||| 2 = x % 2 + 2 := by
    have hlt : x % 4 < 4 := Nat.mod_lt x (by decide)
    have h2 : x % 2 = x % 4 % 2 := by omega
    rw [h2]
    generalize x % 4 = r at hlt
    interval_cases r <;> rfl
  calc x ||| 2 = x / 4 * 4 ||| x % 4 ||| 2 := by rw [← hx]
    _ = x / 4 * 4 ||| (x % 2 + 2) := by rw [Nat.or_assoc, hr]
    _ = x / 4 * 4 + x % 2 + 2 := by
      rw [four_or _ (by omega)]
      omega

/-- The unsigned word at `a`, most significant byte first. -/
def getBE (m : ℕ → UInt8) (a : ℕ) : ℕ :=
  16777216 * (m a).toNat + 65536 * (m (a + 1)).toNat + 256 * (m (a + 2)).toNat +
    (m (a + 3)).toNat

def putBE (m : ℕ → UInt8) (a v : ℕ) : ℕ → UInt8 := fun x =>
  if x = a then .ofNat (v / 16777216)
  else if x = a + 1 then .ofNat (v / 65536)
  else if x = a + 2 then .ofNat (v / 256)
  else if x = a + 3 then .ofNat v
  else m x

/-- The unsigned word at `a`, least significant byte first. -/
def getLE (m : ℕ → UInt8) (a : ℕ) : ℕ :=
  (m a).toNat + 256 * (m (a + 1)).toNat + 65536 * (m (a + 2)).toNat +
    16777216 * (m (a + 3)).toNat

def putLE (m : ℕ → UInt8) (a v : ℕ) : ℕ → UInt8 := fun x =>
  if x = a then .ofNat v
  else if x = a + 1 then .ofNat (v / 256)
  else if x = a + 2 then .ofNat (v / 65536)
  else if x = a + 3 then .ofNat (v / 16777216)
  else m x

/-- The signed word at `a` in two's complement. -/
def getInt (m : ℕ → UInt8) (a : ℕ) : ℤ :=
  if getLE m a < 2147483648 then (getLE m a : ℤ) else -(4294967296 - (getLE m a : ℤ))

def putInt (m : ℕ → UInt8) (a : ℕ) (v : ℤ) : ℕ → UInt8 := putLE m a (v % 4294967296).toNat

variable {m m' : ℕ → UInt8} {a b v x : ℕ}

theorem getBE_lt (m : ℕ → UInt8) (a : ℕ) : getBE m a < 4294967296 := by
  have h0 := (m a).toNat_lt
  have h1 := (m (a + 1)).toNat_lt
  have h2 := (m (a + 2)).toNat_lt
  have h3 := (m (a + 3)).toNat_lt
  unfold getBE
  omega

/-- A word depends on its four bytes. -/
theorem getBE_congr (h : ∀ x, a ≤ x → x < a + 4 → m' x = m x) : getBE m' a = getBE m a := by
  unfold getBE
  rw [h a (by omega) (by omega), h (a + 1) (by omega) (by omega), h (a + 2) (by omega) (by omega),
    h (a + 3) (by omega) (by omega)]

theorem getLE_congr (h : ∀ x, a ≤ x → x < a + 4 → m' x = m x) : getLE m' a = getLE m a := by
  unfold getLE
  rw [h a (by omega) (by omega), h (a + 1) (by omega) (by omega), h (a + 2) (by omega) (by omega),
    h (a + 3) (by omega) (by omega)]

theorem putBE_of_outside (h : x < a ∨ a + 4 ≤ x) : putBE m a v x = m x := by
  unfold putBE
  rw [if_neg (by omega), if_neg (by omega), if_neg (by omega), if_neg (by omega)]

theorem putLE_of_outside (h : x < a ∨ a + 4 ≤ x) : putLE m a v x = m x := by
  unfold putLE
  rw [if_neg (by omega), if_neg (by omega), if_neg (by omega), if_neg (by omega)]

@[simp] theorem getBE_putBE_self (h : v < 4294967296) : getBE (putBE m a v) a = v := by
  have e0 : putBE m a v a = .ofNat (v / 16777216) := by simp [putBE]
  have e1 : putBE m a v (a + 1) = .ofNat (v / 65536) := by simp [putBE]
  have e2 : putBE m a v (a + 2) = .ofNat (v / 256) := by simp [putBE]
  have e3 : putBE m a v (a + 3) = .ofNat v := by simp [putBE]
  simp only [getBE, e0, e1, e2, e3, UInt8.toNat_ofNat']
  omega

theorem getLE_putLE_self (h : v < 4294967296) : getLE (putLE m a v) a = v := by
  have e0 : putLE m a v a = .ofNat v := by simp [putLE]
  have e1 : putLE m a v (a + 1) = .ofNat (v / 256) := by simp [putLE]
  have e2 : putLE m a v (a + 2) = .ofNat (v / 65536) := by simp [putLE]
  have e3 : putLE m a v (a + 3) = .ofNat (v / 16777216) := by simp [putLE]
  simp only [getLE, e0, e1, e2, e3, UInt8.toNat_ofNat']
  omega

theorem getLE_putLE_of_ne (h : b + 4 ≤ a ∨ a + 4 ≤ b) : getLE (putLE m a v) b = getLE m b :=
  getLE_congr (fun x h1 h2 => putLE_of_outside (by omega))

theorem getBE_putBE_of_ne (h : b + 4 ≤ a ∨ a + 4 ≤ b) : getBE (putBE m a v) b = getBE m b :=
  getBE_congr (fun _ _ _ => putBE_of_outside (by omega))

theorem getInt_congr (h : ∀ x, a ≤ x → x < a + 4 → m' x = m x) : getInt m' a = getInt m a := by
  unfold getInt
  rw [getLE_congr h]

theorem putInt_of_outside {v : ℤ} (h : x < a ∨ a + 4 ≤ x) : putInt m a v x = m x :=
  putLE_of_outside h

theorem getInt_putInt_self {v : ℤ} (h1 : -2147483648 ≤ v) (h2 : v < 2147483648) :
    getInt (putInt m a v) a = v := by
  have hlt : (v % 4294967296).toNat < 4294967296 := by omega
  unfold getInt putInt
  rw [getLE_putLE_self hlt]
  split_ifs <;> omega

theorem getInt_putInt_of_ne {v : ℤ} (h : b + 4 ≤ a ∨ a + 4 ≤ b) :
    getInt (putInt m a v) b = getInt m b :=
  getInt_congr (fun _ _ _ => putInt_of_outside (by omega))

section Swap

/-- The bytes of a word in the other order. -/
def byteSwap32 (x : ℕ) : ℕ :=
  ((x &&& 0x000000FF) <<< 24) + ((x &&& 0x0000FF00) <<< 8) + ((x &&& 0x00FF0000) >>> 8) +
    ((x &&& 0xFF000000) >>> 24)

theorem byteSwap32_eq (x : ℕ) : byteSwap32 x =
    16777216 * (x % 256) + 65536 * (x / 256 % 256) + 256 * (x / 65536 % 256) +
      x / 16777216 % 256 := by
  have h0 : x &&& 0x000000FF = x % 2 ^ 8 := and_low x 8
  have h1 : x &&& 0x0000FF00 = x / 2 ^ 8 % 2 ^ 8 * 2 ^ 8 := and_mask x 8 8
  have h2 : x &&& 0x00FF0000 = x / 2 ^ 16 % 2 ^ 8 * 2 ^ 16 := and_mask x 8 16
  have h3 : x &&& 0xFF000000 = x / 2 ^ 24 % 2 ^ 8 * 2 ^ 24 := and_mask x 8 24
  unfold byteSwap32
  rw [h0, h1, h2, h3]
  simp only [Nat.shiftLeft_eq, Nat.shiftRight_eq_div_pow, Nat.reducePow]
  omega

theorem byteSwap32_getLE (m : ℕ → UInt8) (a : ℕ) : byteSwap32 (getLE m a) = getBE m a := by
  have h0 := (m a).toNat_lt
  have h1 := (m (a + 1)).toNat_lt
  have h2 := (m (a + 2)).toNat_lt
  have h3 := (m (a + 3)).toNat_lt
  rw [byteSwap32_eq, getLE, getBE]
  omega

theorem byteSwap32_getBE (m : ℕ → UInt8) (a : ℕ) : byteSwap32 (getBE m a) = getLE m a := by
  have h0 := (m a).toNat_lt
  have h1 := (m (a + 1)).toNat_lt
  have h2 := (m (a + 2)).toNat_lt
  have h3 := (m (a + 3)).toNat_lt
  rw [byteSwap32_eq, getLE, getBE]
  omega

end Swap

end Sqlite.Foundation
