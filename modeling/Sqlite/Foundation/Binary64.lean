import Mathlib.Algebra.Order.Ring.Int
import Mathlib.Algebra.Order.Ring.Nat
import Mathlib.Data.Nat.Log
import Mathlib.Tactic.Ring

/-! Floating point numbers of sixty-four bits, by their bits, and the nearest one to an integer. -/
namespace Sqlite.Foundation.Binary64

/-- The biased exponent. -/
def exponent (d : ℕ) : ℕ := d / 2 ^ 52 % 2 ^ 11

/-- The absolute value in multiples of `2 ^ (-1074)`, the infinities behind all numbers. -/
def magnitude (d : ℕ) : ℕ :=
  if exponent d = 0 then d % 2 ^ 52 else (2 ^ 52 + d % 2 ^ 52) * 2 ^ (exponent d - 1)

def units (d : ℕ) : ℤ := if d / 2 ^ 63 % 2 = 1 then -(magnitude d : ℤ) else magnitude d

def IsFinite (d : ℕ) : Prop := exponent d < 2047

/-- No other number is nearer to the integer. -/
def IsNearest (d : ℕ) (i : ℤ) : Prop :=
  IsFinite d ∧ ∀ d', IsFinite d' →
    (units d - i * 2 ^ 1074).natAbs ≤ (units d' - i * 2 ^ 1074).natAbs

/-- Rounding to nearest keeps the order, whatever it does where two numbers are equally near. -/
theorem nearest_mono {i j : ℤ} {d e : ℕ} (hd : IsNearest d i) (he : IsNearest e j) (hij : i < j) :
    units d ≤ units e := by
  have hlt : i * 2 ^ 1074 < j * 2 ^ 1074 := mul_lt_mul_of_pos_right hij (pow_pos zero_lt_two _)
  have hde := hd.2 e he.1
  have hed := he.2 d hd.1
  generalize i * 2 ^ 1074 = x at *
  generalize j * 2 ^ 1074 = y at *
  omega

/-- Rounding to nearest, ties to the even fraction. -/
def ofNat (m : ℕ) : ℕ :=
  if m = 0 then 0
  else
    let e := Nat.log2 m
    let q := m * 2 ^ 52 / 2 ^ e
    let r := m * 2 ^ 52 % 2 ^ e
    (1022 + e) * 2 ^ 52 + if 2 ^ e < 2 * r ∨ (2 * r = 2 ^ e ∧ q % 2 = 1) then q + 1 else q

def ofInt (i : ℤ) : ℕ := if i < 0 then 2 ^ 63 + ofNat i.natAbs else ofNat i.natAbs

/-- Between two neighbours of a binade lies no other number. -/
theorem magnitude_gap {q k : ℕ} (hq : 2 ^ 52 ≤ q) (hk : 1 ≤ k) (d : ℕ) :
    magnitude d ≤ q * 2 ^ k ∨ (q + 1) * 2 ^ k ≤ magnitude d := by
  have hm : d % 2 ^ 52 < 2 ^ 52 := Nat.mod_lt _ (by decide)
  have hlow : 2 ^ 52 * 2 ^ k ≤ q * 2 ^ k := Nat.mul_le_mul_right _ hq
  unfold magnitude
  generalize d % 2 ^ 52 = f at hm
  split_ifs with hzero
  · have hpos := Nat.two_pow_pos k
    have hle : f ≤ f * 2 ^ k := Nat.le_mul_of_pos_right _ hpos
    have hf : f * 2 ^ k ≤ 2 ^ 52 * 2 ^ k := Nat.mul_le_mul_right _ hm.le
    exact Or.inl (by omega)
  · rcases Nat.lt_or_ge (exponent d - 1) k with hlt | hge
    · left
      have hpow : 2 ^ (exponent d - 1) ≤ 2 ^ (k - 1) := Nat.pow_le_pow_right (by decide) (by omega)
      have hk2 : 2 ^ k = 2 * 2 ^ (k - 1) := by
        rw [← pow_succ', Nat.sub_add_cancel hk]
      calc (2 ^ 52 + f) * 2 ^ (exponent d - 1) ≤ 2 ^ 53 * 2 ^ (k - 1) :=
            Nat.mul_le_mul (by omega) hpow
        _ = 2 ^ 52 * 2 ^ k := by rw [hk2]; ring
        _ ≤ q * 2 ^ k := hlow
    · obtain ⟨t, ht⟩ := Nat.exists_eq_add_of_le hge
      rw [ht, pow_add, mul_comm (2 ^ k), ← mul_assoc]
      generalize (2 ^ 52 + f) * 2 ^ t = a
      rcases Nat.lt_or_ge q a with hqa | haq
      · exact Or.inr (Nat.mul_le_mul_right _ hqa)
      · exact Or.inl (Nat.mul_le_mul_right _ haq)

/-- The bits of a fraction, carried into the exponent where it is full. -/
theorem bits_of_fraction {p e : ℕ} (hlo : 2 ^ 52 ≤ p) (hhi : p ≤ 2 ^ 53) (he : e < 64) :
    IsFinite ((1022 + e) * 2 ^ 52 + p) ∧ ((1022 + e) * 2 ^ 52 + p) < 2 ^ 63 ∧
      magnitude ((1022 + e) * 2 ^ 52 + p) = p * 2 ^ (1022 + e) := by
  rcases Nat.lt_or_ge p (2 ^ 53) with hlt | hge
  · have hexp : exponent ((1022 + e) * 2 ^ 52 + p) = 1023 + e := by
      unfold exponent
      omega
    have hfrac : ((1022 + e) * 2 ^ 52 + p) % 2 ^ 52 = p - 2 ^ 52 := by omega
    refine ⟨?_, by omega, ?_⟩
    · unfold IsFinite
      omega
    · unfold magnitude
      rw [hexp, hfrac, if_neg (by omega), show 2 ^ 52 + (p - 2 ^ 52) = p by omega,
        show 1023 + e - 1 = 1022 + e by omega]
  · obtain rfl : p = 2 ^ 53 := le_antisymm hhi hge
    have hexp : exponent ((1022 + e) * 2 ^ 52 + 2 ^ 53) = 1024 + e := by
      unfold exponent
      omega
    have hfrac : ((1022 + e) * 2 ^ 52 + 2 ^ 53) % 2 ^ 52 = 0 := by omega
    refine ⟨?_, by omega, ?_⟩
    · unfold IsFinite
      omega
    · unfold magnitude
      rw [hexp, hfrac, if_neg (by omega), show 1024 + e - 1 = 1022 + e + 1 by omega, pow_succ 2 (1022 + e)]
      generalize 2 ^ (1022 + e) = u
      omega

/-- The integer lies between two neighbours, and its bits stand for the nearer one. -/
theorem ofNat_spec {m : ℕ} (hlt : m < 2 ^ 64) : IsFinite (ofNat m) ∧ ofNat m < 2 ^ 63 ∧
    ∃ lo hi, lo ≤ m * 2 ^ 1074 ∧ m * 2 ^ 1074 ≤ hi ∧ (∀ d, magnitude d ≤ lo ∨ hi ≤ magnitude d) ∧
      ((magnitude (ofNat m) = lo ∧ m * 2 ^ 1074 - lo ≤ hi - m * 2 ^ 1074) ∨
        (magnitude (ofNat m) = hi ∧ hi - m * 2 ^ 1074 ≤ m * 2 ^ 1074 - lo)) := by
  rcases Nat.eq_zero_or_pos m with rfl | hpos
  · refine ⟨?_, by decide, 0, 0, Nat.zero_le _, (Nat.zero_mul _).le, by simp, Or.inl ?_⟩
    · unfold IsFinite
      decide
    · exact ⟨by decide, by rw [Nat.zero_mul]⟩
  have hlog : 2 ^ Nat.log2 m ≤ m := Nat.log2_self_le (by omega)
  have hlog' : m < 2 ^ (Nat.log2 m + 1) := Nat.lt_log2_self
  have he : Nat.log2 m < 64 := (Nat.log2_lt (by omega)).mpr hlt
  unfold ofNat
  rw [if_neg (by omega)]
  dsimp only
  generalize Nat.log2 m = e at *
  have hpow := Nat.two_pow_pos e
  have hq : 2 ^ 52 ≤ m * 2 ^ 52 / 2 ^ e := by
    rw [Nat.le_div_iff_mul_le hpow]
    omega
  have hq' : m * 2 ^ 52 / 2 ^ e < 2 ^ 53 := by
    rw [Nat.div_lt_iff_lt_mul hpow]
    rw [pow_succ] at hlog'
    omega
  have hdiv := Nat.div_add_mod (m * 2 ^ 52) (2 ^ e)
  have hr := Nat.mod_lt (m * 2 ^ 52) hpow
  have hgap := magnitude_gap hq (k := 1022 + e) (by omega)
  generalize m * 2 ^ 52 / 2 ^ e = q at *
  generalize m * 2 ^ 52 % 2 ^ e = r at *
  have hm : m * 2 ^ 1074 = (q * 2 ^ e + r) * 2 ^ 1022 := by
    rw [mul_comm q, hdiv, mul_assoc, show 1074 = 52 + 1022 by decide, pow_add]
  have hscale (p : ℕ) : p * 2 ^ (1022 + e) = p * 2 ^ e * 2 ^ 1022 := by
    rw [mul_assoc, ← pow_add, add_comm]
  have hsum : (q + 1) * 2 ^ e = q * 2 ^ e + 2 ^ e := by ring
  have hbits (p : ℕ) (hlo : 2 ^ 52 ≤ p) (hhi : p ≤ 2 ^ 53) := bits_of_fraction hlo hhi he
  simp only [hscale, hsum] at hgap hbits
  rw [hm]
  generalize ha : q * 2 ^ e = a at *
  generalize (2 : ℕ) ^ 1022 = u at *
  have hru : r * u ≤ 2 ^ e * u := Nat.mul_le_mul_right _ hr.le
  simp only [Nat.add_mul] at hgap hbits ⊢
  split_ifs with hup
  · obtain ⟨hfin, hsign, hmag⟩ := hbits (q + 1) (by omega) (by omega)
    have hhalf : 2 ^ e * u ≤ 2 * r * u := Nat.mul_le_mul_right _ (by omega)
    rw [mul_assoc] at hhalf
    rw [hsum, Nat.add_mul] at hmag
    exact ⟨hfin, hsign, a * u, a * u + 2 ^ e * u, by omega, by omega, hgap, Or.inr ⟨hmag, by omega⟩⟩
  · obtain ⟨hfin, hsign, hmag⟩ := hbits q hq (by omega)
    have hhalf : 2 * r * u ≤ 2 ^ e * u := Nat.mul_le_mul_right _ (by omega)
    rw [mul_assoc] at hhalf
    rw [ha] at hmag
    exact ⟨hfin, hsign, a * u, a * u + 2 ^ e * u, by omega, by omega, hgap, Or.inl ⟨hmag, by omega⟩⟩

theorem units_of_lt {d : ℕ} (h : d < 2 ^ 63) : units d = magnitude d := by
  unfold units
  rw [if_neg (by omega)]

theorem units_flip {d : ℕ} (h : d < 2 ^ 63) : units (2 ^ 63 + d) = -(magnitude d : ℤ) := by
  have hexp : exponent (2 ^ 63 + d) = exponent d := by
    unfold exponent
    omega
  have hfrac : (2 ^ 63 + d) % 2 ^ 52 = d % 2 ^ 52 := by omega
  unfold units magnitude
  rw [if_pos (by omega), hexp, hfrac]

theorem mul_scale (i : ℤ) (k : ℕ) :
    i * 2 ^ k = if i < 0 then -((i.natAbs * 2 ^ k : ℕ) : ℤ) else ((i.natAbs * 2 ^ k : ℕ) : ℤ) := by
  push_cast
  split_ifs with hneg
  · rw [abs_of_neg hneg]
    ring
  · rw [abs_of_nonneg (not_lt.mp hneg)]

/-- The conversion rounds to nearest. -/
theorem ofInt_nearest {i : ℤ} (h : i.natAbs < 2 ^ 64) : IsNearest (ofInt i) i := by
  obtain ⟨hfin, hsign, lo, hi, hlo, hhi, hgap, hp⟩ := ofNat_spec h
  have hunits (d : ℕ) : units d = magnitude d ∨ units d = -(magnitude d : ℤ) := by
    unfold units
    split_ifs <;> simp
  unfold ofInt
  by_cases hneg : i < 0
  · have habs := mul_scale i 1074
    rw [if_pos hneg] at habs ⊢
    refine ⟨?_, fun d _ => ?_⟩
    · unfold IsFinite exponent at hfin ⊢
      omega
    · have hd := hgap d
      have hside := hunits d
      rw [units_flip hsign, habs]
      generalize i.natAbs * 2 ^ 1074 = x at *
      generalize magnitude (ofNat i.natAbs) = p at *
      omega
  · have habs := mul_scale i 1074
    rw [if_neg hneg] at habs ⊢
    refine ⟨hfin, fun d _ => ?_⟩
    have hd := hgap d
    have hside := hunits d
    rw [units_of_lt hsign, habs]
    generalize i.natAbs * 2 ^ 1074 = x at *
    generalize magnitude (ofNat i.natAbs) = p at *
    omega

/-- Up to `2 ^ 53` every integer is a number. -/
theorem magnitude_ofNat {m : ℕ} (h : m ≤ 2 ^ 53) :
    ofNat m < 2 ^ 63 ∧ magnitude (ofNat m) = m * 2 ^ 1074 := by
  rcases Nat.eq_zero_or_pos m with rfl | hpos
  · rw [Nat.zero_mul]
    decide
  have hlog : 2 ^ Nat.log2 m ≤ m := Nat.log2_self_le (by omega)
  have hlog' : m < 2 ^ (Nat.log2 m + 1) := Nat.lt_log2_self
  have he : Nat.log2 m < 54 := (Nat.log2_lt (by omega)).mpr (by omega)
  unfold ofNat
  rw [if_neg (by omega)]
  dsimp only
  generalize Nat.log2 m = e at *
  -- The scaled number is a multiple of `2 ^ e`.
  obtain ⟨q, hq⟩ : 2 ^ e ∣ m * 2 ^ 52 := by
    rcases Nat.lt_or_ge 52 e with hlt | hge
    · obtain rfl : e = 53 := by omega
      obtain rfl : m = 2 ^ 53 := by omega
      exact Nat.dvd_mul_right _ _
    · exact (pow_dvd_pow 2 hge).mul_left m
  have hpow := Nat.two_pow_pos e
  have hlo : 2 ^ 52 ≤ q := by
    refine Nat.le_of_mul_le_mul_left ?_ hpow
    rw [← hq]
    exact Nat.mul_le_mul_right _ hlog
  have hhi : q < 2 ^ 53 := by
    refine Nat.lt_of_mul_lt_mul_left (a := 2 ^ e) ?_
    rw [← hq, ← pow_add, show e + 53 = (e + 1) + 52 by omega, pow_add]
    exact Nat.mul_lt_mul_of_pos_right hlog' (by decide)
  rw [hq, Nat.mul_mod_right, Nat.mul_div_cancel_left _ hpow, if_neg (by omega)]
  obtain ⟨-, hlt, hmag⟩ := bits_of_fraction hlo hhi.le (e := e) (by omega)
  refine ⟨hlt, ?_⟩
  rw [hmag, pow_add, ← mul_assoc, mul_comm (q * 2 ^ 1022), ← mul_assoc, ← hq, mul_assoc, ← pow_add]

theorem units_ofInt {i : ℤ} (h : i.natAbs ≤ 2 ^ 53) : units (ofInt i) = i * 2 ^ 1074 := by
  obtain ⟨hlt, hmag⟩ := magnitude_ofNat h
  have hscale := mul_scale i 1074
  unfold ofInt
  split_ifs at hscale ⊢ with hneg
  · rw [units_flip hlt, hmag, hscale]
  · rw [units_of_lt hlt, hmag, hscale]

/-- From `2 ^ 52` on every number is an integer. -/
theorem dvd_magnitude {d : ℕ} (h : 2 ^ 53 * 2 ^ 1074 ≤ magnitude d) : 2 ^ 1074 ∣ magnitude d := by
  have hm : d % 2 ^ 52 < 2 ^ 52 := Nat.mod_lt _ (by decide)
  unfold magnitude at h ⊢
  generalize d % 2 ^ 52 = f at hm h ⊢
  split_ifs at h ⊢ with hzero
  · have hle : 2 ^ 52 ≤ 2 ^ 53 * 2 ^ 1074 :=
      le_trans (by decide : 2 ^ 52 ≤ 2 ^ 53) (Nat.le_mul_of_pos_right _ (pow_pos two_pos 1074))
    exact absurd (h.trans_lt hm) hle.not_gt
  · refine (pow_dvd_pow 2 ?_).mul_left _
    by_contra hlt
    have hle : (2 ^ 52 + f) * 2 ^ (exponent d - 1) ≤ 2 ^ 53 * 2 ^ 1073 :=
      Nat.mul_le_mul (by omega) (pow_le_pow_right₀ one_le_two (by clear h; omega))
    have hdouble : (2 : ℕ) ^ 1074 = 2 * 2 ^ 1073 := by rw [← pow_succ']
    have hpos : 0 < (2 : ℕ) ^ 1073 := pow_pos two_pos 1073
    rw [hdouble] at h
    generalize (2 : ℕ) ^ 1073 = u at *
    omega

end Sqlite.Foundation.Binary64
