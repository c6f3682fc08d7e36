import Mathlib.Data.Nat.Log
import Sqlite.Fts.Totals

/-! Integers as the full-text index stores them: bytes of seven bits each, lowest first, every byte but
the last with its high bit set. -/
namespace Sqlite.Doclist

open Fts (sqlite3Fts3PutVarint sqlite3Fts3GetVarint)

/-- The bits of a signed integer, as `sqlite3Fts3PutVarint` takes them. -/
def u64 (v : ℤ) : ℕ := (v % 2 ^ 64).toNat

/-- The signed integer with the bits of `v`. -/
def i64 (v : ℤ) : ℤ := Int.bmod v (2 ^ 64)

/-- An `int` with the low bits of `v`. -/
def i32 (v : ℤ) : ℤ := Int.bmod v (2 ^ 32)

theorem u64_lt (v : ℤ) : u64 v < 2 ^ 64 := by
  rw [u64]
  omega

theorem u64_cast (n : ℕ) (h : n < 2 ^ 64) : u64 n = n := by
  rw [u64]
  omega

theorem u64_eq {v : ℤ} {n : ℕ} (h : v = n) (hn : n < 2 ^ 64) : u64 v = n := by
  rw [h, u64_cast n hn]

theorem i64_of_fits {v : ℤ} (h : -2 ^ 63 ≤ v) (h' : v < 2 ^ 63) : i64 v = v := by
  rw [i64, Int.bmod_def]
  omega

theorem i32_of_fits {v : ℤ} (h : -2 ^ 31 ≤ v) (h' : v < 2 ^ 31) : i32 v = v := by
  rw [i32, Int.bmod_def]
  omega

theorem cast_u64 {v : ℤ} (h : 0 ≤ v) (h' : v < 2 ^ 64) : (u64 v : ℤ) = v := by
  rw [u64]
  omega

/-- A value is the same after a step down to it and a step back, wherever the step wraps. -/
theorem i64_add_u64_sub {x y : ℤ} (h : -2 ^ 63 ≤ y) (h' : y < 2 ^ 63) :
    i64 (x + (u64 (y - x) : ℤ)) = y := by
  rw [i64, u64, Int.bmod_def]
  omega

theorem i64_sub_u64_sub {x y : ℤ} (h : -2 ^ 63 ≤ y) (h' : y < 2 ^ 63) :
    i64 (x - (u64 (x - y) : ℤ)) = y := by
  rw [i64, u64, Int.bmod_def]
  omega

theorem putLoop_mono {n m v : ℕ} (hn : n ≠ 0) (hm : n ≤ m) (hv : v < 128 ^ n) :
    Fts.putLoop m v = Fts.putLoop n v := by
  induction n generalizing m v with
  | zero => exact absurd rfl hn
  | succ n ih =>
    obtain ⟨m, rfl⟩ : ∃ k, m = k + 1 := ⟨m - 1, by omega⟩
    have hshift : v >>> 7 = v / 128 := Nat.shiftRight_eq_div_pow v 7
    rw [Fts.putLoop, Fts.putLoop, hshift]
    by_cases hsmall : v / 128 = 0
    · rw [if_pos hsmall, if_pos hsmall]
    · have hlt : v / 128 < 128 ^ n := by
        rw [Nat.div_lt_iff_lt_mul (by decide), ← pow_succ]
        exact hv
      have hn' : n ≠ 0 := by
        rintro rfl
        simp at hlt
        omega
      rw [if_neg hsmall, if_neg hsmall, ih hn' (by omega) hlt]

theorem or_high : ∀ r < 128, r ||| 0x80 = r + 128 ∧ (r ||| 0x80) &&& 0x7f = r := by
  decide

theorem putVarint_small {v : ℕ} (h : v < 128) : sqlite3Fts3PutVarint v = [v] := by
  have hlow : v &&& 0x7f = v := by
    rw [Nat.and_two_pow_sub_one_eq_mod v 7]
    exact Nat.mod_eq_of_lt h
  have hshift : v >>> 7 = 0 := by
    rw [Nat.shiftRight_eq_div_pow]
    omega
  rw [sqlite3Fts3PutVarint, Fts.FTS3_VARINT_MAX, Fts.putLoop, if_pos hshift, hlow, (or_high v h).2]

theorem putVarint_big {v : ℕ} (h : 128 ≤ v) (hv : v < 2 ^ 64) :
    sqlite3Fts3PutVarint v = (v % 128 + 128) :: sqlite3Fts3PutVarint (v / 128) := by
  have hlow : v &&& 0x7f = v % 128 := Nat.and_two_pow_sub_one_eq_mod v 7
  have hshift : v >>> 7 = v / 128 := Nat.shiftRight_eq_div_pow v 7
  have hbig : ¬v / 128 = 0 := by omega
  rw [sqlite3Fts3PutVarint, sqlite3Fts3PutVarint, Fts.FTS3_VARINT_MAX, Fts.putLoop, hshift, if_neg hbig,
    hlow, (or_high (v % 128) (Nat.mod_lt _ (by decide))).1]
  rw [putLoop_mono (n := 9) (m := 10) (by decide) (by decide) (by omega)]

/-- A property of numbers and their bytes, from the last byte back. -/
theorem varint_induction {P : ℕ → List ℕ → Prop} (small : ∀ v < 128, P v [v])
    (big : ∀ v l, 128 ≤ v → v < 2 ^ 64 → P (v / 128) l → P v ((v % 128 + 128) :: l)) :
    ∀ v < 2 ^ 64, P v (sqlite3Fts3PutVarint v) := by
  intro v
  induction v using Nat.strong_induction_on with
  | h v ih =>
    intro hv
    by_cases h : v < 128
    · rw [putVarint_small h]
      exact small v h
    · rw [putVarint_big (by omega) hv]
      exact big v _ (by omega) hv (ih (v / 128) (by omega) (by omega))

/-- The bytes of a number: high ones, and one low byte, which is not zero unless the number is. -/
structure Varint (v : ℕ) (l : List ℕ) : Prop where
  split : ∃ hi lo, l = hi ++ [lo] ∧ (∀ b ∈ hi, 128 ≤ b ∧ b < 256) ∧ lo < 128 ∧ (v ≠ 0 → lo ≠ 0) ∧
    (hi = [] → lo = v)

theorem varint (v : ℕ) (hv : v < 2 ^ 64) : Varint v (sqlite3Fts3PutVarint v) := by
  refine varint_induction ?_ ?_ v hv
  · intro v h
    exact ⟨[], v, rfl, by simp, h, id, fun _ => rfl⟩
  · intro v l h _ hl
    obtain ⟨hi, lo, rfl, h1, h2, h3, h4⟩ := hl
    refine ⟨(v % 128 + 128) :: hi, lo, rfl, ?_, h2, fun _ => h3 (by omega), by simp⟩
    intro b hb
    rcases List.mem_cons.mp hb with rfl | hb
    · omega
    · exact h1 b hb

theorem putVarint_ne_nil {v : ℕ} (hv : v < 2 ^ 64) : sqlite3Fts3PutVarint v ≠ [] := by
  obtain ⟨hi, lo, h, -⟩ := (varint v hv).split
  rw [h]
  exact List.append_ne_nil_of_right_ne_nil hi (List.cons_ne_nil _ _)

/-- The first byte is the number itself, or has its high bit set. -/
theorem putVarint_head {v : ℕ} (hv : v < 2 ^ 64) :
    ∃ b l, sqlite3Fts3PutVarint v = b :: l ∧ (b = v ∧ v < 128 ∨ 128 ≤ b ∧ b < 256) := by
  by_cases h : v < 128
  · exact ⟨v, [], putVarint_small h, .inl ⟨rfl, h⟩⟩
  · exact ⟨_, _, putVarint_big (by omega) hv, .inr ⟨by omega, by omega⟩⟩

theorem length_putVarint {v : ℕ} (hv : v < 2 ^ 64) :
    (sqlite3Fts3PutVarint v).length = Nat.log 128 v + 1 := by
  refine varint_induction (P := fun v l => l.length = Nat.log 128 v + 1) ?_ ?_ v hv
  · intro v h
    rw [Nat.log_of_lt h]
    rfl
  · intro v l h _ hl
    rw [List.length_cons, hl, Nat.log_of_one_lt_of_le (by decide) h]

theorem length_putVarint_pos {v : ℕ} (hv : v < 2 ^ 64) : 0 < (sqlite3Fts3PutVarint v).length := by
  rw [length_putVarint hv]
  exact Nat.succ_pos _

theorem length_putVarint_le {v : ℕ} (hv : v < 2 ^ 64) : (sqlite3Fts3PutVarint v).length ≤ 10 := by
  rw [length_putVarint hv]
  have hmono : Nat.log 128 v ≤ Nat.log 128 (2 ^ 64) := Nat.log_mono_right hv.le
  have hlog : Nat.log 128 (2 ^ 64) = 9 := by
    rw [Nat.log_eq_iff (by decide)]
    decide
  omega

theorem length_putVarint_mono {v w : ℕ} (h : v ≤ w) (hw : w < 2 ^ 64) :
    (sqlite3Fts3PutVarint v).length ≤ (sqlite3Fts3PutVarint w).length := by
  rw [length_putVarint (by omega), length_putVarint hw]
  exact Nat.succ_le_succ (Nat.log_mono_right h)

/-- A sum takes no more bytes than its summands do. -/
theorem length_putVarint_add {v w : ℕ} (h : v + w < 2 ^ 64) :
    (sqlite3Fts3PutVarint (v + w)).length ≤
      (sqlite3Fts3PutVarint v).length + (sqlite3Fts3PutVarint w).length := by
  wlog hvw : v ≤ w with hsymm
  · have := hsymm (v := w) (w := v) (by omega) (by omega)
    rw [Nat.add_comm w v] at this
    omega
  rw [length_putVarint h, length_putVarint (by omega), length_putVarint (by omega)]
  by_cases hw : w = 0
  · have hv : v = 0 := by omega
    rw [hv, hw, Nat.zero_add]
    omega
  · have hle : v + w ≤ w * 128 := by omega
    have hmono : Nat.log 128 (v + w) ≤ Nat.log 128 (w * 128) := Nat.log_mono_right hle
    rw [Nat.log_mul_base (by decide) hw] at hmono
    omega

/-- Two numbers at the start of the same bytes are the same. -/
theorem putVarint_inj {v w : ℕ} (hv : v < 2 ^ 64) (hw : w < 2 ^ 64) {r s : List ℕ}
    (h : sqlite3Fts3PutVarint v ++ r = sqlite3Fts3PutVarint w ++ s) : v = w ∧ r = s := by
  have hread := Fts.getVarint_putVarint hv r
  rw [h, Fts.getVarint_putVarint hw s] at hread
  simp only [Option.some.injEq, Prod.mk.injEq] at hread
  exact ⟨hread.1.symm, hread.2.symm⟩

end Sqlite.Doclist
