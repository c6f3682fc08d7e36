import Mathlib.Algebra.Order.Ring.Int
import Mathlib.Algebra.Order.Ring.Nat
import Mathlib.Tactic.Linarith
import Mathlib.Tactic.Ring

/-! Numbers of any width as lists of bytes, most significant byte first. -/
namespace Sqlite.Foundation

/-- The `n` low bytes of a number. -/
def beBytes : ℕ → ℕ → List UInt8
  | 0, _ => []
  | n + 1, v => beBytes n (v / 256) ++ [UInt8.ofNat (v % 256)]

/-- The unsigned number that some bytes spell. -/
def beNat : List UInt8 → ℕ
  | [] => 0
  | b :: bytes => b.toNat * 256 ^ bytes.length + beNat bytes

/-- A byte in two's complement. -/
def signedByte (b : UInt8) : ℤ := if b.toNat < 128 then b.toNat else (b.toNat : ℤ) - 256

/-- The number that some bytes spell in two's complement: only the first byte has a sign. -/
def beInt : List UInt8 → ℤ
  | [] => 0
  | b :: bytes => signedByte b * 256 ^ bytes.length + beNat bytes

@[simp] theorem length_beBytes (n v : ℕ) : (beBytes n v).length = n := by
  induction n generalizing v with
  | zero => simp [beBytes]
  | succ n ih => simp [beBytes, ih]

theorem beNat_append_byte (bytes : List UInt8) (b : UInt8) :
    beNat (bytes ++ [b]) = beNat bytes * 256 + b.toNat := by
  induction bytes with
  | nil => simp [beNat]
  | cons a bytes ih =>
    simp only [List.cons_append, beNat, ih, List.length_append, List.length_singleton, pow_succ]
    ring

theorem beNat_beBytes (n v : ℕ) : beNat (beBytes n v) = v % 256 ^ n := by
  induction n generalizing v with
  | zero => simp [beBytes, beNat, Nat.mod_one]
  | succ n ih =>
    have hbyte : (UInt8.ofNat (v % 256)).toNat = v % 256 := by simp
    rw [beBytes, beNat_append_byte, ih, hbyte, pow_succ, mul_comm (256 ^ n), Nat.mod_mul]
    omega

theorem beNat_beBytes_of_lt {n v : ℕ} (h : v < 256 ^ n) : beNat (beBytes n v) = v := by
  rw [beNat_beBytes, Nat.mod_eq_of_lt h]

theorem beNat_lt (bytes : List UInt8) : beNat bytes < 256 ^ bytes.length := by
  induction bytes with
  | nil => simp [beNat]
  | cons b bytes ih =>
    have hb := b.toNat_lt
    have hmul : (b.toNat + 1) * 256 ^ bytes.length ≤ 256 * 256 ^ bytes.length :=
      Nat.mul_le_mul_right _ (by omega)
    simp only [beNat, List.length_cons, pow_succ]
    linarith

/-- The signed reading is the unsigned one, less the modulus where the sign bit is set. -/
theorem beInt_cons (b : UInt8) (bytes : List UInt8) :
    beInt (b :: bytes) =
      if b.toNat < 128 then (beNat (b :: bytes) : ℤ)
      else beNat (b :: bytes) - 256 ^ (b :: bytes).length := by
  simp only [beInt, signedByte, beNat, List.length_cons, pow_succ]
  split_ifs <;> push_cast <;> ring

theorem first_byte_lt_iff (b : UInt8) (bytes : List UInt8) :
    b.toNat < 128 ↔ 2 * beNat (b :: bytes) < 256 ^ (b :: bytes).length := by
  have hlt := beNat_lt bytes
  simp only [beNat, List.length_cons, pow_succ]
  constructor <;> intro h
  · have hmul : (b.toNat + 1) * 256 ^ bytes.length ≤ 128 * 256 ^ bytes.length :=
      Nat.mul_le_mul_right _ (by omega)
    linarith
  · by_contra hge
    have hmul : 128 * 256 ^ bytes.length ≤ b.toNat * 256 ^ bytes.length :=
      Nat.mul_le_mul_right _ (by omega)
    linarith

/-- Some bytes in two's complement spell a number of their own width. -/
theorem beInt_bounds {bytes : List UInt8} (h : bytes ≠ []) :
    -(256 ^ bytes.length : ℤ) ≤ 2 * beInt bytes ∧ 2 * beInt bytes < 256 ^ bytes.length := by
  cases bytes with
  | nil => exact absurd (Eq.refl _) h
  | cons b bytes =>
    have hsign := first_byte_lt_iff b bytes
    have hlt := beNat_lt (b :: bytes)
    rw [beInt_cons]
    zify at hsign hlt
    split_ifs with hb
    · omega
    · omega

/-- A signed number that fits into `n` bytes is read back from the `n` low bytes of any number
that agrees with it modulo `256 ^ n`. -/
theorem beInt_beBytes {n v : ℕ} {i : ℤ} (hn : 0 < n) (hv : (v : ℤ) % 256 ^ n = i % 256 ^ n)
    (hlo : -(256 ^ n : ℤ) ≤ 2 * i) (hhi : 2 * i < 256 ^ n) : beInt (beBytes n v) = i := by
  have hpow : (0 : ℤ) < 256 ^ n := by positivity
  have hnat : (beNat (beBytes n v) : ℤ) = i % 256 ^ n := by
    rw [beNat_beBytes, ← hv]
    push_cast
    rfl
  have hlen : (beBytes n v).length = n := length_beBytes n v
  cases hb : beBytes n v with
  | nil =>
    rw [hb] at hlen
    simp at hlen
    omega
  | cons b bytes =>
    rw [hb] at hnat hlen
    rw [beInt_cons, hlen]
    have hiff := first_byte_lt_iff b bytes
    rw [hlen] at hiff
    have hcast : 2 * beNat (b :: bytes) < 256 ^ n ↔ 2 * (i % 256 ^ n) < 256 ^ n := by
      rw [← hnat]
      norm_cast
    rw [hcast] at hiff
    rcases lt_or_ge i 0 with hneg | hpos
    · have hmod : i % 256 ^ n = i + 256 ^ n := by
        rw [← Int.add_emod_right]
        exact Int.emod_eq_of_lt (by linarith) (by linarith)
      rw [if_neg (by rw [hiff, hmod]; linarith), hnat, hmod]
      ring
    · have hmod : i % 256 ^ n = i := Int.emod_eq_of_lt hpos (by linarith)
      rw [if_pos (by rw [hiff, hmod]; exact hhi), hnat, hmod]

end Sqlite.Foundation
