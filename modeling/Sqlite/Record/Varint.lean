import Mathlib.Algebra.Order.Ring.Nat
import Mathlib.Tactic.Linarith
import Mathlib.Tactic.Ring
import Sqlite.Foundation.Bytes

/-! Variable-length numbers: seven bits a byte, most significant first, and a ninth byte of eight. -/
namespace Sqlite.Record
open Sqlite.Foundation

abbrev Bytes := List UInt8

/-- The loop that fills the buffer of `sqlite3PutVarint`, lowest bits first. -/
def putLoop : ℕ → ℕ → Bytes
  | 0, _ => []
  | n + 1, v =>
    .ofNat ((v &&& 0x7f) ||| 0x80) :: if v >>> 7 = 0 then [] else putLoop n (v >>> 7)

/-- The first `n` bytes of a number that takes nine. -/
def putNine : ℕ → ℕ → Bytes
  | 0, _ => []
  | n + 1, v => putNine n (v >>> 7) ++ [.ofNat ((v &&& 0x7f) ||| 0x80)]

def sqlite3PutVarint (v : ℕ) : Bytes :=
  if v &&& (0xff000000 <<< 32) ≠ 0 then putNine 8 (v >>> 8) ++ [.ofNat v]
  else
    match putLoop 9 v with
    | [] => []
    | b :: buf => ((b &&& 0x7f) :: buf).reverse

def sqlite3PutVarint32 (v : ℕ) : Bytes :=
  if v < 0x4000 then [.ofNat ((v >>> 7) ||| 0x80), .ofNat (v &&& 0x7f)] else sqlite3PutVarint v

/-- The macro, for which `sqlite3PutVarint32` leaves out the numbers of one byte. -/
def putVarint32 (v : ℕ) : Bytes := if v < 0x80 then [.ofNat v] else sqlite3PutVarint32 v

/-- The documented format: seven bits a byte while the high bit is set, and a ninth byte of eight.
The value so far is `a`, and `n` more bytes may have their high bit set. -/
def formatLoop : ℕ → ℕ → Bytes → Option (ℕ × ℕ)
  | _, _, [] => none
  | 0, a, b :: _ => some (a * 256 + b.toNat, 1)
  | n + 1, a, b :: p =>
    if b.toNat < 128 then some (a * 128 + b.toNat, 1)
    else (formatLoop n (a * 128 + b.toNat % 128) p).map fun r => (r.1, r.2 + 1)

/-- The number at the start of some bytes, and how many bytes it takes. -/
def formatVarint (p : Bytes) : Option (ℕ × ℕ) := formatLoop 8 0 p

def lenLoop : ℕ → ℕ → ℕ
  | 0, _ => 0
  | n + 1, v => if v >>> 7 = 0 then 1 else lenLoop n (v >>> 7) + 1

def sqlite3VarintLen (v : ℕ) : ℕ := lenLoop 9 v

/-- The bytes before the last one: each has its high bit set. -/
def putHigh : ℕ → ℕ → Bytes
  | 0, _ => []
  | n + 1, v => if v = 0 then [] else putHigh n (v / 128) ++ [.ofNat (v % 128 + 128)]

private theorem group_eq (v : ℕ) : (v &&& 0x7f) ||| 0x80 = v % 128 + 128 := by
  have hlow : v &&& 0x7f = v % 128 := and_low v 7
  have hlt : v % 128 < 2 ^ 7 := Nat.mod_lt _ (by decide)
  have hadd : 128 ||| v % 128 = 128 + v % 128 := mul_or 1 hlt
  rw [hlow, Nat.or_comm, hadd, Nat.add_comm]

private theorem shift_eq (v : ℕ) : v >>> 7 = v / 128 := Nat.shiftRight_eq_div_pow v 7

theorem reverse_putLoop (n v : ℕ) : (if v = 0 then [] else putLoop n v).reverse = putHigh n v := by
  induction n generalizing v with
  | zero => split_ifs <;> simp [putLoop, putHigh]
  | succ n ih =>
    rw [putHigh]
    split_ifs with h0
    · simp
    · rw [putLoop, shift_eq, group_eq, List.reverse_cons, ih]

/-- What is written, in terms of quotients and remainders. -/
theorem putVarint_eq {v : ℕ} (hv : v < 2 ^ 64) :
    sqlite3PutVarint v = if 2 ^ 56 ≤ v then putNine 8 (v / 256) ++ [.ofNat (v % 256)]
      else putHigh 8 (v / 128) ++ [.ofNat (v % 128)] := by
  have hmask : v &&& (0xff000000 <<< 32) = v / 2 ^ 56 % 2 ^ 8 * 2 ^ 56 := and_mask v 8 56
  have hiff : (v &&& (0xff000000 <<< 32) ≠ 0) ↔ 2 ^ 56 ≤ v := by
    rw [hmask]
    omega
  unfold sqlite3PutVarint
  by_cases hbig : 2 ^ 56 ≤ v
  · rw [if_pos (hiff.mpr hbig), if_pos hbig, Nat.shiftRight_eq_div_pow]
    congr 2
    apply UInt8.toNat_inj.mp
    simp
  · rw [if_neg (fun h => hbig (hiff.mp h)), if_neg hbig, putLoop, shift_eq, group_eq]
    have hlast : (UInt8.ofNat (v % 128 + 128)) &&& 0x7f = UInt8.ofNat (v % 128) := by
      apply UInt8.toNat_inj.mp
      have hlow : (v % 128 + 128) % 256 &&& 0x7f = (v % 128 + 128) % 256 % 128 := and_low _ 7
      simp [hlow]
      omega
    change ((UInt8.ofNat (v % 128 + 128) &&& 0x7f) :: _).reverse = _
    rw [hlast, List.reverse_cons, reverse_putLoop]

theorem putVarint32_eq (v : ℕ) : putVarint32 v = sqlite3PutVarint v := by
  unfold putVarint32 sqlite3PutVarint32
  split_ifs with h1 h2
  · have h0 : v / 128 = 0 := by omega
    have hmod : v % 128 = v := by omega
    rw [putVarint_eq (by omega), if_neg (by omega), h0, hmod]
    simp [putHigh]
  · have h0 : v / 128 / 128 = 0 := by omega
    have hlow : v &&& 0x7f = v % 128 := and_low v 7
    have hhigh : v / 128 ||| 0x80 = v / 128 % 128 + 128 := by
      have hlt : v / 128 < 2 ^ 7 := by omega
      have hadd : 128 ||| v / 128 = 128 + v / 128 := mul_or 1 hlt
      rw [Nat.or_comm]
      omega
    rw [putVarint_eq (by omega), if_neg (by omega), shift_eq, hlow, hhigh, putHigh, if_neg (by omega), h0]
    simp [putHigh]
  · exact Eq.refl _

/-- The value that bytes with their high bit set add to the one before them. -/
def highValue (a : ℕ) (p : Bytes) : ℕ := p.foldl (fun a b => a * 128 + b.toNat % 128) a

theorem formatLoop_append {p : Bytes} (hp : ∀ b ∈ p, 128 ≤ b.toNat) (n a : ℕ) (rest : Bytes) :
    formatLoop (n + p.length) a (p ++ rest) =
      (formatLoop n (highValue a p) rest).map fun r => (r.1, r.2 + p.length) := by
  induction p generalizing a with
  | nil => simp [highValue]
  | cons b p ih =>
    have hb : ¬ b.toNat < 128 := by simpa using hp b (by simp)
    have htail := ih (fun b hb => hp b (List.mem_cons_of_mem _ hb)) (a * 128 + b.toNat % 128)
    rw [List.length_cons, ← add_assoc, List.cons_append, formatLoop, if_neg hb, htail, Option.map_map]
    simp [highValue, Function.comp_def, add_assoc]

private theorem toNat_high (v : ℕ) : (UInt8.ofNat (v % 128 + 128)).toNat = v % 128 + 128 := by
  have hlt : v % 128 < 128 := Nat.mod_lt _ (by decide)
  rw [UInt8.toNat_ofNat']
  omega

theorem high_of_mem_putHigh {n v : ℕ} : ∀ b ∈ putHigh n v, 128 ≤ b.toNat := by
  induction n generalizing v with
  | zero => simp [putHigh]
  | succ n ih =>
    intro b hb
    rw [putHigh] at hb
    split_ifs at hb with hv
    · simp at hb
    · rcases List.mem_append.mp hb with hb | hb
      · exact ih b hb
      · rw [List.mem_singleton.mp hb, toNat_high]
        omega

theorem putNine_succ (n v : ℕ) :
    putNine (n + 1) v = putNine n (v / 128) ++ [.ofNat (v % 128 + 128)] := by
  rw [putNine, group_eq, shift_eq]

theorem high_of_mem_putNine {n v : ℕ} : ∀ b ∈ putNine n v, 128 ≤ b.toNat := by
  induction n generalizing v with
  | zero => simp [putNine]
  | succ n ih =>
    intro b hb
    rw [putNine_succ] at hb
    rcases List.mem_append.mp hb with hb | hb
    · exact ih b hb
    · rw [List.mem_singleton.mp hb, toNat_high]
      omega

theorem highValue_append_byte (a : ℕ) (p : Bytes) (v : ℕ) :
    highValue a (p ++ [.ofNat (v % 128 + 128)]) = highValue a p * 128 + v % 128 := by
  simp [highValue]

theorem highValue_putHigh {n v : ℕ} (hv : v < 128 ^ n) : highValue 0 (putHigh n v) = v := by
  induction n generalizing v with
  | zero => simpa [putHigh, highValue, eq_comm] using hv
  | succ n ih =>
    rw [putHigh]
    split_ifs with h0
    · simp [highValue, h0]
    · have hdiv : v / 128 < 128 ^ n := by
        rw [Nat.div_lt_iff_lt_mul (by decide), ← pow_succ]
        exact hv
      rw [highValue_append_byte, ih hdiv]
      omega

theorem highValue_putNine {n v : ℕ} (hv : v < 128 ^ n) : highValue 0 (putNine n v) = v := by
  induction n generalizing v with
  | zero => simpa [putNine, highValue, eq_comm] using hv
  | succ n ih =>
    have hdiv : v / 128 < 128 ^ n := by
      rw [Nat.div_lt_iff_lt_mul (by decide), ← pow_succ]
      exact hv
    rw [putNine_succ, highValue_append_byte, ih hdiv]
    omega

theorem length_putNine (n v : ℕ) : (putNine n v).length = n := by
  induction n generalizing v with
  | zero => simp [putNine]
  | succ n ih => simp [putNine, ih]

theorem length_putHigh_le {n k v : ℕ} (hv : v < 128 ^ k) : (putHigh n v).length ≤ k := by
  induction n generalizing v k with
  | zero => simp [putHigh]
  | succ n ih =>
    rw [putHigh]
    split_ifs with h0
    · simp
    · cases k with
      | zero =>
        have hzero : v < 1 := by simpa using hv
        omega
      | succ k =>
        have hdiv : v / 128 < 128 ^ k := by
          rw [Nat.div_lt_iff_lt_mul (by decide), ← pow_succ]
          exact hv
        simpa using ih hdiv

theorem getVarint_putVarint {v : ℕ} (hv : v < 2 ^ 64) (rest : Bytes) :
    formatVarint (sqlite3PutVarint v ++ rest) = some (v, (sqlite3PutVarint v).length) := by
  rw [formatVarint, putVarint_eq hv]
  split_ifs with hbig
  · have hdiv : v / 256 < 128 ^ 8 := by
      rw [Nat.div_lt_iff_lt_mul (by decide)]
      exact hv
    have hsplit := formatLoop_append (high_of_mem_putNine (n := 8) (v := v / 256)) 0 0
      ([.ofNat (v % 256)] ++ rest)
    rw [length_putNine, highValue_putNine hdiv] at hsplit
    rw [List.append_assoc, hsplit]
    have hval : v / 256 * 256 + v % 256 = v := by omega
    simp [formatLoop, length_putNine, hval]
  · have hdiv : v / 128 < 128 ^ 7 := by
      rw [Nat.div_lt_iff_lt_mul (by decide)]
      exact lt_of_lt_of_le (not_le.mp hbig) (by decide)
    have hle := length_putHigh_le (n := 8) hdiv
    obtain ⟨k, hk⟩ : ∃ k, 8 = k + 1 + (putHigh 8 (v / 128)).length :=
      ⟨7 - (putHigh 8 (v / 128)).length, by omega⟩
    have hsplit := formatLoop_append (high_of_mem_putHigh (n := 8) (v := v / 128)) (k + 1) 0
      ([.ofNat (v % 128)] ++ rest)
    have hlow : (UInt8.ofNat (v % 128)).toNat = v % 128 := by
      rw [UInt8.toNat_ofNat']
      omega
    have hlt : (UInt8.ofNat (v % 128)).toNat < 128 := by omega
    have hval : v / 128 * 128 + v % 128 = v := by omega
    rw [← hk, highValue_putHigh (lt_trans hdiv (by decide))] at hsplit
    rw [List.append_assoc, hsplit, List.cons_append, formatLoop, if_pos hlt, hlow, hval]
    simp [add_comm]

private theorem lenLoop_succ (n v : ℕ) :
    lenLoop (n + 1) v = if v / 128 = 0 then 1 else lenLoop n (v / 128) + 1 := by
  rw [lenLoop, shift_eq]

private theorem lenLoop_eq (n v : ℕ) : lenLoop (n + 1) v = (putHigh n (v / 128)).length + 1 := by
  induction n generalizing v with
  | zero => simp [lenLoop, putHigh]
  | succ n ih =>
    rw [lenLoop_succ, ih, putHigh]
    split_ifs <;> simp

theorem varintLen_pos (v : ℕ) : 0 < sqlite3VarintLen v := by
  rw [sqlite3VarintLen, lenLoop_eq]
  omega

/-- A number below `128 ^ k` takes at most `k` bytes. -/
theorem varintLen_le {k v : ℕ} (hv : v < 128 ^ (k + 1)) : sqlite3VarintLen v ≤ k + 1 := by
  have hdiv : v / 128 < 128 ^ k := by
    rw [Nat.div_lt_iff_lt_mul (by decide), ← pow_succ]
    exact hv
  rw [sqlite3VarintLen, lenLoop_eq]
  exact Nat.succ_le_succ (length_putHigh_le hdiv)

theorem le_varintLen {k v : ℕ} (hk : k < 9) (hv : 128 ^ k ≤ v) : k + 1 ≤ sqlite3VarintLen v := by
  have hloop : ∀ n k v, k ≤ n → 128 ^ k ≤ v → k + 1 ≤ lenLoop (n + 1) v := by
    intro n
    induction n with
    | zero =>
      intro k v hk hv
      rw [lenLoop_succ]
      split_ifs <;> omega
    | succ n ih =>
      intro k v hk hv
      rw [lenLoop_succ]
      cases k with
      | zero => split_ifs <;> omega
      | succ k =>
        have hdiv : 128 ^ k ≤ v / 128 := by
          rw [Nat.le_div_iff_mul_le (by decide), ← pow_succ]
          exact hv
        have hpos : 0 < 128 ^ k := by positivity
        rw [if_neg (by omega)]
        exact Nat.succ_le_succ (ih k (v / 128) (by omega) hdiv)
  exact hloop 8 k v (by omega) hv

theorem varintLen_le_nine (v : ℕ) : sqlite3VarintLen v ≤ 9 := by
  have hloop : ∀ n v, lenLoop n v ≤ n := by
    intro n
    induction n with
    | zero => simp [lenLoop]
    | succ n ih =>
      intro v
      rw [lenLoop_succ]
      have htail := ih (v / 128)
      split_ifs <;> omega
  exact hloop 9 v

theorem lt_of_varintLen {k v : ℕ} (hk : k < 9) (hv : sqlite3VarintLen v ≤ k) : v < 128 ^ k := by
  by_contra hge
  have hle := le_varintLen hk (not_lt.mp hge)
  omega

theorem varintLen_mono {u v : ℕ} (h : u ≤ v) : sqlite3VarintLen u ≤ sqlite3VarintLen v := by
  by_contra hgt
  have hpos := varintLen_pos v
  have h9 := varintLen_le_nine u
  have hv : v < 128 ^ sqlite3VarintLen v := lt_of_varintLen (by omega) le_rfl
  obtain ⟨k, hk⟩ := Nat.exists_eq_succ_of_ne_zero hpos.ne'
  rw [hk] at hv
  have hle := varintLen_le (lt_of_le_of_lt h hv)
  omega

theorem length_putVarint {v : ℕ} (hv : v < 2 ^ 64) :
    (sqlite3PutVarint v).length = sqlite3VarintLen v := by
  rw [putVarint_eq hv]
  split_ifs with hbig
  · have hge : 9 ≤ sqlite3VarintLen v := le_varintLen (k := 8) (by decide) hbig
    have hle := varintLen_le_nine v
    rw [List.length_append, length_putNine, List.length_singleton]
    omega
  · rw [sqlite3VarintLen, lenLoop_eq]
    simp

/-- No string of the format has a number in fewer bytes. -/
theorem varintLen_le_of_format {p : Bytes} {v k : ℕ} (h : formatVarint p = some (v, k)) :
    sqlite3VarintLen v ≤ k := by
  have hloop : ∀ n m a p v k, n + m = 8 → a < 128 ^ m → formatLoop n a p = some (v, k) →
      sqlite3VarintLen v ≤ m + k := by
    intro n
    induction n with
    | zero =>
      intro m a p v k hm ha hp
      have h9 := varintLen_le_nine v
      cases p with
      | nil => simp [formatLoop] at hp
      | cons b p =>
        simp only [formatLoop, Option.some.injEq, Prod.mk.injEq] at hp
        omega
    | succ n ih =>
      intro m a p v k hm ha hp
      cases p with
      | nil => simp [formatLoop] at hp
      | cons b p =>
        rw [formatLoop] at hp
        split_ifs at hp with hb
        · simp only [Option.some.injEq, Prod.mk.injEq] at hp
          obtain ⟨rfl, rfl⟩ := hp
          exact varintLen_le (by rw [pow_succ]; omega)
        · simp only [Option.map_eq_some_iff, Prod.exists, Prod.mk.injEq] at hp
          obtain ⟨v', k', hp, rfl, rfl⟩ := hp
          have htail := ih (m + 1) _ p v' k' (by omega) (by rw [pow_succ]; omega) hp
          omega
  have hle := hloop 8 0 0 p v k (by decide) (by simp) h
  omega

end Sqlite.Record
