import Sqlite.Record.Varint

/-! The unrolled decoder of variable-length numbers. -/
namespace Sqlite.Record
open Sqlite.Foundation

def SLOT_2_0 : ℕ := 0x001fc07f

def SLOT_4_2_0 : ℕ := 0xf01fc07f

/-- A shift of a word of thirty-two bits. -/
def shl (a k : ℕ) : ℕ := (a <<< k) % 2 ^ 32

/-- The ninth byte of `sqlite3GetVarint`; `p4` is the byte that it goes back to. -/
def getVarint9 (a b s p4 : ℕ) : Bytes → Option (ℕ × ℕ)
  | [] => none
  | p8 :: _ =>
    let a := shl a 15
    let a := a ||| p8.toNat
    let b := b &&& SLOT_2_0
    let b := shl b 8
    let a := a ||| b
    let s := shl s 4
    let b := p4
    let b := b &&& 0x7f
    let b := b >>> 3
    let s := s ||| b
    some (s <<< 32 ||| a, 9)

def getVarint8 (a b s p4 : ℕ) : Bytes → Option (ℕ × ℕ)
  | [] => none
  | p7 :: p =>
    let b := shl b 14
    let b := b ||| p7.toNat
    if b &&& 0x80 = 0 then
      let b := b &&& SLOT_4_2_0
      let a := shl a 7
      let a := a ||| b
      let s := s >>> 4
      some (s <<< 32 ||| a, 8)
    else getVarint9 a b s p4 p

def getVarint7 (a b s p4 : ℕ) : Bytes → Option (ℕ × ℕ)
  | [] => none
  | p6 :: p =>
    let a := shl a 14
    let a := a ||| p6.toNat
    if a &&& 0x80 = 0 then
      let a := a &&& SLOT_4_2_0
      let b := b &&& SLOT_2_0
      let b := shl b 7
      let a := a ||| b
      let s := s >>> 11
      some (s <<< 32 ||| a, 7)
    else getVarint8 (a &&& SLOT_2_0) b s p4 p

def getVarint6 (a b s p4 : ℕ) : Bytes → Option (ℕ × ℕ)
  | [] => none
  | p5 :: p =>
    let b := shl b 14
    let b := b ||| p5.toNat
    if b &&& 0x80 = 0 then
      let a := a &&& SLOT_2_0
      let a := shl a 7
      let a := a ||| b
      let s := s >>> 18
      some (s <<< 32 ||| a, 6)
    else getVarint7 a b s p4 p

def getVarint5 (a b : ℕ) : Bytes → Option (ℕ × ℕ)
  | [] => none
  | p4 :: p =>
    let s := a
    let a := shl a 14
    let a := a ||| p4.toNat
    if a &&& 0x80 = 0 then
      let b := shl b 7
      let a := a ||| b
      let s := s >>> 18
      some (s <<< 32 ||| a, 5)
    else
      let s := shl s 7
      let s := s ||| b
      getVarint6 a b s p4.toNat p

def getVarint4 (a b : ℕ) : Bytes → Option (ℕ × ℕ)
  | [] => none
  | p3 :: p =>
    let b := shl b 14
    let b := b ||| p3.toNat
    if b &&& 0x80 = 0 then
      let b := b &&& SLOT_2_0
      let a := shl a 7
      let a := a ||| b
      some (a, 4)
    else getVarint5 a (b &&& SLOT_2_0) p

def getVarint3 (a b : ℕ) : Bytes → Option (ℕ × ℕ)
  | [] => none
  | p2 :: p =>
    let a := shl a 14
    let a := a ||| p2.toNat
    if a &&& 0x80 = 0 then
      let a := a &&& SLOT_2_0
      let b := b &&& 0x7f
      let b := shl b 7
      let a := a ||| b
      some (a, 3)
    else getVarint4 (a &&& SLOT_2_0) b p

def getVarint2 (a : ℕ) : Bytes → Option (ℕ × ℕ)
  | [] => none
  | p1 :: p =>
    let b := p1.toNat
    if b &&& 0x80 = 0 then
      let a := a &&& 0x7f
      let a := shl a 7
      let a := a ||| b
      some (a, 2)
    else getVarint3 a b p

/-- The value and the number of bytes; `none` where the bytes end too early. -/
def sqlite3GetVarint : Bytes → Option (ℕ × ℕ)
  | [] => none
  | p0 :: p =>
    let a := p0.toNat
    if a &&& 0x80 = 0 then some (a, 1) else getVarint2 a p

def SQLITE_MAX_U32 : ℕ := 4294967295

/-- The function itself: the case of one byte is left to the macro. -/
def sqlite3GetVarint32 : Bytes → Option (ℕ × ℕ)
  | p0 :: p1 :: p =>
    let a := p0.toNat
    let b := p1.toNat
    if b &&& 0x80 = 0 then
      let a := a &&& 0x7f
      let a := shl a 7
      some (a ||| b, 2)
    else
      match p with
      | [] => none
      | p2 :: _ =>
        let a := shl a 14
        let a := a ||| p2.toNat
        if a &&& 0x80 = 0 then
          let a := a &&& ((0x7f <<< 14) ||| 0x7f)
          let b := b &&& 0x7f
          let b := shl b 7
          some (a ||| b, 3)
        else
          (sqlite3GetVarint (p0 :: p1 :: p)).map fun (v64, n) =>
            if v64 &&& SQLITE_MAX_U32 ≠ v64 then (SQLITE_MAX_U32, n) else (v64, n)
  | _ => none

/-- The macro. -/
def getVarint32 : Bytes → Option (ℕ × ℕ)
  | [] => none
  | b :: p => if b.toNat < 0x80 then some (b.toNat, 1) else sqlite3GetVarint32 (b :: p)

theorem shl_eq (a k : ℕ) : shl a k = a * 2 ^ k % 2 ^ 32 := by
  rw [shl, Nat.shiftLeft_eq]

theorem and_slot2 (x : ℕ) : x &&& SLOT_2_0 = x / 2 ^ 14 % 2 ^ 7 * 2 ^ 14 + x % 2 ^ 7 := by
  have hmask : SLOT_2_0 = (2 ^ 7 - 1) <<< 14 ||| (2 ^ 7 - 1) := by decide
  have hlow : x % 2 ^ 7 < 2 ^ 14 := by omega
  rw [hmask, Nat.and_or_distrib_left, and_mask, and_low, mul_or _ hlow]

theorem and_slot4 (x : ℕ) : x &&& SLOT_4_2_0 =
    x / 2 ^ 28 % 2 ^ 4 * 2 ^ 28 + x / 2 ^ 14 % 2 ^ 7 * 2 ^ 14 + x % 2 ^ 7 := by
  have hmask : SLOT_4_2_0 = (2 ^ 4 - 1) <<< 28 ||| SLOT_2_0 := by decide
  have hlow : x / 2 ^ 14 % 2 ^ 7 * 2 ^ 14 + x % 2 ^ 7 < 2 ^ 28 := by omega
  rw [hmask, Nat.and_or_distrib_left, and_mask, and_slot2, mul_or _ hlow, Nat.add_assoc]

theorem and_flag (x : ℕ) : x &&& 0x80 = 0 ↔ x / 2 ^ 7 % 2 = 0 := by
  have hmask : x &&& 0x80 = x / 2 ^ 7 % 2 ^ 1 * 2 ^ 7 := and_mask x 1 7
  rw [hmask]
  omega

/-- A byte behind the bits that are already there. -/
theorem shl_or {a k : ℕ} (b : UInt8) (hk : 8 ≤ k) (hk32 : k ≤ 24) :
    shl a k ||| b.toNat = a * 2 ^ k % 2 ^ 32 + b.toNat := by
  have hb : b.toNat < 2 ^ k := lt_of_lt_of_le b.toNat_lt (Nat.pow_le_pow_right (by decide) hk)
  have hsplit : 2 ^ 32 = 2 ^ k * 2 ^ (32 - k) := by
    rw [← Nat.pow_add]
    congr 1
    omega
  have hmul : a * 2 ^ k % 2 ^ 32 = a % 2 ^ (32 - k) * 2 ^ k := by
    rw [hsplit, Nat.mul_comm a, Nat.mul_mod_mul_left, Nat.mul_comm]
  rw [shl_eq, hmul, mul_or _ hb]

/-- The groups of seven bits at even places and those at odd places, above `k` bits. -/
theorem or_groups {k x1 x0 y0 : ℕ} (x2 y1 : ℕ) (hx1 : x1 < 2 ^ 7) (hx0 : x0 < 2 ^ k)
    (hy0 : y0 < 2 ^ 7) :
    (x2 * 2 ^ 14 + x1) * 2 ^ (k + 7) + x0 ||| (y1 * 2 ^ 14 + y0) * 2 ^ k =
      (((x2 * 2 ^ 7 ||| y1) * 2 ^ 7 + x1) * 2 ^ 7 + y0) * 2 ^ k + x0 := by
  have hlow : x0 < 2 ^ (k + 7) := lt_of_lt_of_le hx0 (Nat.pow_le_pow_right (by decide) (by omega))
  have hlow' : y0 * 2 ^ k < 2 ^ (k + 7) := by
    rw [Nat.pow_add, Nat.mul_comm (2 ^ k)]
    exact Nat.mul_lt_mul_of_pos_right hy0 (by positivity)
  have hodd : (y1 * 2 ^ 14 + y0) * 2 ^ k = y1 * 2 ^ 7 * 2 ^ (k + 7) + y0 * 2 ^ k := by ring
  have heven : x2 * 2 ^ 14 + x1 = x2 * 2 ^ 7 * 2 ^ 7 + x1 := by ring
  have hhigh : x2 * 2 ^ 14 + x1 ||| y1 * 2 ^ 7 = (x2 * 2 ^ 7 ||| y1) * 2 ^ 7 + x1 := by
    have hdigits := or_digits (k := 7) (x2 * 2 ^ 7) y1 hx1 (by decide : 0 < 2 ^ 7)
    rw [heven]
    simpa using hdigits
  have hx0' : x0 ||| y0 * 2 ^ k = y0 * 2 ^ k + x0 := by rw [Nat.or_comm, mul_or _ hx0]
  rw [hodd, or_digits _ _ hlow hlow', hhigh, hx0']
  ring

section
variable {g0 g1 g2 g3 g4 g5 g6 g7 a b s p4 : ℕ}

private theorem getVarint9_eq (hg3 : g3 < 128) (hg4 : g4 < 128) (hg5 : g5 < 128) (hg6 : g6 < 128)
    (hg7 : g7 < 128) (hg0 : g0 < 128) (hg1 : g1 < 128) (hg2 : g2 < 128)
    (ha : a = g4 * 2 ^ 14 + g6)
    (hb : b = g3 % 16 * 2 ^ 28 + (128 + g5) * 2 ^ 14 + (128 + g7))
    (hs : s = g0 * 2 ^ 21 + g1 * 2 ^ 14 + g2 * 2 ^ 7 + g3) (hp4 : p4 = 128 + g4) (p : Bytes) :
    getVarint9 a b s p4 p =
      (formatLoop 0 (g0 * 2 ^ 49 + g1 * 2 ^ 42 + g2 * 2 ^ 35 + g3 * 2 ^ 28 + g4 * 2 ^ 21 +
        g5 * 2 ^ 14 + g6 * 2 ^ 7 + g7) p).map fun r => (r.1, r.2 + 8) := by
  cases p with
  | nil => simp [getVarint9, formatLoop]
  | cons p8 p =>
    have hp8 := p8.toNat_lt
    have ha' : a * 2 ^ 15 % 2 ^ 32 + p8.toNat = (g4 % 8 * 2 ^ 14 + g6) * 2 ^ (8 + 7) + p8.toNat := by
      omega
    have hb' : shl (b &&& SLOT_2_0) 8 = (g5 * 2 ^ 14 + g7) * 2 ^ 8 := by
      rw [and_slot2, shl_eq]
      omega
    have hlow : p4 &&& 0x7f = g4 := by
      rw [hp4]
      have hmask : 128 + g4 &&& 0x7f = (128 + g4) % 2 ^ 7 := and_low _ 7
      omega
    have hs' : shl s 4 = s * 2 ^ 4 := by
      rw [shl_eq]
      omega
    have hword : ((g4 % 8 * 2 ^ 7 ||| g5) * 2 ^ 7 + g6) * 2 ^ 7 + g7 < 2 ^ 24 := by
      have hor : g4 % 8 * 2 ^ 7 ||| g5 = g4 % 8 * 2 ^ 7 + g5 := mul_or _ hg5
      omega
    have hor : g4 % 8 * 2 ^ 7 ||| g5 = g4 % 8 * 2 ^ 7 + g5 := mul_or _ hg5
    dsimp only [getVarint9]
    rw [shl_or p8 (by decide) (by decide), ha', hb', or_groups _ _ hg6 hp8 hg7, hlow, hs',
      Nat.shiftRight_eq_div_pow, mul_or s (by omega : g4 / 2 ^ 3 < 2 ^ 4), Nat.shiftLeft_eq,
      mul_or _ (by omega), hor]
    simp only [formatLoop, Option.map_some, Option.some.injEq, Prod.mk.injEq, and_true]
    omega

private theorem getVarint8_eq (hg0 : g0 < 128) (hg1 : g1 < 128) (hg2 : g2 < 128) (hg3 : g3 < 128)
    (hg4 : g4 < 128) (hg5 : g5 < 128) (hg6 : g6 < 128) (ha : a = g4 * 2 ^ 14 + g6)
    (hb : b = g1 % 16 * 2 ^ 28 + g3 * 2 ^ 14 + (128 + g5))
    (hs : s = g0 * 2 ^ 21 + g1 * 2 ^ 14 + g2 * 2 ^ 7 + g3) (hp4 : p4 = 128 + g4) (p : Bytes) :
    getVarint8 a b s p4 p =
      (formatLoop 1 (g0 * 2 ^ 42 + g1 * 2 ^ 35 + g2 * 2 ^ 28 + g3 * 2 ^ 21 + g4 * 2 ^ 14 +
        g5 * 2 ^ 7 + g6) p).map fun r => (r.1, r.2 + 7) := by
  cases p with
  | nil => simp [getVarint8, formatLoop]
  | cons p7 p =>
    have hp7 := p7.toNat_lt
    have hb' : b * 2 ^ 14 % 2 ^ 32 + p7.toNat =
        g3 % 16 * 2 ^ 28 + (128 + g5) * 2 ^ 14 + p7.toNat := by omega
    have hflag : (g3 % 16 * 2 ^ 28 + (128 + g5) * 2 ^ 14 + p7.toNat) &&& 0x80 = 0 ↔
        p7.toNat < 128 := by
      rw [and_flag]
      omega
    dsimp only [getVarint8]
    rw [shl_or p7 (by decide) (by decide), hb', formatLoop]
    by_cases h7 : p7.toNat < 128
    · have hmask : (g3 % 16 * 2 ^ 28 + (128 + g5) * 2 ^ 14 + p7.toNat) &&& SLOT_4_2_0 =
          (g3 % 16 * 2 ^ 14 + g5) * 2 ^ (7 + 7) + p7.toNat := by
        rw [and_slot4]
        omega
      have ha' : shl a 7 = (g4 * 2 ^ 14 + g6) * 2 ^ 7 := by
        rw [shl_eq]
        omega
      have hor : g3 % 16 * 2 ^ 7 ||| g4 = g3 % 16 * 2 ^ 7 + g4 := mul_or _ hg4
      rw [if_pos (hflag.mpr h7), if_pos h7, hmask, ha', Nat.or_comm (_ * 2 ^ 7),
        or_groups _ _ hg5 h7 hg6, hor, Nat.shiftRight_eq_div_pow, Nat.shiftLeft_eq,
        mul_or _ (by omega)]
      simp only [Option.map_some, Option.some.injEq, Prod.mk.injEq, and_true]
      omega
    · rw [if_neg (fun h => h7 (hflag.mp h)), if_neg h7,
        getVarint9_eq hg3 hg4 hg5 hg6 (Nat.mod_lt _ (by decide)) hg0 hg1 hg2 ha
          (by omega : _ = _ + (128 + p7.toNat % 128)) hs hp4, Option.map_map]
      congr 2
      omega

private theorem getVarint7_eq (hg0 : g0 < 128) (hg1 : g1 < 128) (hg2 : g2 < 128) (hg3 : g3 < 128)
    (hg4 : g4 < 128) (hg5 : g5 < 128) (ha : a = g0 % 16 * 2 ^ 28 + g2 * 2 ^ 14 + (128 + g4))
    (hb : b = g1 % 16 * 2 ^ 28 + g3 * 2 ^ 14 + (128 + g5))
    (hs : s = g0 * 2 ^ 21 + g1 * 2 ^ 14 + g2 * 2 ^ 7 + g3) (hp4 : p4 = 128 + g4) (p : Bytes) :
    getVarint7 a b s p4 p =
      (formatLoop 2 (g0 * 2 ^ 35 + g1 * 2 ^ 28 + g2 * 2 ^ 21 + g3 * 2 ^ 14 + g4 * 2 ^ 7 + g5)
        p).map fun r => (r.1, r.2 + 6) := by
  cases p with
  | nil => simp [getVarint7, formatLoop]
  | cons p6 p =>
    have hp6 := p6.toNat_lt
    have ha' : a * 2 ^ 14 % 2 ^ 32 + p6.toNat =
        g2 % 16 * 2 ^ 28 + (128 + g4) * 2 ^ 14 + p6.toNat := by omega
    have hflag : (g2 % 16 * 2 ^ 28 + (128 + g4) * 2 ^ 14 + p6.toNat) &&& 0x80 = 0 ↔
        p6.toNat < 128 := by
      rw [and_flag]
      omega
    dsimp only [getVarint7]
    rw [shl_or p6 (by decide) (by decide), ha', formatLoop]
    by_cases h6 : p6.toNat < 128
    · have hmask : (g2 % 16 * 2 ^ 28 + (128 + g4) * 2 ^ 14 + p6.toNat) &&& SLOT_4_2_0 =
          (g2 % 16 * 2 ^ 14 + g4) * 2 ^ (7 + 7) + p6.toNat := by
        rw [and_slot4]
        omega
      have hb' : shl (b &&& SLOT_2_0) 7 = (g3 * 2 ^ 14 + g5) * 2 ^ 7 := by
        rw [and_slot2, shl_eq]
        omega
      have hor : g2 % 16 * 2 ^ 7 ||| g3 = g2 % 16 * 2 ^ 7 + g3 := mul_or _ hg3
      rw [if_pos (hflag.mpr h6), if_pos h6, hmask, hb', or_groups _ _ hg4 h6 hg5, hor,
        Nat.shiftRight_eq_div_pow, Nat.shiftLeft_eq, mul_or _ (by omega)]
      simp only [Option.map_some, Option.some.injEq, Prod.mk.injEq, and_true]
      omega
    · have hmask : (g2 % 16 * 2 ^ 28 + (128 + g4) * 2 ^ 14 + p6.toNat) &&& SLOT_2_0 =
          g4 * 2 ^ 14 + p6.toNat % 128 := by
        rw [and_slot2]
        omega
      rw [if_neg (fun h => h6 (hflag.mp h)), if_neg h6,
        getVarint8_eq hg0 hg1 hg2 hg3 hg4 hg5 (Nat.mod_lt _ (by decide)) hmask hb hs hp4,
        Option.map_map]
      congr 2
      omega

private theorem getVarint6_eq (hg0 : g0 < 128) (hg1 : g1 < 128) (hg2 : g2 < 128) (hg3 : g3 < 128)
    (hg4 : g4 < 128) (ha : a = g0 % 16 * 2 ^ 28 + g2 * 2 ^ 14 + (128 + g4))
    (hb : b = g1 * 2 ^ 14 + g3) (hs : s = g0 * 2 ^ 21 + g1 * 2 ^ 14 + g2 * 2 ^ 7 + g3)
    (hp4 : p4 = 128 + g4) (p : Bytes) :
    getVarint6 a b s p4 p =
      (formatLoop 3 (g0 * 2 ^ 28 + g1 * 2 ^ 21 + g2 * 2 ^ 14 + g3 * 2 ^ 7 + g4) p).map
        fun r => (r.1, r.2 + 5) := by
  cases p with
  | nil => simp [getVarint6, formatLoop]
  | cons p5 p =>
    have hp5 := p5.toNat_lt
    have hb' : b * 2 ^ 14 % 2 ^ 32 + p5.toNat = g1 % 16 * 2 ^ 28 + g3 * 2 ^ 14 + p5.toNat := by omega
    have hflag : (g1 % 16 * 2 ^ 28 + g3 * 2 ^ 14 + p5.toNat) &&& 0x80 = 0 ↔ p5.toNat < 128 := by
      rw [and_flag]
      omega
    dsimp only [getVarint6]
    rw [shl_or p5 (by decide) (by decide), hb', formatLoop]
    by_cases h5 : p5.toNat < 128
    · have hword : g1 % 16 * 2 ^ 28 + g3 * 2 ^ 14 + p5.toNat =
          (g1 % 16 * 2 ^ 14 + g3) * 2 ^ (7 + 7) + p5.toNat := by omega
      have ha' : shl (a &&& SLOT_2_0) 7 = (g2 * 2 ^ 14 + g4) * 2 ^ 7 := by
        rw [and_slot2, shl_eq]
        omega
      have hor : g1 % 16 * 2 ^ 7 ||| g2 = g1 % 16 * 2 ^ 7 + g2 := mul_or _ hg2
      have hs' : s / 2 ^ 18 = g0 * 2 ^ 3 + g1 / 16 := by omega
      rw [if_pos (hflag.mpr h5), if_pos h5, hword, ha', Nat.or_comm (_ * 2 ^ 7),
        or_groups _ _ hg3 h5 hg4, hor, Nat.shiftRight_eq_div_pow, Nat.shiftLeft_eq,
        mul_or _ (by omega), hs']
      simp only [Option.map_some, Option.some.injEq, Prod.mk.injEq, and_true]
      clear hs hs' ha hb hb' hflag hword ha' hor
      omega
    · rw [if_neg (fun h => h5 (hflag.mp h)), if_neg h5,
        getVarint7_eq hg0 hg1 hg2 hg3 hg4 (Nat.mod_lt _ (by decide)) ha
          (by omega : _ = _ + (128 + p5.toNat % 128)) hs hp4, Option.map_map]
      congr 2
      omega

private theorem getVarint5_eq (hg0 : g0 < 128) (hg1 : g1 < 128) (hg2 : g2 < 128) (hg3 : g3 < 128)
    (ha : a = g0 * 2 ^ 14 + g2) (hb : b = g1 * 2 ^ 14 + g3) (p : Bytes) :
    getVarint5 a b p =
      (formatLoop 4 (g0 * 2 ^ 21 + g1 * 2 ^ 14 + g2 * 2 ^ 7 + g3) p).map
        fun r => (r.1, r.2 + 4) := by
  cases p with
  | nil => simp [getVarint5, formatLoop]
  | cons p4 p =>
    have hp4 := p4.toNat_lt
    have ha' : a * 2 ^ 14 % 2 ^ 32 + p4.toNat = g0 % 16 * 2 ^ 28 + g2 * 2 ^ 14 + p4.toNat := by omega
    have hflag : (g0 % 16 * 2 ^ 28 + g2 * 2 ^ 14 + p4.toNat) &&& 0x80 = 0 ↔ p4.toNat < 128 := by
      rw [and_flag]
      omega
    dsimp only [getVarint5]
    rw [shl_or p4 (by decide) (by decide), ha', formatLoop]
    by_cases h4 : p4.toNat < 128
    · have hword : g0 % 16 * 2 ^ 28 + g2 * 2 ^ 14 + p4.toNat =
          (g0 % 16 * 2 ^ 14 + g2) * 2 ^ (7 + 7) + p4.toNat := by omega
      have hb' : shl b 7 = (g1 * 2 ^ 14 + g3) * 2 ^ 7 := by
        rw [shl_eq]
        omega
      have hor : g0 % 16 * 2 ^ 7 ||| g1 = g0 % 16 * 2 ^ 7 + g1 := mul_or _ hg1
      rw [if_pos (hflag.mpr h4), if_pos h4, hword, hb', or_groups _ _ hg2 h4 hg3, hor,
        Nat.shiftRight_eq_div_pow, Nat.shiftLeft_eq, mul_or _ (by omega)]
      have hs : a / 2 ^ 18 = g0 / 16 := by omega
      rw [hs]
      simp only [Option.map_some, Option.some.injEq, Prod.mk.injEq, and_true]
      clear hs ha hb ha' hflag hword hb' hor
      omega
    · have hs : shl a 7 ||| b = g0 * 2 ^ 21 + g1 * 2 ^ 14 + g2 * 2 ^ 7 + g3 := by
        have ha7 : shl a 7 = (g0 * 2 ^ 14 + g2) * 2 ^ 7 := by
          rw [shl_eq]
          omega
        have hb7 : b = (0 * 2 ^ 14 + g1) * 2 ^ (7 + 7) + g3 := by simpa using hb
        have hgroups := or_groups (k := 7) 0 g0 hg1 hg3 hg2
        rw [ha7, Nat.or_comm, hb7, hgroups]
        simp only [Nat.zero_mul, Nat.zero_or]
        ring
      rw [if_neg (fun h => h4 (hflag.mp h)), if_neg h4,
        getVarint6_eq hg0 hg1 hg2 hg3 (Nat.mod_lt _ (by decide))
          (by omega : _ = _ + (128 + p4.toNat % 128)) hb hs (by omega), Option.map_map]
      congr 2
      omega

private theorem getVarint4_eq (hg0 : g0 < 128) (hg1 : g1 < 128) (hg2 : g2 < 128)
    (ha : a = g0 * 2 ^ 14 + g2) (hb : b = 128 + g1) (p : Bytes) :
    getVarint4 a b p =
      (formatLoop 5 (g0 * 2 ^ 14 + g1 * 2 ^ 7 + g2) p).map fun r => (r.1, r.2 + 3) := by
  cases p with
  | nil => simp [getVarint4, formatLoop]
  | cons p3 p =>
    have hp3 := p3.toNat_lt
    have hb' : b * 2 ^ 14 % 2 ^ 32 + p3.toNat = (128 + g1) * 2 ^ 14 + p3.toNat := by omega
    have hflag : ((128 + g1) * 2 ^ 14 + p3.toNat) &&& 0x80 = 0 ↔ p3.toNat < 128 := by
      rw [and_flag]
      omega
    dsimp only [getVarint4]
    rw [shl_or p3 (by decide) (by decide), hb', formatLoop]
    by_cases h3 : p3.toNat < 128
    · have hmask : ((128 + g1) * 2 ^ 14 + p3.toNat) &&& SLOT_2_0 =
          (0 * 2 ^ 14 + g1) * 2 ^ (7 + 7) + p3.toNat := by
        rw [and_slot2]
        omega
      have ha' : shl a 7 = (g0 * 2 ^ 14 + g2) * 2 ^ 7 := by
        rw [shl_eq]
        omega
      have hzero : 0 * 2 ^ 7 ||| g0 = g0 := by simp
      rw [if_pos (hflag.mpr h3), if_pos h3, hmask, ha', Nat.or_comm (_ * 2 ^ 7),
        or_groups _ _ hg1 h3 hg2, hzero]
      simp only [Option.map_some, Option.some.injEq, Prod.mk.injEq, and_true]
      omega
    · have hmask : ((128 + g1) * 2 ^ 14 + p3.toNat) &&& SLOT_2_0 =
          g1 * 2 ^ 14 + p3.toNat % 128 := by
        rw [and_slot2]
        omega
      rw [if_neg (fun h => h3 (hflag.mp h)), if_neg h3,
        getVarint5_eq hg0 hg1 hg2 (Nat.mod_lt _ (by decide)) ha hmask, Option.map_map]
      congr 2
      omega

private theorem getVarint3_eq (hg0 : g0 < 128) (hg1 : g1 < 128) (ha : a = 128 + g0)
    (hb : b = 128 + g1) (p : Bytes) :
    getVarint3 a b p = (formatLoop 6 (g0 * 2 ^ 7 + g1) p).map fun r => (r.1, r.2 + 2) := by
  cases p with
  | nil => simp [getVarint3, formatLoop]
  | cons p2 p =>
    have hp2 := p2.toNat_lt
    have ha' : a * 2 ^ 14 % 2 ^ 32 + p2.toNat = (128 + g0) * 2 ^ 14 + p2.toNat := by omega
    have hflag : ((128 + g0) * 2 ^ 14 + p2.toNat) &&& 0x80 = 0 ↔ p2.toNat < 128 := by
      rw [and_flag]
      omega
    have hmask : ((128 + g0) * 2 ^ 14 + p2.toNat) &&& SLOT_2_0 =
        g0 * 2 ^ 14 + p2.toNat % 128 := by
      rw [and_slot2]
      omega
    dsimp only [getVarint3]
    rw [shl_or p2 (by decide) (by decide), ha', hmask, formatLoop]
    by_cases h2 : p2.toNat < 128
    · have hlow : b &&& 0x7f = g1 := by
        have hb7 : b &&& 0x7f = b % 2 ^ 7 := and_low b 7
        omega
      have hb' : shl g1 7 = (0 * 2 ^ 14 + g1) * 2 ^ 7 := by
        rw [shl_eq]
        omega
      have hword : g0 * 2 ^ 14 + p2.toNat % 128 = (0 * 2 ^ 14 + g0) * 2 ^ (7 + 7) + p2.toNat := by
        omega
      rw [if_pos (hflag.mpr h2), if_pos h2, hlow, hb', hword, or_groups 0 0 hg0 h2 hg1]
      simp only [Nat.zero_mul, Nat.or_zero, Option.map_some, Option.some.injEq, Prod.mk.injEq,
        and_true]
      omega
    · rw [if_neg (fun h => h2 (hflag.mp h)), if_neg h2,
        getVarint4_eq hg0 hg1 (Nat.mod_lt _ (by decide)) rfl hb, Option.map_map]
      congr 2
      omega

private theorem getVarint2_eq (hg0 : g0 < 128) (ha : a = 128 + g0) (p : Bytes) :
    getVarint2 a p = (formatLoop 7 g0 p).map fun r => (r.1, r.2 + 1) := by
  cases p with
  | nil => simp [getVarint2, formatLoop]
  | cons p1 p =>
    have hp1 := p1.toNat_lt
    have hflag : p1.toNat &&& 0x80 = 0 ↔ p1.toNat < 128 := by
      rw [and_flag]
      omega
    dsimp only [getVarint2]
    rw [formatLoop]
    by_cases h1 : p1.toNat < 128
    · have hlow : a &&& 0x7f = g0 := by
        have ha7 : a &&& 0x7f = a % 2 ^ 7 := and_low a 7
        omega
      have ha' : shl g0 7 = g0 * 2 ^ 7 := by
        rw [shl_eq]
        omega
      rw [if_pos (hflag.mpr h1), if_pos h1, hlow, ha', mul_or _ h1]
      simp
    · rw [if_neg (fun h => h1 (hflag.mp h)), if_neg h1,
        getVarint3_eq hg0 (Nat.mod_lt _ (by decide)) ha (by omega : _ = 128 + p1.toNat % 128),
        Option.map_map]
      congr 2

end

/-- The unrolled decoder reads the documented format. -/
theorem getVarint_eq_format (p : Bytes) : sqlite3GetVarint p = formatVarint p := by
  cases p with
  | nil => simp [sqlite3GetVarint, formatVarint, formatLoop]
  | cons p0 p =>
    have hp0 := p0.toNat_lt
    have hflag : p0.toNat &&& 0x80 = 0 ↔ p0.toNat < 128 := by
      rw [and_flag]
      omega
    dsimp only [sqlite3GetVarint]
    rw [formatVarint, formatLoop]
    by_cases h0 : p0.toNat < 128
    · rw [if_pos (hflag.mpr h0), if_pos h0]
      simp
    · rw [if_neg (fun h => h0 (hflag.mp h)), if_neg h0,
        getVarint2_eq (Nat.mod_lt _ (by decide)) (by omega : _ = 128 + p0.toNat % 128)]
      simp

/-- The largest word in place of a number that does not fit. -/
def clamp (r : ℕ × ℕ) : ℕ × ℕ := if SQLITE_MAX_U32 < r.1 then (SQLITE_MAX_U32, r.2) else r

theorem clamp_of_lt {v : ℕ} (h : v < 2 ^ 32) (n : ℕ) : clamp (v, n) = (v, n) := by
  unfold clamp SQLITE_MAX_U32
  rw [if_neg (by omega)]

/-- The function reads the format where the first byte has its high bit set. -/
theorem sqlite3GetVarint32_eq {p0 : UInt8} (h0 : 128 ≤ p0.toNat) (p : Bytes) :
    sqlite3GetVarint32 (p0 :: p) = (formatVarint (p0 :: p)).map clamp := by
  have hp0 := p0.toNat_lt
  have hg0 : p0.toNat % 128 < 128 := Nat.mod_lt _ (by decide)
  cases p with
  | nil => simp [sqlite3GetVarint32, formatVarint, formatLoop, not_lt.mpr h0]
  | cons p1 p =>
    have hp1 := p1.toNat_lt
    have hg1 : p1.toNat % 128 < 128 := Nat.mod_lt _ (by decide)
    have hflag1 : p1.toNat &&& 0x80 = 0 ↔ p1.toNat < 128 := by
      rw [and_flag]
      omega
    dsimp only [sqlite3GetVarint32]
    rw [formatVarint, formatLoop, if_neg (not_lt.mpr h0), formatLoop]
    by_cases h1 : p1.toNat < 128
    · have hlow : p0.toNat &&& 0x7f = p0.toNat % 128 := and_low _ 7
      have hshl : shl (p0.toNat % 128) 7 = p0.toNat % 128 * 2 ^ 7 := by
        rw [shl_eq]
        omega
      rw [if_pos (hflag1.mpr h1), if_pos h1, hlow, hshl, mul_or _ h1]
      simp only [Option.map_some, Nat.zero_mul, Nat.zero_add]
      rw [clamp_of_lt (by omega)]
      norm_num
    · rw [if_neg (fun h => h1 (hflag1.mp h)), if_neg h1]
      cases p with
      | nil => simp [formatLoop]
      | cons p2 p =>
        have hp2 := p2.toNat_lt
        have hword : p0.toNat * 2 ^ 14 % 2 ^ 32 + p2.toNat = p0.toNat * 2 ^ 14 + p2.toNat := by omega
        have hflag2 : (p0.toNat * 2 ^ 14 + p2.toNat) &&& 0x80 = 0 ↔ p2.toNat < 128 := by
          rw [and_flag]
          omega
        dsimp only
        rw [shl_or p2 (by decide) (by decide), hword, formatLoop]
        by_cases h2 : p2.toNat < 128
        · have hmask : (p0.toNat * 2 ^ 14 + p2.toNat) &&& (0x7f <<< 14 ||| 0x7f) =
              (0 * 2 ^ 14 + p0.toNat % 128) * 2 ^ (7 + 7) + p2.toNat := by
            change _ &&& SLOT_2_0 = _
            rw [and_slot2]
            omega
          have hlow : p1.toNat &&& 0x7f = p1.toNat % 128 := and_low _ 7
          have hshl : shl (p1.toNat % 128) 7 = (0 * 2 ^ 14 + p1.toNat % 128) * 2 ^ 7 := by
            rw [shl_eq]
            omega
          rw [if_pos (hflag2.mpr h2), if_pos h2, hmask, hlow, hshl,
            or_groups (k := 7) 0 0 hg0 h2 hg1]
          simp only [Nat.zero_mul, Nat.zero_or, Nat.zero_add, Option.map_some]
          rw [clamp_of_lt (by omega)]
          norm_num
        · rw [if_neg (fun h => h2 (hflag2.mp h)), if_neg h2, getVarint_eq_format, formatVarint,
            formatLoop, if_neg (not_lt.mpr h0), formatLoop, if_neg h1, formatLoop, if_neg h2]
          congr 1
          funext r
          have hmask : r.1 &&& SQLITE_MAX_U32 = r.1 % 2 ^ 32 := and_low r.1 32
          dsimp only [clamp]
          rw [hmask]
          unfold SQLITE_MAX_U32
          by_cases hbig : 4294967295 < r.1
          · rw [if_pos (by omega), if_pos hbig]
          · rw [if_neg (by omega), if_neg hbig]

/-- The macro reads the format. -/
theorem getVarint32_eq (p : Bytes) : getVarint32 p = (formatVarint p).map clamp := by
  cases p with
  | nil => simp [getVarint32, formatVarint, formatLoop]
  | cons b p =>
    dsimp only [getVarint32]
    split_ifs with hb
    · have hb' : b.toNat < 2 ^ 32 := by omega
      simp [formatVarint, formatLoop, hb, clamp_of_lt hb']
    · exact sqlite3GetVarint32_eq (not_lt.mp hb) p

theorem getVarint32_lt {p : Bytes} {t n : ℕ} (h : getVarint32 p = some (t, n)) : t < 2 ^ 32 := by
  rw [getVarint32_eq] at h
  obtain ⟨r, -, hr⟩ := Option.map_eq_some_iff.mp h
  have ht := congrArg Prod.fst hr
  rw [clamp, apply_ite Prod.fst] at ht
  dsimp only at ht
  have hmax : SQLITE_MAX_U32 = 4294967295 := rfl
  split_ifs at ht <;> omega

theorem getVarint32_putVarint {v : ℕ} (hv : v < 2 ^ 32) (rest : Bytes) :
    getVarint32 (sqlite3PutVarint v ++ rest) = some (v, (sqlite3PutVarint v).length) := by
  rw [getVarint32_eq, getVarint_putVarint (lt_trans hv (by decide)), Option.map_some, clamp_of_lt hv]

/-- Nine bytes are enough for a number. -/
theorem format_isSome {p : Bytes} (h : 9 ≤ p.length) : (formatVarint p).isSome := by
  have hloop : ∀ n a (p : Bytes), n < p.length → (formatLoop n a p).isSome := by
    intro n
    induction n with
    | zero =>
      intro a p hp
      cases p with
      | nil => simp at hp
      | cons b p => simp [formatLoop]
    | succ n ih =>
      intro a p hp
      cases p with
      | nil => simp at hp
      | cons b p =>
        rw [formatLoop]
        split_ifs
        · simp
        · simpa using ih _ p (by simpa using hp)
  exact hloop 8 0 p (by omega)

/-- The encoder and the decoders agree with the documented format, the encoder with the shortest
string of it. For numbers of one byte the decoder of thirty-two bits is the macro. -/
theorem varint_format :
    (∀ (v : UInt64) (rest : Bytes),
      sqlite3GetVarint (sqlite3PutVarint v.toNat ++ rest) =
        some (v.toNat, (sqlite3PutVarint v.toNat).length) ∧
      (sqlite3PutVarint v.toNat).length = sqlite3VarintLen v.toNat ∧
      1 ≤ sqlite3VarintLen v.toNat ∧ sqlite3VarintLen v.toNat ≤ 9 ∧
      ∀ p k, formatVarint p = some (v.toNat, k) → sqlite3VarintLen v.toNat ≤ k) ∧
    ∀ p : Bytes, 9 ≤ p.length → ∃ v n, formatVarint p = some (v, n) ∧
      sqlite3GetVarint p = some (v, n) ∧ getVarint32 p = some (min v SQLITE_MAX_U32, n) ∧
      (128 ≤ (p.getD 0 0).toNat → sqlite3GetVarint32 p = some (min v SQLITE_MAX_U32, n)) := by
  have hclamp : ∀ v n, clamp (v, n) = (min v SQLITE_MAX_U32, n) := by
    intro v n
    unfold clamp
    split_ifs with hlt
    · rw [min_eq_right hlt.le]
    · rw [min_eq_left (not_lt.mp hlt)]
  constructor
  · intro v rest
    have hv : v.toNat < 2 ^ 64 := v.toNat_lt
    rw [getVarint_eq_format]
    exact ⟨getVarint_putVarint hv rest, length_putVarint hv, varintLen_pos _, varintLen_le_nine _,
      fun p k h => varintLen_le_of_format h⟩
  · intro p hp
    obtain ⟨⟨v, n⟩, hvn⟩ := Option.isSome_iff_exists.mp (format_isSome hp)
    refine ⟨v, n, hvn, by rw [getVarint_eq_format, hvn], ?_, ?_⟩
    · rw [getVarint32_eq, hvn, Option.map_some, hclamp]
    · intro h0
      cases p with
      | nil => simp at hp
      | cons b p => rw [sqlite3GetVarint32_eq (by simpa using h0), hvn, Option.map_some, hclamp]

theorem varint_format_three : sqlite3GetVarint (sqlite3PutVarint 20000 ++ [9]) = some (20000, 3) ∧
    ∃ v n, formatVarint [0x81, 0x80, 0, 0, 0, 0, 0, 0, 0] = some (v, n) ∧
      getVarint32 [0x81, 0x80, 0, 0, 0, 0, 0, 0, 0] = some (min v SQLITE_MAX_U32, n) := by
  constructor
  · have hput := (varint_format.1 20000 [9]).1
    have hlen : (sqlite3PutVarint 20000).length = 3 := by decide
    rw [← hlen]
    exact hput
  · obtain ⟨v, n, hf, -, hget, -⟩ := varint_format.2 [0x81, 0x80, 0, 0, 0, 0, 0, 0, 0] (by decide)
    exact ⟨v, n, hf, hget⟩

/-- The function leaves numbers of one byte to the macro. -/
theorem getVarint32_small : sqlite3GetVarint32 [1, 0, 0, 0, 0, 0, 0, 0, 0] = some (128, 2) ∧
    formatVarint [1, 0, 0, 0, 0, 0, 0, 0, 0] = some (1, 1) := by
  decide

end Sqlite.Record
