import Sqlite.Doclist.Format
import Sqlite.Foundation.Merge

/-! The union of two position lists (`fts3PoslistMerge`). -/
namespace Sqlite.Doclist

open Fts (sqlite3Fts3PutVarint sqlite3Fts3GetVarint)
open Foundation

/-- The bytes after the number at `p`, and `*pVal` after the number is added to it. -/
def fts3GetDeltaVarint (p : List ℕ) (pVal : ℤ) : Option (List ℕ × ℤ) := do
  let (iVal, p) ← sqlite3Fts3GetVarint p
  return (p, i64 (pVal + iVal))

def fts3PutDeltaVarint (iPrev iVal : ℤ) : List ℕ := sqlite3Fts3PutVarint (u64 (iVal - iPrev))

def fts3ReadNextPos (p : List ℕ) (i : ℤ) : Option (List ℕ × ℤ) := do
  let b ← p.head?
  if b &&& 0xFE ≠ 0 then
    let (p, i) ← fts3GetDeltaVarint p i
    return (p, i64 (i - 2))
  else return (p, POSITION_LIST_END)

def fts3PutColNumber (iCol : ℤ) : List ℕ :=
  if iCol ≠ 0 then POS_COLUMN :: sqlite3Fts3PutVarint (u64 iCol) else []

/-- The column of the column list at `p`. -/
def columnAt (p : List ℕ) : Option ℤ := do
  let b ← p.head?
  if b = POS_COLUMN then
    let (iCol, _) ← sqlite3Fts3GetVarint (p.drop 1)
    return i32 iCol
  else if b = POS_END then return POSITION_LIST_END
  else return 0

/-- The reads of a round: from the list with the lower position, or from both. -/
def nextPos (p1 p2 : List ℕ) (i1 i2 : ℤ) : Option ((List ℕ × ℤ) × (List ℕ × ℤ)) :=
  if i1 = i2 then do pure (← fts3ReadNextPos p1 i1, ← fts3ReadNextPos p2 i2)
  else if i1 < i2 then do pure (← fts3ReadNextPos p1 i1, (p2, i2))
  else do pure ((p1, i1), ← fts3ReadNextPos p2 i2)

/-- The loop over the positions of one column: the bytes written, and what is left of the lists. A round
passes at least one byte, so the length of the lists bounds the rounds. -/
def posLoop : ℕ → List ℕ → List ℕ → ℤ → ℤ → ℤ → Option (List ℕ × List ℕ × List ℕ)
  | 0, _, _, _, _, _ => none
  | n + 1, p1, p2, i1, i2, iPrev => do
    let i := if i1 < i2 then i1 else i2
    let out := fts3PutDeltaVarint iPrev i
    let iPrev := i64 (i - 2)
    let ((p1, i1), (p2, i2)) ← nextPos p1 p2 i1 i2
    if i1 ≠ POSITION_LIST_END ∨ i2 ≠ POSITION_LIST_END then
      let (rest, p1, p2) ← posLoop n p1 p2 i1 i2 iPrev
      return (out ++ rest, p1, p2)
    else return (out, p1, p2)

/-- A round of the loop over the columns. -/
def columnRound (p1 p2 : List ℕ) : Option (List ℕ × List ℕ × List ℕ) := do
  let iCol1 ← columnAt p1
  let iCol2 ← columnAt p2
  if iCol1 = iCol2 then
    let col := fts3PutColNumber iCol1
    let (p1, i1) ← fts3GetDeltaVarint (p1.drop col.length) 0
    let (p2, i2) ← fts3GetDeltaVarint (p2.drop col.length) 0
    let (out, p1, p2) ← posLoop (p1.length + p2.length + 1) p1 p2 i1 i2 0
    return (col ++ out, p1, p2)
  else if iCol1 < iCol2 then
    let col := fts3PutColNumber iCol1
    let (out, p1) ← fts3ColumnlistCopy (p1.drop col.length)
    return (col ++ out, p1, p2)
  else
    let col := fts3PutColNumber iCol2
    let (out, p2) ← fts3ColumnlistCopy (p2.drop col.length)
    return (col ++ out, p1, p2)

def columnLoop : ℕ → List ℕ → List ℕ → Option (List ℕ × List ℕ × List ℕ)
  | 0, _, _ => none
  | n + 1, p1, p2 => do
    let b1 ← p1.head?
    let b2 ← p2.head?
    if b1 = 0 ∧ b2 = 0 then return ([], p1, p2)
    else
      let (out, p1, p2) ← columnRound p1 p2
      let (rest, p1, p2) ← columnLoop n p1 p2
      return (out ++ rest, p1, p2)

/-- The merged position list, and the bytes after the two lists. -/
def fts3PoslistMerge (p1 p2 : List ℕ) : Option (List ℕ × List ℕ × List ℕ) := do
  let (out, p1, p2) ← columnLoop (p1.length + p2.length + 1) p1 p2
  return (out ++ [POS_END], p1.drop 1, p2.drop 1)

/-! What the loops compute. The position `LAST` reads like the end of a list. -/

def LAST : ℕ := 2 ^ 31 - 3

/-- The positions of a column that the loop sees. -/
def visible (l : List ℕ) : List ℕ := l.filter (· ≠ LAST)

def union (l l' : List ℕ) : List ℕ := mergeBy (fun a b => (a : ℤ) - b) (fun a _ => a) l l'

/-- The positions written for a column of both lists. -/
def joined (l l' : List ℕ) : List ℕ :=
  if l = [LAST] ∧ l' = [LAST] then [LAST] else union (visible l) (visible l')

/-- The bytes after a column list: the end of the position list, or another column. -/
def Ends (t : List ℕ) : Prop := ∃ b r, t = b :: r ∧ b < 2

/-- The positions `v` of one list are still to come, the first of them has been read, and the bytes `t`
come after the column. -/
def Side (i : ℤ) (p : List ℕ) (t : List ℕ) : List ℕ → Prop
  | [] => i = POSITION_LIST_END ∧ p = t
  | q :: v => i = q + 2 ∧ q < LAST ∧ ∃ l, visible l = v ∧ p = posBytes q l ++ t ∧
      (q :: l).Pairwise (· < ·) ∧ ∀ x ∈ l, x < 2 ^ 31 - 2

variable {i i1 i2 : ℤ} {p p1 p2 t t1 t2 : List ℕ} {v v1 v2 l : List ℕ} {q prev n : ℕ}

theorem ends_head (ht : Ends t) : fts3ReadNextPos t i = some (t, POSITION_LIST_END) := by
  obtain ⟨b, r, rfl, hb⟩ := ht
  have : b = 0 ∨ b = 1 := by omega
  rcases this with rfl | rfl <;> rfl

/-- The read of a position, `start` before it. -/
theorem getDelta_pos {start : ℤ} (h : 0 ≤ start) (h' : start < 2 ^ 32) (hq : q < 2 ^ 31) (hp : prev ≤ q) :
    fts3GetDeltaVarint (posBytes prev (q :: l) ++ t) start =
      some (posBytes q l ++ t, start + (q - prev + 2 : ℕ)) := by
  rw [fts3GetDeltaVarint, posBytes, List.append_assoc, Fts.getVarint_putVarint (by omega)]
  simp only [Option.bind_eq_bind, Option.bind_some]
  rw [i64_of_fits (by omega) (by omega)]
  rfl

theorem readNext_pos (hi : i = prev + 2) (hq : q < 2 ^ 31) (hp : prev ≤ q) :
    fts3ReadNextPos (posBytes prev (q :: l) ++ t) i = some (posBytes q l ++ t, (q : ℤ) + 2) := by
  obtain ⟨b, r, hb, hhead⟩ := putVarint_head (v := q - prev + 2) (by omega)
  have hhead' : (posBytes prev (q :: l) ++ t).head? = some b := by
    rw [posBytes, hb]
    rfl
  have hcont : b &&& 0xFE ≠ 0 := by
    rcases hhead with ⟨rfl, hlt⟩ | ⟨h1, h2⟩
    · have := (low_bits (q - prev + 2) hlt).2.2.2.2 (by omega)
      rwa [Nat.or_zero, Nat.and_comm] at this
    · have := (high_bits b h2 h1).2.2.1
      rwa [Nat.or_zero, Nat.and_comm] at this
  rw [fts3ReadNextPos, hhead']
  simp only [Option.bind_eq_bind, Option.bind_some, hcont, ne_eq, not_false_eq_true, if_true]
  rw [getDelta_pos (by omega) (by omega) hq hp, hi]
  simp only [Option.bind_some]
  rw [i64_of_fits (by omega) (by omega)]
  have : (prev : ℤ) + 2 + ((q - prev + 2 : ℕ) : ℤ) - 2 = q + 2 := by omega
  rw [this]
  rfl

/-- From a column whose first position has been read to the positions seen. -/
theorem Side.mk_cons (hl : (q :: l).Pairwise (· < ·)) (hlt : ∀ x ∈ q :: l, x < 2 ^ 31 - 2) :
    Side ((q : ℤ) + 2) (posBytes q l ++ t) t (visible (q :: l)) := by
  by_cases hq : q = LAST
  · have hnil : l = [] := by
      rw [List.eq_nil_iff_forall_not_mem]
      intro x hx
      have h1 := (List.pairwise_cons.mp hl).1 x hx
      have h2 := hlt x (List.mem_cons_of_mem q hx)
      rw [hq, LAST] at h1
      omega
    subst hq hnil
    exact ⟨rfl, rfl⟩
  · have hvis : visible (q :: l) = q :: visible l := by simp [visible, hq]
    have hlt' := hlt q List.mem_cons_self
    have hq' : q < LAST := by
      rw [LAST] at hq ⊢
      omega
    rw [hvis]
    exact ⟨rfl, hq', l, rfl, rfl, hl, fun x hx => hlt x (List.mem_cons_of_mem q hx)⟩

theorem Side.next (ht : Ends t) (h : Side i p t (q :: v)) :
    ∃ p' i', fts3ReadNextPos p i = some (p', i') ∧ Side i' p' t v := by
  obtain ⟨hi, hq, l, rfl, rfl, hl, hlt⟩ := h
  cases l with
  | nil => exact ⟨t, POSITION_LIST_END, ends_head ht, rfl, rfl⟩
  | cons x l =>
    have hqx := (List.pairwise_cons.mp hl).1 x List.mem_cons_self
    have hx := hlt x List.mem_cons_self
    exact ⟨_, _, readNext_pos hi (by omega) hqx.le, Side.mk_cons (List.pairwise_cons.mp hl).2 hlt⟩

theorem Side.end_iff (h : Side i p t v) : i ≠ POSITION_LIST_END ↔ v ≠ [] := by
  cases v with
  | nil => simp [h.1]
  | cons q v =>
    have hi := h.1
    have hq := h.2.1
    simp only [LAST, POSITION_LIST_END, ne_eq, reduceCtorEq, not_false_eq_true, iff_true] at hq ⊢
    omega

theorem putDelta_pos (hprev : prev ≤ q) (hq : q < 2 ^ 31) (hi : i = q + 2) :
    fts3PutDeltaVarint prev i = sqlite3Fts3PutVarint (q - prev + 2) ∧ i64 (i - 2) = q := by
  constructor
  · rw [fts3PutDeltaVarint, u64_eq (n := q - prev + 2) (by omega) (by omega)]
  · rw [i64_of_fits (by omega) (by omega)]
    omega

theorem Side.lt (h : Side i p t (q :: v)) : ∀ x ∈ v, q < x := by
  obtain ⟨-, -, l, rfl, -, hl, -⟩ := h
  exact fun x hx => (List.pairwise_cons.mp hl).1 x (List.mem_filter.mp hx).1

theorem union_nil_right (l : List ℕ) : union l [] = l := mergeBy_nil_right l

/-- A round takes the lower of the two positions, from both lists if they are the same. -/
theorem Side.pick (ht1 : Ends t1) (ht2 : Ends t2) (h1 : Side i1 p1 t1 v1) (h2 : Side i2 p2 t2 v2)
    (hne : v1 ≠ [] ∨ v2 ≠ []) : ∃ q v1' v2', union v1 v2 = q :: union v1' v2' ∧
      (q ∈ v1 ∨ q ∈ v2) ∧ (∀ x ∈ v1', q ≤ x) ∧ (∀ x ∈ v2', q ≤ x) ∧
      v1'.length + v2'.length < v1.length + v2.length ∧ q < LAST ∧
      (if i1 < i2 then i1 else i2) = q + 2 ∧
      ∃ p1' i1' p2' i2', nextPos p1 p2 i1 i2 = some ((p1', i1'), (p2', i2')) ∧
        Side i1' p1' t1 v1' ∧ Side i2' p2' t2 v2' := by
  have hend : ∀ {i : ℤ} {p t : List ℕ} {q : ℕ} {v : List ℕ}, Side i p t (q :: v) →
      i = q + 2 ∧ q < LAST ∧ i < POSITION_LIST_END := by
    intro i p t q v h
    have hi := h.1
    have hq := h.2.1
    refine ⟨hi, hq, ?_⟩
    simp only [LAST, POSITION_LIST_END] at hq ⊢
    omega
  cases v1 with
  | nil =>
    obtain ⟨hi1, -⟩ := id h1
    cases v2 with
    | nil => simp at hne
    | cons b v2 =>
      obtain ⟨hi2, hb, hlt⟩ := hend h2
      obtain ⟨p2', i2', hread, h2'⟩ := h2.next ht2
      refine ⟨b, [], v2, by simp [union, mergeBy], .inr List.mem_cons_self, by simp,
        fun x hx => (h2.lt x hx).le, by simp, hb, ?_, p1, i1, p2', i2', ?_, h1, h2'⟩
      · rw [if_neg (by omega), hi2]
      · rw [nextPos, if_neg (by omega), if_neg (by omega), hread]
        rfl
  | cons a v1 =>
    obtain ⟨hi1, ha, hlt1⟩ := hend h1
    obtain ⟨p1', i1', hread1, h1'⟩ := h1.next ht1
    cases v2 with
    | nil =>
      obtain ⟨hi2, -⟩ := id h2
      refine ⟨a, v1, [], by simp [union_nil_right], .inl List.mem_cons_self,
        fun x hx => (h1.lt x hx).le, by simp, by simp, ha, ?_, p1', i1', p2, i2, ?_, h1', h2⟩
      · rw [if_pos (by omega), hi1]
      · rw [nextPos, if_neg (by omega), if_pos (by omega), hread1]
        rfl
    | cons b v2 =>
      obtain ⟨hi2, hb, hlt2⟩ := hend h2
      obtain ⟨p2', i2', hread2, h2'⟩ := h2.next ht2
      rcases Nat.lt_trichotomy a b with hab | rfl | hab
      · refine ⟨a, v1, b :: v2, ?_, .inl List.mem_cons_self, fun x hx => (h1.lt x hx).le, ?_,
          by simp, ha, ?_, p1', i1', p2, i2, ?_, h1', h2⟩
        · rw [union, mergeBy, if_neg (by omega), if_pos (by omega)]
          rfl
        · intro x hx
          rcases List.mem_cons.mp hx with rfl | hx
          · exact hab.le
          · exact (hab.trans (h2.lt x hx)).le
        · rw [if_pos (by omega), hi1]
        · rw [nextPos, if_neg (by omega), if_pos (by omega), hread1]
          rfl
      · refine ⟨a, v1, v2, ?_, .inl List.mem_cons_self, fun x hx => (h1.lt x hx).le,
          fun x hx => (h2.lt x hx).le, by simp; omega, ha, ?_, p1', i1', p2', i2', ?_, h1', h2'⟩
        · rw [union, mergeBy, if_pos (by omega)]
          rfl
        · rw [if_neg (by omega), hi2]
        · rw [nextPos, if_pos (by omega), hread1, hread2]
          rfl
      · refine ⟨b, a :: v1, v2, ?_, .inr List.mem_cons_self, ?_, fun x hx => (h2.lt x hx).le,
          by simp, hb, ?_, p1, i1, p2', i2', ?_, h1, h2'⟩
        · rw [union, mergeBy, if_neg (by omega), if_neg (by omega)]
          rfl
        · intro x hx
          rcases List.mem_cons.mp hx with rfl | hx
          · exact hab.le
          · exact (hab.trans (h1.lt x hx)).le
        · rw [if_neg (by omega), hi2]
        · rw [nextPos, if_neg (by omega), if_neg (by omega), hread2]
          rfl

theorem posLoop_union (ht1 : Ends t1) (ht2 : Ends t2) (h1 : Side i1 p1 t1 v1)
    (h2 : Side i2 p2 t2 v2) (hne : v1 ≠ [] ∨ v2 ≠ []) (hp1 : ∀ x ∈ v1, prev ≤ x)
    (hp2 : ∀ x ∈ v2, prev ≤ x) (hn : v1.length + v2.length ≤ n) :
    posLoop n p1 p2 i1 i2 prev = some (posBytes prev (union v1 v2), t1, t2) := by
  induction n generalizing p1 p2 i1 i2 v1 v2 prev with
  | zero =>
    rcases hne with hne | hne <;> exact absurd (List.eq_nil_of_length_eq_zero (by omega)) hne
  | succ n ih =>
    obtain ⟨q, v1', v2', hunion, hmem, hq1, hq2, hlen, hlast, hi, p1', i1', p2', i2', hreads, h1', h2'⟩ :=
      Side.pick ht1 ht2 h1 h2 hne
    have hprev : prev ≤ q := hmem.elim (hp1 q) (hp2 q)
    have hq : q < 2 ^ 31 := by
      rw [LAST] at hlast
      omega
    obtain ⟨hput, hstep⟩ := putDelta_pos hprev hq hi
    have hround : posLoop (n + 1) p1 p2 i1 i2 prev =
        if i1' ≠ POSITION_LIST_END ∨ i2' ≠ POSITION_LIST_END then
          (posLoop n p1' p2' i1' i2' q).map fun r =>
            (sqlite3Fts3PutVarint (q - prev + 2) ++ r.1, r.2.1, r.2.2)
        else some (sqlite3Fts3PutVarint (q - prev + 2), p1', p2') := by
      rw [posLoop]
      simp only [hput, hstep, hreads, Option.bind_eq_bind, Option.bind_some]
      split
      · cases posLoop n p1' p2' i1' i2' q <;> rfl
      · rfl
    have hiff : (i1' ≠ POSITION_LIST_END ∨ i2' ≠ POSITION_LIST_END) ↔ (v1' ≠ [] ∨ v2' ≠ []) :=
      or_congr h1'.end_iff h2'.end_iff
    rw [hround, hunion, posBytes]
    by_cases hmore : v1' ≠ [] ∨ v2' ≠ []
    · rw [if_pos (hiff.mpr hmore), ih h1' h2' hmore hq1 hq2 (by omega)]
      rfl
    · rw [if_neg (hiff.not.mpr hmore)]
      simp only [ne_eq, not_or, not_not] at hmore
      obtain ⟨rfl, rfl⟩ := hmore
      rw [h1'.2, h2'.2]
      simp [union, mergeBy, posBytes]

/-! The columns. -/

def columnCmp (x y : ℕ × List ℕ) : ℤ := (x.1 : ℤ) - y.1

/-- What is written for two columns with one number. -/
def joinColumns (x y : ℕ × List ℕ) : ℕ × List ℕ := (x.1, joined x.2 y.2)

/-- What is written for two position lists. -/
def mergedColumns (l l' : Poslist) : Poslist := mergeBy columnCmp joinColumns l l'

theorem putColNumber {c : ℕ} (hc : c < 2 ^ 31) : fts3PutColNumber c = headerBytes c := by
  rw [fts3PutColNumber, headerBytes]
  by_cases h : c = 0
  · rw [if_pos h, if_neg (by omega)]
  · rw [if_neg h, if_pos (by omega), u64_cast c (by omega)]

/-- The start of a position list whose columns are all after column 0. -/
theorem ends_columns {cols : Poslist} (h : ∀ c ∈ cols, c.1 ≠ 0) (rest : List ℕ) :
    Ends (columnsBytes cols ++ 0 :: rest) := by
  cases cols with
  | nil => exact ⟨0, rest, rfl, by decide⟩
  | cons c cols =>
    have hc := h c List.mem_cons_self
    rw [columnsBytes, List.flatMap_cons, columnBytes, headerBytes, if_neg hc, POS_COLUMN]
    exact ⟨1, _, rfl, by decide⟩

theorem columnAt_end (rest : List ℕ) : columnAt (0 :: rest) = some POSITION_LIST_END := rfl

theorem columnAt_cons {c : ℕ} {l : List ℕ} (hc : c < 2 ^ 31 - 1) (hne : l ≠ [])
    (hl : ∀ q ∈ l, q < 2 ^ 31) (rest : List ℕ) :
    columnAt (columnBytes (c, l) ++ rest) = some (c : ℤ) ∧
      ∃ b, (columnBytes (c, l) ++ rest).head? = some b ∧ b ≠ 0 := by
  rw [columnBytes, headerBytes]
  by_cases h : c = 0
  · obtain ⟨q, l, rfl⟩ := List.exists_cons_of_ne_nil hne
    have hq := hl q List.mem_cons_self
    obtain ⟨b, r, hb, hhead⟩ := putVarint_head (v := q - 0 + 2) (by omega)
    rw [if_pos h, posBytes, hb]
    have h0 : b ≠ 0 := by omega
    have h1 : b ≠ POS_COLUMN := by
      rw [POS_COLUMN]
      omega
    exact ⟨by simp [columnAt, h1, POS_END, h0, h], b, rfl, h0⟩
  · rw [if_neg h]
    refine ⟨?_, 1, rfl, by decide⟩
    simp only [columnAt, List.cons_append, List.head?_cons, Option.bind_eq_bind, Option.bind_some,
      if_true, List.drop_succ_cons, List.drop_zero, List.append_assoc,
      Fts.getVarint_putVarint (v := c) (by omega)]
    have hcast : i32 c = c := by
      rw [i32, Int.bmod_def]
      omega
    rw [hcast]
    rfl

theorem visible_eq_nil {l : List ℕ} (hl : l.Pairwise (· < ·)) (hne : l ≠ []) (h : visible l = []) :
    l = [LAST] := by
  have hall : ∀ x ∈ l, x = LAST := by
    intro x hx
    by_contra hx'
    have : x ∈ visible l := List.mem_filter.mpr ⟨hx, by simpa using hx'⟩
    rw [h] at this
    exact absurd this List.not_mem_nil
  cases l with
  | nil => exact absurd rfl hne
  | cons a l =>
    have ha := hall a List.mem_cons_self
    cases l with
    | nil => rw [ha]
    | cons b l =>
      have hb := hall b (List.mem_cons_of_mem a List.mem_cons_self)
      have hab := (List.pairwise_cons.mp hl).1 b List.mem_cons_self
      omega

theorem length_le_posBytes (prev : ℕ) (l : List ℕ) (h : ∀ q ∈ l, q < 2 ^ 31) :
    l.length ≤ (posBytes prev l).length := by
  induction l generalizing prev with
  | nil => exact Nat.zero_le _
  | cons q l ih =>
    have hq := h q List.mem_cons_self
    have hpos := length_putVarint_pos (v := q - prev + 2) (by omega)
    have hrest := ih q fun x hx => h x (List.mem_cons_of_mem q hx)
    rw [posBytes, List.length_append, List.length_cons]
    omega

theorem Ends.length_pos (ht : Ends t) : 0 < t.length := by
  obtain ⟨b, r, rfl, -⟩ := ht
  exact Nat.succ_pos _

/-- One column of both lists. -/
theorem joined_column {a b : List ℕ} (ha : a.Pairwise (· < ·)) (hb : b.Pairwise (· < ·)) (hane : a ≠ [])
    (hbne : b ≠ []) (halt : ∀ x ∈ a, x < 2 ^ 31 - 2) (hblt : ∀ x ∈ b, x < 2 ^ 31 - 2)
    (ht1 : Ends t1) (ht2 : Ends t2) : ∃ p1 i1 p2 i2,
      fts3GetDeltaVarint (posBytes 0 a ++ t1) 0 = some (p1, i1) ∧
      fts3GetDeltaVarint (posBytes 0 b ++ t2) 0 = some (p2, i2) ∧
      posLoop (p1.length + p2.length + 1) p1 p2 i1 i2 0 = some (posBytes 0 (joined a b), t1, t2) := by
  have hread : ∀ {l t : List ℕ}, l.Pairwise (· < ·) → l ≠ [] → (∀ x ∈ l, x < 2 ^ 31 - 2) → Ends t →
      ∃ p i, fts3GetDeltaVarint (posBytes 0 l ++ t) 0 = some (p, i) ∧ Side i p t (visible l) ∧
        (visible l).length ≤ p.length ∧ (l = [LAST] → i = POSITION_LIST_END ∧ p = t) := by
    intro l t hl hne hlt ht
    obtain ⟨q, l, rfl⟩ := List.exists_cons_of_ne_nil hne
    have hq := hlt q List.mem_cons_self
    have hlt' : ∀ x ∈ l, x < 2 ^ 31 := fun x hx => by
      have := hlt x (List.mem_cons_of_mem q hx)
      omega
    have hside := Side.mk_cons (t := t) hl hlt
    have hcast : (0 : ℤ) + ((q - 0 + 2 : ℕ) : ℤ) = q + 2 := by omega
    refine ⟨posBytes q l ++ t, (q : ℤ) + 2, ?_, hside, ?_, ?_⟩
    · rw [getDelta_pos le_rfl (by decide) (by omega) (Nat.zero_le q), hcast]
    · have h1 : (visible (q :: l)).length ≤ l.length + 1 := List.length_filter_le _ _
      have h2 := length_le_posBytes q l hlt'
      have h3 := ht.length_pos
      rw [List.length_append]
      omega
    · intro heq
      obtain ⟨rfl, rfl⟩ := List.cons.inj heq
      exact ⟨rfl, rfl⟩
  obtain ⟨p1, i1, h1, hs1, hl1, he1⟩ := hread ha hane halt ht1
  obtain ⟨p2, i2, h2, hs2, hl2, he2⟩ := hread hb hbne hblt ht2
  refine ⟨p1, i1, p2, i2, h1, h2, ?_⟩
  rw [joined]
  by_cases hlast : a = [LAST] ∧ b = [LAST]
  · -- Both lists are the one position that reads like an end: it is written, and the loop stops.
    obtain ⟨rfl, rfl⟩ := he1 hlast.1
    obtain ⟨rfl, rfl⟩ := he2 hlast.2
    have hput : fts3PutDeltaVarint 0 POSITION_LIST_END = sqlite3Fts3PutVarint (LAST - 0 + 2) := rfl
    rw [if_pos hlast, posLoop]
    simp only [nextPos, if_true, ends_head ht1, ends_head ht2, Option.bind_eq_bind, Option.bind_some,
      lt_self_iff_false, if_false, hput]
    simp [posBytes]
  · rw [if_neg hlast]
    refine posLoop_union ht1 ht2 hs1 hs2 ?_ (fun x _ => Nat.zero_le x) (fun x _ => Nat.zero_le x)
      (by omega)
    by_contra hno
    simp only [ne_eq, not_or, not_not] at hno
    exact hlast ⟨visible_eq_nil ha hane hno.1, visible_eq_nil hb hbne hno.2⟩

theorem IsPoslist.of_cons {c : ℕ × List ℕ} {l : Poslist} (h : IsPoslist (c :: l)) : IsPoslist l where
  columns := (List.pairwise_cons.mp h.columns).2
  positions := fun x hx => h.positions x (List.mem_cons_of_mem c hx)
  nonempty := fun x hx => h.nonempty x (List.mem_cons_of_mem c hx)
  column_lt := fun x hx => h.column_lt x (List.mem_cons_of_mem c hx)
  position_lt := fun x hx => h.position_lt x (List.mem_cons_of_mem c hx)

/-- The columns after the first one are not column 0. -/
theorem IsPoslist.tail_ne_zero {c : ℕ × List ℕ} {l : Poslist} (h : IsPoslist (c :: l)) :
    ∀ x ∈ l, x.1 ≠ 0 := by
  intro x hx
  have := (List.pairwise_cons.mp h.columns).1 x hx
  omega

/-- The positions are in the range that the merge is for. -/
def Small (l : Poslist) : Prop := ∀ c ∈ l, ∀ q ∈ c.2, q < 2 ^ 31 - 2

instance (l : Poslist) : Decidable (Small l) :=
  inferInstanceAs (Decidable (∀ c ∈ l, ∀ q ∈ c.2, q < 2 ^ 31 - 2))

theorem Small.of_cons {c : ℕ × List ℕ} {l : Poslist} (h : Small (c :: l)) : Small l :=
  fun x hx => h x (List.mem_cons_of_mem c hx)

theorem columnsBytes_cons (c : ℕ × List ℕ) (l : Poslist) (rest : List ℕ) :
    columnsBytes (c :: l) ++ rest = headerBytes c.1 ++ (posBytes 0 c.2 ++ (columnsBytes l ++ rest)) := by
  rw [columnsBytes, List.flatMap_cons, columnBytes]
  simp only [List.append_assoc]
  rfl

/-- What the loop finds at the start of a position list that is not at its end. -/
theorem columnAt_columns {c : ℕ × List ℕ} {l : Poslist} (h : IsPoslist (c :: l)) (rest : List ℕ) :
    columnAt (columnsBytes (c :: l) ++ rest) = some (c.1 : ℤ) ∧
      ∃ b, (columnsBytes (c :: l) ++ rest).head? = some b ∧ b ≠ 0 := by
  have := columnAt_cons (h.column_lt c List.mem_cons_self) (h.nonempty c List.mem_cons_self)
    (h.position_lt c List.mem_cons_self) (columnsBytes l ++ rest)
  rw [columnsBytes_cons]
  rwa [columnBytes, List.append_assoc] at this

/-- A column that only one of the lists has is copied. -/
theorem copy_column {c : ℕ × List ℕ} {l : Poslist} (h : IsPoslist (c :: l)) (rest : List ℕ) :
    fts3ColumnlistCopy ((columnsBytes (c :: l) ++ 0 :: rest).drop (headerBytes c.1).length) =
      some (posBytes 0 c.2, columnsBytes l ++ 0 :: rest) := by
  obtain ⟨b, r, hb, hlt⟩ := ends_columns h.tail_ne_zero rest
  rw [columnsBytes_cons, List.drop_left, hb,
    columnlistCopy (h.position_lt c List.mem_cons_self) hlt]

theorem column_lt_end {c : ℕ × List ℕ} {l : Poslist} (h : IsPoslist (c :: l)) :
    (c.1 : ℤ) < POSITION_LIST_END ∧ fts3PutColNumber c.1 = headerBytes c.1 := by
  have := h.column_lt c List.mem_cons_self
  refine ⟨?_, putColNumber (by omega)⟩
  rw [POSITION_LIST_END]
  omega

theorem round_left {c : ℕ × List ℕ} {l : Poslist} (h : IsPoslist (c :: l)) (rest : List ℕ) {iCol : ℤ}
    (hat : columnAt p2 = some iCol) (hlt : (c.1 : ℤ) < iCol) :
    columnRound (columnsBytes (c :: l) ++ 0 :: rest) p2 =
      some (columnBytes c, columnsBytes l ++ 0 :: rest, p2) := by
  rw [columnRound, (columnAt_columns h (0 :: rest)).1, hat]
  simp only [Option.bind_eq_bind, Option.bind_some, hlt.ne, hlt, if_false, if_true, copy_column h,
    (column_lt_end h).2]
  rfl

theorem round_right {c : ℕ × List ℕ} {l : Poslist} (h : IsPoslist (c :: l)) (rest : List ℕ) {iCol : ℤ}
    (hat : columnAt p1 = some iCol) (hlt : (c.1 : ℤ) < iCol) :
    columnRound p1 (columnsBytes (c :: l) ++ 0 :: rest) =
      some (columnBytes c, p1, columnsBytes l ++ 0 :: rest) := by
  rw [columnRound, (columnAt_columns h (0 :: rest)).1, hat]
  simp only [Option.bind_eq_bind, Option.bind_some, hlt.ne', not_lt_of_gt hlt, if_false,
    copy_column h, (column_lt_end h).2]
  rfl

theorem round_both {c d : ℕ × List ℕ} {l l' : Poslist} (h : IsPoslist (c :: l))
    (h' : IsPoslist (d :: l')) (hs : Small (c :: l)) (hs' : Small (d :: l')) (hcd : c.1 = d.1)
    (r1 r2 : List ℕ) : columnRound (columnsBytes (c :: l) ++ 0 :: r1) (columnsBytes (d :: l') ++ 0 :: r2) =
      some (columnBytes (joinColumns c d), columnsBytes l ++ 0 :: r1, columnsBytes l' ++ 0 :: r2) := by
  have hc := List.mem_cons_self (a := c) (l := l)
  have hd := List.mem_cons_self (a := d) (l := l')
  obtain ⟨p1, i1, p2, i2, hread1, hread2, hloop⟩ := joined_column (h.positions c hc)
    (h'.positions d hd) (h.nonempty c hc) (h'.nonempty d hd) (hs c hc) (hs' d hd)
    (ends_columns h.tail_ne_zero r1) (ends_columns h'.tail_ne_zero r2)
  rw [columnRound, (columnAt_columns h (0 :: r1)).1, (columnAt_columns h' (0 :: r2)).1]
  have hput := (column_lt_end h).2
  simp only [Option.bind_eq_bind, Option.bind_some, ← hcd, if_true, hput]
  rw [columnsBytes_cons, columnsBytes_cons, List.drop_left, ← hcd, List.drop_left, hread1]
  simp only [Option.bind_some, hread2, hloop]
  rfl

theorem columnLoop_merged {l1 l2 : Poslist} (h1 : IsPoslist l1) (h2 : IsPoslist l2) (hs1 : Small l1)
    (hs2 : Small l2) (r1 r2 : List ℕ) (hn : l1.length + l2.length < n) :
    columnLoop n (columnsBytes l1 ++ 0 :: r1) (columnsBytes l2 ++ 0 :: r2) =
      some (columnsBytes (mergedColumns l1 l2), 0 :: r1, 0 :: r2) := by
  induction n generalizing l1 l2 with
  | zero => omega
  | succ n ih =>
    have hround : ∀ {p1 p2 : List ℕ} {b1 b2 : ℕ} {c : ℕ × List ℕ} {m1 m2 : Poslist}, p1.head? = some b1 →
        p2.head? = some b2 → ¬(b1 = 0 ∧ b2 = 0) → columnRound p1 p2 =
          some (columnBytes c, columnsBytes m1 ++ 0 :: r1, columnsBytes m2 ++ 0 :: r2) →
        columnLoop n (columnsBytes m1 ++ 0 :: r1) (columnsBytes m2 ++ 0 :: r2) =
          some (columnsBytes (mergedColumns m1 m2), 0 :: r1, 0 :: r2) →
        columnLoop (n + 1) p1 p2 =
          some (columnsBytes (c :: mergedColumns m1 m2), 0 :: r1, 0 :: r2) := by
      intro p1 p2 b1 b2 c m1 m2 hb1 hb2 hne hround hrest
      rw [columnLoop, hb1, hb2]
      simp only [Option.bind_eq_bind, Option.bind_some, hne, if_false, hround, hrest]
      rfl
    cases l1 with
    | nil =>
      cases l2 with
      | nil =>
        rw [columnLoop]
        simp [columnsBytes, mergedColumns, mergeBy]
      | cons d l2 =>
        obtain ⟨-, b, hb, hb0⟩ := columnAt_columns h2 (0 :: r2)
        have hmerged : mergedColumns [] (d :: l2) = d :: mergedColumns [] l2 := by
          simp only [mergedColumns, mergeBy]
        rw [hmerged]
        exact hround rfl hb (fun h => hb0 h.2) (round_right h2 r2 (columnAt_end r1) (column_lt_end h2).1)
          (ih h1 h2.of_cons hs1 hs2.of_cons (by simpa using hn))
    | cons c l1 =>
      obtain ⟨hat1, b1, hb1, hb10⟩ := columnAt_columns h1 (0 :: r1)
      have hne : ∀ {b2 : ℕ}, ¬(b1 = 0 ∧ b2 = 0) := fun h => hb10 h.1
      cases l2 with
      | nil =>
        have hmerged : mergedColumns (c :: l1) [] = c :: mergedColumns l1 [] := by
          simp only [mergedColumns, mergeBy_nil_right]
        rw [hmerged]
        exact hround hb1 rfl hne (round_left h1 r1 (columnAt_end r2) (column_lt_end h1).1)
          (ih h1.of_cons h2 hs1.of_cons hs2 (by simpa using hn))
      | cons d l2 =>
        obtain ⟨hat2, b2, hb2, -⟩ := columnAt_columns h2 (0 :: r2)
        rw [mergedColumns, mergeBy]
        simp only [List.length_cons] at hn
        by_cases heq : columnCmp c d = 0
        · rw [if_pos heq]
          have hcd : c.1 = d.1 := by
            rw [columnCmp] at heq
            omega
          exact hround hb1 hb2 hne (round_both h1 h2 hs1 hs2 hcd r1 r2)
            (ih h1.of_cons h2.of_cons hs1.of_cons hs2.of_cons (by omega))
        · rw [if_neg heq]
          by_cases hlt : columnCmp c d < 0
          · rw [if_pos hlt]
            rw [columnCmp] at hlt
            exact hround hb1 hb2 hne (round_left h1 r1 hat2 (by omega))
              (ih h1.of_cons h2 hs1.of_cons hs2 (by simp only [List.length_cons]; omega))
          · rw [if_neg hlt]
            rw [columnCmp] at heq hlt
            exact hround hb1 hb2 hne (round_right h2 r2 hat1 (by omega))
              (ih h1 h2.of_cons hs1 hs2.of_cons (by simp only [List.length_cons]; omega))

theorem length_le_columnsBytes {l : Poslist} (h : IsPoslist l) : l.length ≤ (columnsBytes l).length := by
  induction l with
  | nil => exact Nat.zero_le _
  | cons c l ih =>
    have hc := List.mem_cons_self (a := c) (l := l)
    have hrest := ih h.of_cons
    have hpos := length_le_posBytes 0 c.2 (h.position_lt c hc)
    have hne := List.length_pos_iff.mpr (h.nonempty c hc)
    rw [columnsBytes, List.flatMap_cons, List.length_append, columnBytes, List.length_append,
      List.length_cons, ← columnsBytes]
    omega

/-- The merge of two position lists. -/
theorem poslistMerge {l1 l2 : Poslist} (h1 : IsPoslist l1) (h2 : IsPoslist l2) (hs1 : Small l1)
    (hs2 : Small l2) (r1 r2 : List ℕ) :
    fts3PoslistMerge (poslistBytes l1 ++ r1) (poslistBytes l2 ++ r2) =
      some (poslistBytes (mergedColumns l1 l2), r1, r2) := by
  have hlen1 := length_le_columnsBytes h1
  have hlen2 := length_le_columnsBytes h2
  have hloop := columnLoop_merged (n := (poslistBytes l1 ++ r1).length +
    (poslistBytes l2 ++ r2).length + 1) h1 h2 hs1 hs2 r1 r2 (by
      simp only [poslistBytes, List.length_append]
      omega)
  have hsplit : ∀ (l : Poslist) (r : List ℕ), poslistBytes l ++ r = columnsBytes l ++ 0 :: r := by
    intro l r
    rw [poslistBytes, POS_END, List.append_assoc, List.singleton_append]
  rw [fts3PoslistMerge]
  rw [hsplit l1, hsplit l2] at hloop ⊢
  rw [hloop]
  rfl

/-! The columns and positions that the merge writes. -/

theorem union_merges {l l' : List ℕ} (h : l.Pairwise (· < ·)) (h' : l'.Pairwise (· < ·)) :
    Merges (· < ·) id (fun a _ => a) l l' (union l l') :=
  mergeBy_merges (fun _ _ _ => Nat.lt_trans) (fun _ => Nat.lt_irrefl _) h h' fun a _ b _ _ =>
    ⟨fun h => by simp only [id]; omega, fun h => by simp only [id]; omega,
      fun h => by simp only [id]; omega⟩

theorem mem_union {l l' : List ℕ} (h : l.Pairwise (· < ·)) (h' : l'.Pairwise (· < ·)) :
    q ∈ union l l' ↔ q ∈ l ∨ q ∈ l' := by
  have := (union_merges h h').mem_keys (k := q) fun _ _ _ => rfl
  simpa using this

theorem pairwise_union {l l' : List ℕ} (h : l.Pairwise (· < ·)) (h' : l'.Pairwise (· < ·)) :
    (union l l').Pairwise (· < ·) :=
  (union_merges h h').ascends (fun _ _ _ => rfl) (fun _ _ _ => Nat.lt_trans) h h'

theorem pairwise_visible {l : List ℕ} (h : l.Pairwise (· < ·)) : (visible l).Pairwise (· < ·) :=
  h.sublist List.filter_sublist

/-- Two lists for one column of which some position is lost. -/
def Clash (l l' : List ℕ) : Prop := (LAST ∈ l ∨ LAST ∈ l') ∧ ¬(l = [LAST] ∧ l' = [LAST])

theorem joined_of_not_clash {l l' : List ℕ} (h : ¬Clash l l') : joined l l' = union l l' := by
  rw [joined]
  by_cases hlast : l = [LAST] ∧ l' = [LAST]
  · rw [if_pos hlast, hlast.1, hlast.2]
    decide +kernel
  · have hno : LAST ∉ l ∧ LAST ∉ l' := by
      by_contra hmem
      rw [← not_or, not_not] at hmem
      exact h ⟨hmem, hlast⟩
    have hvis : ∀ {l : List ℕ}, LAST ∉ l → visible l = l := by
      intro l hl
      refine List.filter_eq_self.mpr fun x hx => ?_
      simp only [ne_eq, decide_eq_true_eq]
      rintro rfl
      exact hl hx
    rw [if_neg hlast, hvis hno.1, hvis hno.2]

/-- The last position is lost, unless it is all that the lists have. -/
theorem last_not_mem_joined {l l' : List ℕ} (hl : l.Pairwise (· < ·)) (hl' : l'.Pairwise (· < ·))
    (h : ¬(l = [LAST] ∧ l' = [LAST])) : LAST ∉ joined l l' := by
  rw [joined, if_neg h, mem_union (pairwise_visible hl) (pairwise_visible hl')]
  simp [visible]

theorem mem_joined {l l' : List ℕ} (hl : l.Pairwise (· < ·)) (hl' : l'.Pairwise (· < ·))
    (h : q ∈ joined l l') : q ∈ l ∨ q ∈ l' := by
  rw [joined] at h
  split at h
  case isTrue hlast =>
    rw [hlast.1]
    exact .inl h
  case isFalse =>
    rw [mem_union (pairwise_visible hl) (pairwise_visible hl')] at h
    exact h.imp (fun h => (List.mem_filter.mp h).1) fun h => (List.mem_filter.mp h).1

theorem pairwise_joined {l l' : List ℕ} (hl : l.Pairwise (· < ·)) (hl' : l'.Pairwise (· < ·)) :
    (joined l l').Pairwise (· < ·) := by
  rw [joined]
  split
  · exact List.pairwise_singleton _ _
  · exact pairwise_union (pairwise_visible hl) (pairwise_visible hl')

theorem joined_ne_nil {l l' : List ℕ} (hl : l.Pairwise (· < ·)) (hl' : l'.Pairwise (· < ·))
    (hne : l ≠ []) (hne' : l' ≠ []) : joined l l' ≠ [] := by
  rw [joined]
  split
  case isTrue => exact List.cons_ne_nil _ _
  case isFalse h =>
    intro hnil
    refine h ⟨visible_eq_nil hl hne ?_, visible_eq_nil hl' hne' ?_⟩ <;>
      · rw [List.eq_nil_iff_forall_not_mem]
        intro x hx
        have := (mem_union (pairwise_visible hl) (pairwise_visible hl') (q := x)).mpr
        rw [hnil] at this
        exact absurd (this (by tauto)) List.not_mem_nil

theorem columns_merges {l l' : Poslist} (h : IsPoslist l) (h' : IsPoslist l') :
    Merges (· < ·) Prod.fst joinColumns l l' (mergedColumns l l') :=
  mergeBy_merges (fun _ _ _ => Nat.lt_trans) (fun _ => Nat.lt_irrefl _) h.columns h'.columns
    fun a _ b _ _ => by
      refine ⟨fun h => ?_, fun h => ?_, fun h => ?_⟩ <;> rw [columnCmp] at h <;> omega

/-- What a column of the merge is. -/
theorem mem_mergedColumns {l l' : Poslist} (h : IsPoslist l) (h' : IsPoslist l') {c : ℕ × List ℕ} :
    c ∈ mergedColumns l l' ↔ (c ∈ l ∧ c.1 ∉ l'.map (·.1)) ∨ (c ∈ l' ∧ c.1 ∉ l.map (·.1)) ∨
      ∃ a ∈ l, ∃ b ∈ l', a.1 = b.1 ∧ c = joinColumns a b :=
  Merges.mem_iff (fun x y z => @Nat.lt_trans x y z) Nat.lt_irrefl (columns_merges h h') h.columns
    h'.columns

theorem joinColumns_fst (a b : ℕ × List ℕ) (_ : a.1 = b.1) : (joinColumns a b).1 = a.1 := rfl

theorem isPoslist_merged {l l' : Poslist} (h : IsPoslist l) (h' : IsPoslist l') :
    IsPoslist (mergedColumns l l') where
  columns := Merges.ascends joinColumns_fst (fun _ _ _ => Nat.lt_trans) (columns_merges h h') h.columns
    h'.columns
  positions c hc := by
    rcases (mem_mergedColumns h h').mp hc with ⟨hc, -⟩ | ⟨hc, -⟩ | ⟨a, ha, b, hb, -, rfl⟩
    · exact h.positions c hc
    · exact h'.positions c hc
    · exact pairwise_joined (h.positions a ha) (h'.positions b hb)
  nonempty c hc := by
    rcases (mem_mergedColumns h h').mp hc with ⟨hc, -⟩ | ⟨hc, -⟩ | ⟨a, ha, b, hb, -, rfl⟩
    · exact h.nonempty c hc
    · exact h'.nonempty c hc
    · exact joined_ne_nil (h.positions a ha) (h'.positions b hb) (h.nonempty a ha) (h'.nonempty b hb)
  column_lt c hc := by
    rcases (mem_mergedColumns h h').mp hc with ⟨hc, -⟩ | ⟨hc, -⟩ | ⟨a, ha, b, hb, -, rfl⟩
    · exact h.column_lt c hc
    · exact h'.column_lt c hc
    · exact h.column_lt a ha
  position_lt c hc q hq := by
    rcases (mem_mergedColumns h h').mp hc with ⟨hc, -⟩ | ⟨hc, -⟩ | ⟨a, ha, b, hb, -, rfl⟩
    · exact h.position_lt c hc q hq
    · exact h'.position_lt c hc q hq
    · rcases mem_joined (h.positions a ha) (h'.positions b hb) hq with hq | hq
      · exact h.position_lt a ha q hq
      · exact h'.position_lt b hb q hq

/-! The bytes that the merge takes: a position is stored as its distance from one that is not further away
than the one before it in its own list. -/

theorem length_posBytes_mono {p : ℕ} (hp : p ≤ prev) (hl : ∀ x ∈ l, prev ≤ x)
    (hlt : ∀ x ∈ l, x < 2 ^ 31) : (posBytes prev l).length ≤ (posBytes p l).length := by
  cases l with
  | nil => exact le_rfl
  | cons q l =>
    have h1 := hl q List.mem_cons_self
    have h2 := hlt q List.mem_cons_self
    have := length_putVarint_mono (v := q - prev + 2) (w := q - p + 2) (by omega) (by omega)
    simp only [posBytes, List.length_append]
    omega

theorem length_posBytes_merge {l l' m : List ℕ} (h : Merges (· < ·) id (fun a _ => a) l l' m) {p p' : ℕ}
    (hp : p ≤ prev) (hp' : p' ≤ prev) (hl : Ascends (· < ·) id l) (hl' : Ascends (· < ·) id l')
    (hle : ∀ x ∈ l, prev ≤ x) (hle' : ∀ x ∈ l', prev ≤ x) (hlt : ∀ x ∈ l, x < 2 ^ 31)
    (hlt' : ∀ x ∈ l', x < 2 ^ 31) :
    (posBytes prev m).length ≤ (posBytes p l).length + (posBytes p' l').length := by
  induction h generalizing prev p p' with
  | nil_left l =>
    have := length_posBytes_mono hp' hle' hlt'
    omega
  | nil_right l =>
    have := length_posBytes_mono hp hle hlt
    omega
  | @both a b l l' m h hm ih =>
    obtain rfl : a = b := h
    have h1 := hle a List.mem_cons_self
    have h2 := hlt a List.mem_cons_self
    have hput := length_putVarint_mono (v := a - prev + 2) (w := a - p + 2) (by omega) (by omega)
    have hrest := ih (le_refl a) (le_refl a) hl.tail hl'.tail (fun x hx => (hl.head x hx).le)
      (fun x hx => (hl'.head x hx).le) (fun x hx => hlt x (List.mem_cons_of_mem a hx))
      fun x hx => hlt' x (List.mem_cons_of_mem a hx)
    simp only [posBytes, List.length_append]
    omega
  | @left a b l l' m h hm ih =>
    have hab : a < b := h
    have h1 := hle a List.mem_cons_self
    have h2 := hlt a List.mem_cons_self
    have hput := length_putVarint_mono (v := a - prev + 2) (w := a - p + 2) (by omega) (by omega)
    have hrest := ih (le_refl a) (hp'.trans h1) hl.tail hl' (fun x hx => (hl.head x hx).le)
      (fun x hx => (List.mem_cons.mp hx).elim (fun h => h ▸ hab.le)
        fun hx => (hab.trans (hl'.head x hx)).le)
      (fun x hx => hlt x (List.mem_cons_of_mem a hx)) hlt'
    simp only [posBytes, List.length_append] at hrest ⊢
    omega
  | @right a b l l' m h hm ih =>
    have hba : b < a := h
    have h1 := hle' b List.mem_cons_self
    have h2 := hlt' b List.mem_cons_self
    have hput := length_putVarint_mono (v := b - prev + 2) (w := b - p' + 2) (by omega) (by omega)
    have hrest := ih (hp.trans h1) (le_refl b) hl hl'.tail
      (fun x hx => (List.mem_cons.mp hx).elim (fun h => h ▸ hba.le)
        fun hx => (hba.trans (hl.head x hx)).le)
      (fun x hx => (hl'.head x hx).le) hlt fun x hx => hlt' x (List.mem_cons_of_mem b hx)
    simp only [posBytes, List.length_append] at hrest ⊢
    omega

/-- No position is lost. -/
def NoClash (l l' : Poslist) : Prop := ∀ a ∈ l, ∀ b ∈ l', a.1 = b.1 → ¬Clash a.2 b.2

theorem length_columnsBytes_merged {l l' : Poslist} (h : IsPoslist l) (h' : IsPoslist l')
    (hno : NoClash l l') : (columnsBytes (mergedColumns l l')).length ≤
      (columnsBytes l).length + (columnsBytes l').length := by
  have hm := columns_merges h h'
  generalize mergedColumns l l' = m at hm
  induction hm with
  | nil_left l => omega
  | nil_right l => omega
  | @both a b l l' m hab hm ih =>
    have ha := List.mem_cons_self (a := a) (l := l)
    have hb := List.mem_cons_self (a := b) (l := l')
    have hrest := ih h.of_cons h'.of_cons fun x hx y hy =>
      hno x (List.mem_cons_of_mem a hx) y (List.mem_cons_of_mem b hy)
    have hpos := length_posBytes_merge
      (union_merges (h.positions a ha) (h'.positions b hb)) (le_refl 0) (le_refl 0) (h.positions a ha)
      (h'.positions b hb) (fun x _ => Nat.zero_le x) (fun x _ => Nat.zero_le x) (h.position_lt a ha)
      (h'.position_lt b hb)
    have hjoin : joinColumns a b = (a.1, union a.2 b.2) := by
      rw [joinColumns, joined_of_not_clash (hno a ha b hb hab)]
    simp only [columnsBytes, List.flatMap_cons, List.length_append, columnBytes, hjoin] at hrest ⊢
    omega
  | @left a b l l' m hab hm ih =>
    have hrest := ih h.of_cons h' fun x hx => hno x (List.mem_cons_of_mem a hx)
    simp only [columnsBytes, List.flatMap_cons, List.length_append] at hrest ⊢
    omega
  | @right a b l l' m hab hm ih =>
    have hrest := ih h h'.of_cons fun x hx y hy => hno x hx y (List.mem_cons_of_mem b hy)
    simp only [columnsBytes, List.flatMap_cons, List.length_append] at hrest ⊢
    omega

/-! Bytes are of one position list only. -/

theorem posBytes_inj {l l' t t' : List ℕ} (hl : ∀ x ∈ l, x < 2 ^ 31) (hl' : ∀ x ∈ l', x < 2 ^ 31)
    (hp : l.Pairwise (· < ·)) (hp' : l'.Pairwise (· < ·)) (hle : ∀ x ∈ l, prev ≤ x)
    (hle' : ∀ x ∈ l', prev ≤ x) (ht : Ends t) (ht' : Ends t')
    (h : posBytes prev l ++ t = posBytes prev l' ++ t') : l = l' ∧ t = t' := by
  have hends : ∀ {prev q : ℕ} {l r t : List ℕ}, q < 2 ^ 31 → Ends t →
      posBytes prev (q :: l) ++ r ≠ t := by
    intro prev q l r t hq ht heq
    obtain ⟨b, s, rfl, hb⟩ := ht
    obtain ⟨b', s', hb', hhead⟩ := putVarint_head (v := q - prev + 2) (by omega)
    rw [posBytes, hb'] at heq
    have := (List.cons.inj heq).1
    omega
  induction l generalizing l' prev with
  | nil =>
    cases l' with
    | nil => exact ⟨rfl, h⟩
    | cons q l' => exact absurd h.symm (hends (hl' q List.mem_cons_self) ht)
  | cons q l ih =>
    cases l' with
    | nil => exact absurd h (hends (hl q List.mem_cons_self) ht')
    | cons q' l' =>
      have h1 := hl q List.mem_cons_self
      have h2 := hl' q' List.mem_cons_self
      have h3 := hle q List.mem_cons_self
      have h4 := hle' q' List.mem_cons_self
      rw [posBytes, posBytes, List.append_assoc, List.append_assoc] at h
      obtain ⟨heq, hrest⟩ := putVarint_inj (by omega) (by omega) h
      obtain rfl : q = q' := by omega
      obtain ⟨rfl, ht⟩ := ih (fun x hx => hl x (List.mem_cons_of_mem q hx))
        (fun x hx => hl' x (List.mem_cons_of_mem q hx)) (List.pairwise_cons.mp hp).2
        (List.pairwise_cons.mp hp').2 (fun x hx => ((List.pairwise_cons.mp hp).1 x hx).le)
        (fun x hx => ((List.pairwise_cons.mp hp').1 x hx).le) hrest
      exact ⟨rfl, ht⟩

theorem columnsBytes_inj {l l' : Poslist} (h : IsPoslist l) (h' : IsPoslist l') {r r' : List ℕ}
    (heq : columnsBytes l ++ 0 :: r = columnsBytes l' ++ 0 :: r') : l = l' ∧ r = r' := by
  induction l generalizing l' with
  | nil =>
    cases l' with
    | nil => exact ⟨rfl, (List.cons.inj heq).2⟩
    | cons c l' =>
      obtain ⟨-, b, hb, hb0⟩ := columnAt_columns h' (0 :: r')
      rw [← heq] at hb
      exact absurd (Option.some.inj hb).symm hb0
  | cons c l ih =>
    cases l' with
    | nil =>
      obtain ⟨-, b, hb, hb0⟩ := columnAt_columns h (0 :: r)
      rw [heq] at hb
      exact absurd (Option.some.inj hb).symm hb0
    | cons c' l' =>
      have hc := List.mem_cons_self (a := c) (l := l)
      have hc' := List.mem_cons_self (a := c') (l := l')
      have hcol : c.1 = c'.1 := by
        have h1 := (columnAt_columns h (0 :: r)).1
        rw [heq, (columnAt_columns h' (0 :: r')).1] at h1
        exact (Int.ofNat_inj.mp (Option.some.inj h1)).symm
      rw [columnsBytes_cons, columnsBytes_cons, hcol] at heq
      obtain ⟨hpos, hrest⟩ := posBytes_inj (h.position_lt c hc) (h'.position_lt c' hc')
        (h.positions c hc) (h'.positions c' hc') (fun x _ => Nat.zero_le x) (fun x _ => Nat.zero_le x)
        (ends_columns h.tail_ne_zero r) (ends_columns h'.tail_ne_zero r')
        (List.append_cancel_left heq)
      obtain ⟨rfl, hr⟩ := ih h.of_cons h'.of_cons hrest
      exact ⟨by rw [Prod.ext hcol hpos], hr⟩

end Sqlite.Doclist
