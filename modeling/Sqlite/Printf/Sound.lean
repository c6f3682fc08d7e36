import Mathlib.Data.Nat.Digits.Lemmas
import Sqlite.Printf.Model

/-! What the conversions need: the widths and precisions at which no `int` overflows and nothing is accessed outside
of a block. -/
namespace Sqlite.Printf

open Foundation (Pointer slice slice_isSome)
open Numeric (ch)

variable {α β : Type} {grants : ℤ → Bool} {s : Spec} {args rest : List Arg} {z : List UInt8} {x : ℤ}

/-- Nothing overflows, and nothing is accessed outside of a block. -/
def Safe (x : Except Stop α) : Prop := x ≠ .error .overflow ∧ x ≠ .error .outside

theorem int_ok (h : -2 ^ 31 ≤ x ∧ x < 2 ^ 31) : int x = .ok x := if_pos h

theorem int_error (h : ¬(-2 ^ 31 ≤ x ∧ x < 2 ^ 31)) : int x = .error .overflow := if_neg h

@[simp] theorem ok_bind (a : α) (f : α → Except Stop β) : (Except.ok a >>= f) = f a := rfl

@[simp] theorem error_bind (e : Stop) (f : α → Except Stop β) : (Except.error e >>= f) = .error e := rfl

@[simp] theorem inside_some (a : α) : inside (some a) = .ok a := rfl

@[simp] theorem inside_none : inside (none : Option α) = .error .outside := rfl

@[simp] theorem safe_ok (a : α) : Safe (.ok a : Except Stop α) := ⟨nofun, nofun⟩

@[simp] theorem safe_returned : Safe (.error .returned : Except Stop α) := ⟨nofun, nofun⟩

@[simp] theorem not_safe_overflow : ¬Safe (.error .overflow : Except Stop α) := fun h => h.1 rfl

@[simp] theorem not_safe_outside : ¬Safe (.error .outside : Except Stop α) := fun h => h.2 rfl

theorem unsafe_int {f : ℤ → Except Stop α} (h : -2 ^ 31 ≤ x ∧ x < 2 ^ 31 → ¬Safe (f x)) :
    ¬Safe (int x >>= f) := by
  by_cases hx : -2 ^ 31 ≤ x ∧ x < 2 ^ 31
  · rw [int_ok hx]
    exact h hx
  · rw [int_error hx]
    exact not_safe_overflow

/-! Blocks. -/

/-- The heap has a block of `n` bytes. -/
def Granted (grants : ℤ → Bool) (n : ℤ) : Prop := 0 < n ∧ n < 0x7fffff00 ∧ grants n = true

instance : Decidable (Granted grants x) := inferInstanceAs (Decidable (_ ∧ _))

theorem sqlite3Malloc_eq : sqlite3Malloc grants x =
    if Granted grants x then .ok (newBlock x.toNat) else .error .returned := by
  unfold sqlite3Malloc
  split_ifs with h hg hg
  · obtain ⟨h0, hn, ht⟩ := hg
    rw [ht] at h
    simp only [Bool.true_eq_false, or_false] at h
    omega
  · rfl
  · rfl
  · refine absurd ⟨?_, ?_, ?_⟩ hg
    · omega
    · omega
    · simpa using fun hf => h (.inr (.inr hf))

@[simp] theorem length_newBlock (n : ℕ) : (newBlock n).length = n := List.length_replicate

/-- A text that lies within its block. -/
structure Item.Inside (item : Item) : Prop where
  bufpt : 0 ≤ item.bufpt
  length : 0 ≤ item.length
  le : item.bufpt + item.length ≤ item.block.length
  fits : item.length < 2 ^ 31
  width : 0 ≤ item.width ∧ item.width < 2 ^ 31

theorem append_ok {i N : ℤ} (h0 : 0 ≤ i) (hN : 0 ≤ N) (h : i + N ≤ z.length) : ∃ w, append z i N = .ok w := by
  obtain ⟨w, hw⟩ := slice_isSome h0 hN h
  exact ⟨w, by rw [append, if_neg (by omega), hw, inside_some]⟩

theorem sqlite3AppendSpace_ok (N : ℤ) : ∃ w, sqlite3AppendSpace N = .ok w := by
  unfold sqlite3AppendSpace
  split_ifs with h
  · have hl : ((zSpaces ++ [0]).length : ℤ) = 30 := rfl
    obtain ⟨u, hu⟩ := append_ok (z := zSpaces ++ [0]) (i := 0) (N := 29) le_rfl (by omega) (by omega)
    obtain ⟨v, hv⟩ := append_ok (z := zSpaces ++ [0]) (i := 0) (N := N % 29) le_rfl (by omega) (by omega)
    rw [hu, hv]
    exact ⟨_, rfl⟩
  · exact ⟨_, rfl⟩

theorem output_ok (flags : Flags) {item : Item} (h : item.Inside) : ∃ w, output flags item = .ok w := by
  have := h.length
  have := h.fits
  have := h.width
  obtain ⟨spaces, hs⟩ := sqlite3AppendSpace_ok (item.width - item.length)
  obtain ⟨text, ht⟩ := append_ok h.bufpt h.length h.le
  unfold output
  rw [int_ok (by omega), ok_bind, hs, ht]
  split_ifs <;> exact ⟨_, rfl⟩

/-- An error unless `P`; else a return unless there is the block that is needed; else a result as `Q` says. -/
structure Does (P : Prop) (served : Prop) (Q : α → Prop) (x : Except Stop α) : Prop where
  error : ¬P → ¬Safe x
  returned : P → ¬served → x = .error .returned
  ok : P → served → ∃ a, x = .ok a ∧ Q a

/-- The heap has the block that is needed, if any is. -/
def Served (grants : ℤ → Bool) (need : Option ℤ) : Prop := ∀ n, need = some n → Granted grants n

theorem allocate_overflow {big : Bool} (h : big = true) (hx : ¬(-2 ^ 31 ≤ x ∧ x < 2 ^ 31)) :
    allocate grants big x = .error .overflow := by
  rw [allocate, if_pos h, int_error hx]
  rfl

theorem allocate_served {big : Bool} (hx : -2 ^ 31 ≤ x ∧ x < 2 ^ 31)
    (h : Served grants (if big then some x else none)) :
    ∃ z, allocate grants big x = .ok z ∧ (z.length : ℤ) = (if big then some x else none).getD etBUFSIZE ∧
      z.length < 2 ^ 31 := by
  cases big with
  | false => exact ⟨buf, rfl, rfl, by decide⟩
  | true =>
    have hg : Granted grants x := h x rfl
    have := hg.1
    refine ⟨newBlock x.toNat, ?_, ?_, ?_⟩
    · rw [allocate, if_pos rfl, int_ok hx, ok_bind, sqlite3Malloc_eq, if_pos hg]
    · rw [length_newBlock, if_pos rfl, Option.getD_some]
      omega
    · rw [length_newBlock]
      omega

theorem allocate_not_served {big : Bool} (hx : -2 ^ 31 ≤ x ∧ x < 2 ^ 31)
    (h : ¬Served grants (if big then some x else none)) : allocate grants big x = .error .returned := by
  cases big with
  | false => exact absurd nofun h
  | true =>
    have hg : ¬Granted grants x := fun hg => h fun n hn => Option.some.inj hn ▸ hg
    rw [allocate, if_pos rfl, int_ok hx, ok_bind, sqlite3Malloc_eq, if_neg hg]

/-! Integers. -/

/-- The precision of an integer with a sign of `k` characters, where zeros fill the width. -/
def radixPrecision (s : Spec) (k : ℕ) : ℤ :=
  if s.flags.zeropad ∧ s.precision < s.width - k then s.width - k else s.precision

/-- The width and the precision are integers. -/
structure Spec.Wide (s : Spec) : Prop where
  width : 0 ≤ s.width ∧ s.width < 2 ^ 31
  precision : -1 ≤ s.precision ∧ s.precision < 2 ^ 31
  info : s.info ∈ fmtinfo

theorem asInteger_bounds {long : Bool} {v : ℤ} {u : ℕ}
    (h : va (Arg.asInteger long) args = .ok ((v, u), rest)) :
    v.natAbs < 2 ^ 64 ∧ u < 2 ^ 64 := by
  cases args with
  | nil => cases h
  | cons a args =>
    cases a with
    | int w =>
      have := w.isLt
      have := w.toInt_lt
      have := w.le_toInt
      cases long <;> cases h
      omega
    | int64 w =>
      have := w.isLt
      have := w.toInt_lt
      have := w.le_toInt
      cases long <;> cases h
      omega
    | _ => cases h

theorem length_radixDigits_le {cset : List UInt8} {base n : ℕ} (hb : 8 ≤ base) (hn : n < 2 ^ 64) :
    (radixDigits cset base n).length ≤ 22 := by
  unfold radixDigits
  split_ifs
  · exact Nat.one_le_ofNat
  · rw [List.length_map, Nat.digits_length_le_iff (by omega)]
    calc n < 8 ^ 22 := hn.trans (by norm_num)
      _ ≤ base ^ 22 := Nat.pow_le_pow_left hb 22

/-- The prefix of an integer. -/
def prefixOf (s : Spec) (v : ℤ) : List UInt8 :=
  if s.info.flags &&& FLAG_SIGNED ≠ 0 then signPrefix s.flags (v < 0) else []

theorem length_signPrefix_le (flags : Flags) (negative : Bool) : (signPrefix flags negative).length ≤ 1 := by
  unfold signPrefix
  split_ifs <;> simp

theorem length_prefixOf_le (s : Spec) (v : ℤ) : (prefixOf s v).length ≤ 1 := by
  unfold prefixOf
  split_ifs
  · exact length_signPrefix_le _ _
  · exact Nat.zero_le _

/-- The integer that is converted. -/
def integerArg (s : Spec) : List Arg → Except Stop ((ℤ × ℕ) × List Arg) :=
  va (Arg.asInteger (s.long || s.info.type = .etPOINTER))

theorem length_ordinalSuffix (n : ℕ) : (ordinalSuffix n).length = 2 := rfl

/-- The characters of an integer fit into a block with room for ten more than the precision, and for 70. -/
theorem radix_writes {zOut ord digits pre alt : List UInt8} {P : ℤ} (hz : (70 : ℤ) ≤ zOut.length)
    (hP : P + 10 ≤ zOut.length) (ho : ord.length ≤ 2) (hd : digits.length ≤ 22) (hpre : pre.length ≤ 1)
    (halt : alt.length ≤ 2) : ∃ p : Pointer UInt8, (∀ f : Pointer UInt8 → Except Stop β, (do
      let bufpt ← inside (Pointer.pushBack ⟨zOut, zOut.length - 1⟩ ord)
      let bufpt ← inside (bufpt.pushBack digits)
      let bufpt ← inside (bufpt.pushBack (List.replicate (P - (zOut.length - 1 - bufpt.pos)).toNat (ch '0')))
      let bufpt ← inside (bufpt.pushBack pre)
      let bufpt ← inside (bufpt.pushBack alt)
      f bufpt) = f p) ∧ 0 ≤ p.pos ∧ p.pos < zOut.length ∧ p.block.length = zOut.length := by
  obtain ⟨n, hn⟩ : ∃ n, zOut.length = n + 1 := ⟨zOut.length - 1, by omega⟩
  have hpos : (zOut.length : ℤ) - 1 = n := by omega
  obtain ⟨z1, h1, l1⟩ := Pointer.pushBack_some (z := zOut) (w := ord) (n := n) (by omega) (by omega)
  obtain ⟨z2, h2,
    l2⟩ := Pointer.pushBack_some (z := z1) (w := digits) (n := n - ord.length) (by omega) (by omega)
  obtain ⟨z3, h3, l3⟩ := Pointer.pushBack_some (z := z2) (n := n - ord.length - digits.length)
    (w := List.replicate (P - (n - ((n - ord.length - digits.length : ℕ) : ℤ))).toNat (ch '0'))
    (by rw [List.length_replicate]; omega) (by omega)
  rw [List.length_replicate] at h3
  generalize hk : (P - (n - ((n - ord.length - digits.length : ℕ) : ℤ))).toNat = k at *
  obtain ⟨z4, h4, l4⟩ := Pointer.pushBack_some (z := z3) (w := pre) (n := n - ord.length - digits.length - k)
    (by omega) (by omega)
  obtain ⟨z5, h5, l5⟩ := Pointer.pushBack_some (z := z4) (w := alt)
    (n := n - ord.length - digits.length - k - pre.length) (by omega) (by omega)
  refine ⟨⟨z5, (n - ord.length - digits.length - k - pre.length - alt.length : ℕ)⟩, ?_, ?_, ?_, ?_⟩
  · intro f
    simp only [hpos, h1, h2, hk, h3, h4, h5, inside_some, ok_bind]
  · exact Int.natCast_nonneg _
  · dsimp only
    omega
  · dsimp only
    omega

/-- The block of an integer, if `buf` is too small. -/
def radixNeed (s : Spec) (v : ℤ) : Option ℤ :=
  let precision := radixPrecision s (prefixOf s v).length
  if precision ≥ etBUFSIZE - 10 then some (precision + 10) else none

theorem length_alternatePrefix_le {info : Info} (h : info ∈ fmtinfo) (hpre : info.pre ≠ 0) :
    ((aPrefix.drop info.pre).takeWhile (· ≠ 0)).length ≤ 2 := by
  have hall : ∀ i ∈ fmtinfo, i.pre ≠ 0 → ((aPrefix.drop i.pre).takeWhile (· ≠ 0)).length ≤ 2 := by decide
  exact hall info h hpre

theorem radixCase_does {v : ℤ} {u : ℕ} (hs : s.Wide) (hb : 8 ≤ s.info.base)
    (h : integerArg s args = .ok ((v, u), rest)) :
    Does (radixPrecision s (prefixOf s v).length + 10 < 2 ^ 31) (Served grants (radixNeed s v))
      (fun r => r.1.Inside ∧ r.1.width = s.width ∧ r.2 = rest) (radixCase grants s args) := by
  have hk := length_prefixOf_le s v
  have hu := asInteger_bounds h
  have hw := hs.width
  have hp := hs.precision
  have hlong : (if s.info.flags &&& FLAG_SIGNED ≠ 0 then v.natAbs else u) < 2 ^ 64 := by split_ifs <;> omega
  have hd := @length_radixDigits_le (aDigits.drop s.info.charset) _ _ hb hlong
  have ho : (if s.info.type = .etORDINAL then
      ordinalSuffix (if s.info.flags &&& FLAG_SIGNED ≠ 0 then v.natAbs else u) else []).length ≤ 2 := by
    split_ifs <;> simp [length_ordinalSuffix]
  have hroom : s.width - ((prefixOf s v).length : ℤ) < 2 ^ 31 := by omega
  have hP : (if s.flags.zeropad = true ∧ s.precision < s.width - (prefixOf s v).length then
      s.width - ((prefixOf s v).length : ℤ) else s.precision) = radixPrecision s (prefixOf s v).length := rfl
  unfold radixCase
  rw [show va (Arg.asInteger (s.long || decide (s.info.type = .etPOINTER))) args = .ok ((v, u), rest) from h, ok_bind]
  dsimp only
  rw [show (if s.info.flags &&& FLAG_SIGNED ≠ 0 then signPrefix s.flags (decide (v < 0)) else []) = prefixOf s v
    from rfl, int_ok (by omega), ok_bind, hP]
  have hPb : -1 ≤ radixPrecision s (prefixOf s v).length := by unfold radixPrecision; split_ifs <;> omega
  generalize (if s.info.flags &&& FLAG_SIGNED ≠ 0 then v.natAbs else u) = longvalue at *
  have ha : (if (s.flags.alternateform && decide (longvalue ≠ 0)) = true ∧ s.info.pre ≠ 0 then
      (aPrefix.drop s.info.pre).takeWhile (· ≠ 0) else []).length ≤ 2 := by
    split_ifs with halt
    · exact length_alternatePrefix_le hs.info halt.2
    · exact Nat.zero_le _
  unfold radixNeed
  generalize radixPrecision s (prefixOf s v).length = P at *
  generalize (if (s.flags.alternateform && decide (longvalue ≠ 0)) = true ∧ s.info.pre ≠ 0 then
      (aPrefix.drop s.info.pre).takeWhile (· ≠ 0) else []) = alt at *
  generalize (if s.info.type = .etORDINAL then ordinalSuffix longvalue else []) = ord at *
  generalize radixDigits (aDigits.drop s.info.charset) s.info.base longvalue = digits at *
  have hwrites {zOut : List UInt8} (hz : (70 : ℤ) ≤ zOut.length) (hP : P + 10 ≤ zOut.length)
      (h31 : zOut.length < 2 ^ 31) :
      ∃ r : Item × List Arg, (do
        let bufpt ← inside (Pointer.pushBack ⟨zOut, zOut.length - 1⟩ ord)
        let bufpt ← inside (bufpt.pushBack digits)
        let bufpt ← inside (bufpt.pushBack (List.replicate (P - (zOut.length - 1 - bufpt.pos)).toNat (ch '0')))
        let bufpt ← inside (bufpt.pushBack (prefixOf s v))
        let bufpt ← inside (bufpt.pushBack alt)
        Except.ok ((⟨bufpt.block, bufpt.pos, zOut.length - 1 - bufpt.pos, s.width⟩ : Item), rest)) = .ok r ∧
        r.1.Inside ∧ r.1.width = s.width ∧ r.2 = rest := by
    obtain ⟨p, hp, h0, hlt, hl⟩ := radix_writes (β := Item × List Arg) hz hP ho hd hk ha
    exact ⟨_, hp _, ⟨h0, by dsimp only; omega, by dsimp only; omega, by dsimp only; omega, hw⟩, rfl, rfl⟩
  refine ⟨fun h => ?_, fun h hserved => ?_, fun h hserved => ?_⟩
  · rw [allocate_overflow (by unfold etBUFSIZE; simp; omega) (by omega)]
    simp
  · rw [allocate_not_served (by omega) (by simpa using hserved)]
    rfl
  · obtain ⟨zOut, hz, hl, h31⟩ := @allocate_served grants (P + 10) (decide (P ≥ etBUFSIZE - 10))
      (by omega) (by simpa using hserved)
    rw [hz]
    unfold etBUFSIZE at hl
    simp only [decide_eq_true_eq] at hl
    split_ifs at hl
    · rw [Option.getD_some] at hl
      exact hwrites (by omega) (by omega) h31
    · rw [Option.getD_none] at hl
      exact hwrites (by omega) (by omega) h31

/-! Reals. -/

theorem read_eq {k : ℕ} (h : k < z.length) : read z k = .ok z[k] := by simp [read, h]

theorem read_append (u : List UInt8) (c : UInt8) (r : List UInt8) : read (u ++ c :: r) u.length = .ok c := by
  simp [read]

/-- Zeros at the end are removed up to a character that is none. -/
theorem stripLoop_eq {u r : List UInt8} {c : UInt8} (hc : c ≠ ch '0') (j m : ℕ) :
    stripLoop (j + 1 + m) ⟨u ++ c :: (List.replicate j (ch '0') ++ r), (u.length + 1 + j : ℕ)⟩ =
      .ok ⟨u ++ c :: (List.replicate j 0 ++ r), (u.length + 1 : ℕ)⟩ := by
  induction j generalizing r with
  | zero =>
    have hread : read (u ++ c :: r) (((u.length + 1 : ℕ) : ℤ) - 1) = .ok c := by
      rw [← read_append u c r]
      congr 1
      omega
    rw [Nat.add_right_comm, Nat.zero_add, stripLoop]
    simp only [List.replicate_zero, List.nil_append, Nat.add_zero, hread, ok_bind, hc, if_false]
    rfl
  | succ j ih =>
    have hsplit (a : UInt8) : List.replicate (j + 1) a ++ r = List.replicate j a ++ a :: r := by
      rw [List.replicate_succ', List.append_assoc, List.singleton_append]
    have hz : u ++ c :: (List.replicate j (ch '0') ++ ch '0' :: r) =
        (u ++ c :: List.replicate j (ch '0')) ++ ch '0' :: r := by simp
    have hl : (u ++ c :: List.replicate j (ch '0')).length = u.length + 1 + j := by simp; omega
    have hread : read (u ++ c :: (List.replicate j (ch '0') ++ ch '0' :: r))
        (((u.length + 1 + (j + 1) : ℕ) : ℤ) - 1) = .ok (ch '0') := by
      rw [hz, ← read_append _ _ r, hl]
      congr 1
      omega
    have hback : Pointer.back ⟨u ++ c :: (List.replicate j (ch '0') ++ ch '0' :: r),
      (u.length + 1 + (j + 1) : ℕ)⟩ 0 =
        some ⟨u ++ c :: (List.replicate j (ch '0') ++ 0 :: r), (u.length + 1 + j : ℕ)⟩ := by
      rw [Pointer.back_eq (by omega) (by simp; omega), hz,
        show u.length + 1 + (j + 1) - 1 = u.length + 1 + j by omega, ← hl,
        List.set_append_right _ _ le_rfl]
      simp
    rw [hsplit, hsplit, show j + 1 + 1 + m = j + 1 + m + 1 by omega, stripLoop]
    simp only [hread, ok_bind, if_true, hback, inside_some]
    exact ih

/-- A text ends with zeros behind a part that does not. -/
theorem exists_zeros (D : List UInt8) : ∃ D' j, D = D' ++ List.replicate j (ch '0') ∧
    (D' = [] ∨ ∃ E c, D' = E ++ [c] ∧ c ≠ ch '0') := by
  induction D using List.reverseRecOn with
  | nil => exact ⟨[], 0, rfl, .inl rfl⟩
  | append_singleton D c ih =>
    by_cases hc : c = ch '0'
    · obtain ⟨D', j, hD, h⟩ := ih
      exact ⟨D', j + 1, by rw [hD, hc, List.replicate_succ', List.append_assoc], h⟩
    · exact ⟨D ++ [c], 0, by simp, .inr ⟨D, c, rfl, hc⟩⟩

/-- What is left without the zeros at the end. -/
theorem removeZeros_ok {u D r : List UInt8} (altform2 : Bool) (hD : ∀ c ∈ D, c ≠ ch '.')
    (hr : u.length + 1 < (u ++ ch '.' :: D ++ r).length) :
    ∃ p : Pointer UInt8, removeZeros altform2 ⟨u ++ ch '.' :: D ++ r, (u ++ ch '.' :: D).length⟩ = .ok p ∧
      p.block.length = (u ++ ch '.' :: D ++ r).length ∧ u.length ≤ p.pos ∧
      (p.pos ≤ u.length + 2 ∨ p.pos ≤ (u ++ ch '.' :: D).length) ∧
      (D.getLast? = some (ch '0') → p.pos ≤ u.length + 2 ∨ p.pos < (u ++ ch '.' :: D).length) ∧
      (D ≠ [] → D.getLast? ≠ some (ch '0') → p.pos = (u ++ ch '.' :: D).length) := by
  obtain ⟨D', j, rfl, hD' | ⟨E, c, hD', hc⟩⟩ := exists_zeros D
  · subst hD'
    have hstrip := stripLoop_eq (u := u) (r := r) (c := ch '.') (by decide) j (u.length + 1)
    have hz : u ++ ch '.' :: ([] ++ List.replicate j (ch '0')) ++ r =
        u ++ ch '.' :: (List.replicate j (ch '0') ++ r) := by simp
    have hl : (u ++ ch '.' :: ([] ++ List.replicate j (ch '0'))).length = u.length + 1 + j := by simp; omega
    have hread : read (u ++ ch '.' :: (List.replicate j 0 ++ r)) (((u.length + 1 : ℕ) : ℤ) - 1) = .ok (ch '.') := by
      rw [← read_append u (ch '.') (List.replicate j 0 ++ r)]
      congr 1
      omega
    have hlen : (u ++ ch '.' :: (List.replicate j 0 ++ r)).length =
        (u ++ ch '.' :: ([] ++ List.replicate j (ch '0')) ++ r).length := by simp
    unfold removeZeros
    rw [hl, hz, show (((u.length + 1 + j : ℕ) : ℤ).toNat + 1) = j + 1 + (u.length + 1) by omega]
    simp only [hstrip, ok_bind, hread, if_true]
    have hzero : [] ++ List.replicate j (ch '0') ≠ [] →
        ([] ++ List.replicate j (ch '0')).getLast? = some (ch '0') := by
      cases j with
      | zero => simp
      | succ j => intro; rw [List.nil_append, List.replicate_succ', List.getLast?_concat]
    cases altform2 with
    | true =>
      rw [if_pos rfl, Pointer.forth_eq (by rw [hlen]; omega)]
      refine ⟨_, rfl, by simp, ?_, .inl ?_, fun _ => .inl ?_, fun h h' => absurd (hzero h) h'⟩
      · dsimp only; omega
      · dsimp only; omega
      · dsimp only; omega
    | false =>
      rw [if_neg Bool.false_ne_true, Pointer.back_eq (by omega) (by rw [hlen]; omega)]
      refine ⟨_, rfl, by simp, ?_, .inl ?_, fun _ => .inl ?_, fun h h' => absurd (hzero h) h'⟩
      · dsimp only; omega
      · dsimp only; omega
      · dsimp only; omega
  · subst hD'
    have hstrip := stripLoop_eq (u := u ++ ch '.' :: E) (r := r) hc j ((u ++ ch '.' :: E).length + 1)
    have hz : u ++ ch '.' :: (E ++ [c] ++ List.replicate j (ch '0')) ++ r =
        (u ++ ch '.' :: E) ++ c :: (List.replicate j (ch '0') ++ r) := by simp
    have hl : (u ++ ch '.' :: (E ++ [c] ++ List.replicate j (ch '0'))).length =
        (u ++ ch '.' :: E).length + 1 + j := by simp; omega
    have hread : read ((u ++ ch '.' :: E) ++ c :: (List.replicate j 0 ++ r))
        ((((u ++ ch '.' :: E).length + 1 : ℕ) : ℤ) - 1) = .ok c := by
      rw [← read_append (u ++ ch '.' :: E) c (List.replicate j 0 ++ r)]
      congr 1
      omega
    have hdot : c ≠ ch '.' := hD c (by simp)
    have hu : (u ++ ch '.' :: E).length = u.length + 1 + E.length := by simp; omega
    unfold removeZeros
    rw [hl, hz, show ((((u ++ ch '.' :: E).length + 1 + j : ℕ) : ℤ).toNat + 1) =
      j + 1 + ((u ++ ch '.' :: E).length + 1) by omega]
    simp only [hstrip, ok_bind, hread, if_neg hdot]
    refine ⟨_, rfl, by simp, ?_, .inr ?_, fun h => .inr ?_, fun _ h => ?_⟩
    · dsimp only; omega
    · dsimp only; omega
    · cases j with
      | zero => simp [hc] at h
      | succ j => dsimp only; omega
    · cases j with
      | zero => rfl
      | succ j => exact absurd (by rw [List.replicate_succ', ← List.append_assoc, List.getLast?_concat]) h

theorem shiftLoop_ok {nPad : ℤ} (h0 : 0 ≤ nPad) {k : ℕ} (hk : k ≤ z.length) (h : nPad + k ≤ z.length) :
    ∃ z', shiftLoop nPad k z = .ok z' ∧ z'.length = z.length := by
  induction k generalizing z with
  | zero => exact ⟨z, rfl, rfl⟩
  | succ k ih =>
    have hlt : k < z.length := hk
    obtain ⟨z', hz', hl⟩ := ih (z := z.set (nPad + k).toNat z[k]) (by rw [List.length_set]; omega)
      (by rw [List.length_set]; omega)
    have hwrite : Pointer.write ⟨z, 0⟩ (nPad + k) z[k] = some ⟨z.set (nPad + k).toNat z[k], 0⟩ :=
      if_pos ⟨by omega, by dsimp only; omega⟩
    refine ⟨z', ?_, by rw [hl, List.length_set]⟩
    rw [shiftLoop, read_eq hk, ok_bind, hwrite]
    exact hz'

theorem shiftLoop_outside {nPad : ℤ} {k : ℕ} (hk : k < z.length) (h : z.length ≤ nPad + k) :
    shiftLoop nPad (k + 1) z = .error .outside := by
  have hwrite : Pointer.write ⟨z, 0⟩ (nPad + k) z[k] = none := if_neg fun hlt => by
    have := hlt.2
    dsimp only at this
    omega
  rw [shiftLoop, read_eq hk, ok_bind, hwrite]
  rfl

/-- Zeros are written where the block is longer than the width. -/
theorem padZeros_ok (pre : List UInt8) {p : Pointer UInt8} (hs : s.Wide) (hpre : (pre.length : ℤ) ≤ p.pos)
    (hp : p.pos < p.block.length) (h31 : p.block.length < 2 ^ 31)
    (hw : s.flags.zeropad = true ∧ s.flags.leftjustify = false → s.width < p.block.length) :
    ∃ item, padZeros s pre p = .ok item ∧ item.Inside ∧ item.width = s.width := by
  obtain ⟨z, pos⟩ := p
  obtain ⟨n, rfl⟩ := Int.eq_ofNat_of_zero_le (a := pos) (by dsimp only at hpre; omega)
  dsimp only at hpre hp h31 hw
  have hn : n < z.length := by omega
  have hwidth := hs.width
  unfold padZeros
  dsimp only
  rw [Pointer.forth_eq hn, inside_some, ok_bind]
  dsimp only
  split_ifs with hpad
  · have hlt := hw ⟨hpad.1, by simpa using hpad.2.1⟩
    obtain ⟨z', hz', hl⟩ := @shiftLoop_ok (z.set n 0) (s.width - n) (by omega) (n + 1)
      (by rw [List.length_set]; omega) (by rw [List.length_set]; omega)
    rw [List.length_set] at hl
    rw [show ((n : ℤ).toNat + 1) = n + 1 from rfl, hz', ok_bind,
      Pointer.push_eq (by rw [List.length_replicate]; omega), inside_some, ok_bind]
    refine ⟨_, rfl, ⟨le_rfl, hwidth.1, ?_, hwidth.2, hwidth⟩, rfl⟩
    simp only [List.length_append, List.length_take, List.length_drop, List.length_replicate]
    omega
  · refine ⟨_, rfl, ⟨le_rfl, Int.natCast_nonneg n, ?_, by dsimp only; omega, hwidth⟩, rfl⟩
    dsimp only
    rw [List.length_set]
    omega

theorem padZeros_unsafe {pre : List UInt8} {p : Pointer UInt8} (h0 : 0 ≤ p.pos) (hp : p.pos ≤ p.block.length)
    (h : ¬(p.pos < p.block.length ∧
      (s.flags.zeropad = true ∧ s.flags.leftjustify = false → s.width < p.block.length))) :
    ¬Safe (padZeros s pre p) := by
  obtain ⟨z, pos⟩ := p
  obtain ⟨n, rfl⟩ := Int.eq_ofNat_of_zero_le h0
  dsimp only at hp h
  unfold padZeros
  dsimp only
  by_cases hn : n < z.length
  · rw [Pointer.forth_eq hn, inside_some, ok_bind]
    have hpad : (s.flags.zeropad = true ∧ s.flags.leftjustify = false) ∧ ¬s.width < z.length := by
      rw [not_and_or, Classical.not_imp] at h
      exact h.resolve_left (by omega)
    dsimp only
    rw [if_pos ⟨hpad.1.1, by simp [hpad.1.2], by omega⟩, show ((n : ℤ).toNat + 1) = n + 1 from rfl,
      shiftLoop_outside (by rw [List.length_set]; omega) (by rw [List.length_set]; omega)]
    simp
  · rw [Pointer.forth_eq_none (by omega)]
    simp

variable {v : Real} {precision exp e2 : ℤ} {rtz : Bool} {zOut : List UInt8} {xtype : Xtype}

/-- The characters in front of the decimal point. -/
def headLength (s : Spec) (v : Real) (e2 : ℤ) : ℕ :=
  (signPrefix s.flags v.negative).length + (wholeDigits v (nsdOf s) e2).length

theorem et_getdigit_ne (v : Real) (nsd k : ℕ) : et_getdigit v nsd k ≠ ch '.' := by
  have hall : ∀ d : Fin 10, ch '0' + .ofNat d ≠ ch '.' := by decide
  unfold et_getdigit
  split_ifs
  · exact hall _
  · decide

theorem decimals_ne {nsd : ℕ} {c : UInt8} (h : c ∈ decimals v nsd e2 precision) : c ≠ ch '.' := by
  rcases List.mem_append.mp h with h | h
  · rw [List.eq_of_mem_replicate h]
    decide
  · obtain ⟨k, -, rfl⟩ := List.mem_map.mp h
    exact et_getdigit_ne _ _ _

/-- A zero at the end is removed. -/
def Strips (s : Spec) (v : Real) (precision e2 : ℤ) (rtz : Bool) : Prop :=
  (rtz = true ∧ flag_dp s precision = true) ∧ (decimals v (nsdOf s) e2 precision).getLast? = some (ch '0')

/-- The number up to its exponent, without the zeros that are removed. -/
theorem text_ok (rtz : Bool) (zOut : List UInt8) (hT : (realText s v precision e2).length ≤ zOut.length)
    (hu : headLength s v e2 + 2 ≤ zOut.length) :
    ∃ p : Pointer UInt8, (∀ f : Pointer UInt8 → Except Stop β, (do
      let bufpt ← inside (Pointer.push ⟨zOut, 0⟩ (realText s v precision e2))
      let bufpt ← (if rtz = true ∧
        flag_dp s precision = true then removeZeros s.flags.altform2 bufpt else .ok bufpt)
      f bufpt) = f p) ∧ p.block.length = zOut.length ∧ headLength s v e2 ≤ p.pos ∧
      (p.pos ≤ headLength s v e2 + 2 ∨ p.pos ≤ (realText s v precision e2).length) ∧
      (Strips s v precision e2 rtz →
        p.pos ≤ headLength s v e2 + 2 ∨ p.pos < (realText s v precision e2).length) ∧
      (¬Strips s v precision e2 rtz → headLength s v e2 + 1 < (realText s v precision e2).length →
        p.pos = (realText s v precision e2).length) := by
  have hpush := Pointer.push_eq (z := zOut) (n := 0) (w := realText s v precision e2) (by omega)
  rw [Nat.cast_zero, List.take_zero, List.nil_append, Nat.zero_add] at hpush
  have hlen : (realText s v precision e2 ++ zOut.drop (realText s v precision e2).length).length = zOut.length := by
    rw [List.length_append, List.length_drop]; omega
  by_cases hrtz : rtz = true ∧ flag_dp s precision = true
  · have htext : realText s v precision e2 = (signPrefix s.flags v.negative ++ wholeDigits v (nsdOf s) e2) ++
        ch '.' :: decimals v (nsdOf s) e2 precision := by
      rw [realText, if_pos hrtz.2, List.append_assoc, List.append_assoc, List.append_assoc,
        List.singleton_append]
    have hhead : headLength s v e2 = (signPrefix s.flags v.negative ++ wholeDigits v (nsdOf s) e2).length := by
      rw [List.length_append, headLength]
    rw [htext] at hlen
    obtain ⟨p, hp, hpl, hp0, hpT, hpz, hpn⟩ := removeZeros_ok (u := signPrefix s.flags v.negative ++
      wholeDigits v (nsdOf s) e2) (D := decimals v (nsdOf s) e2 precision) s.flags.altform2
      (fun c hc => decimals_ne hc) (r := zOut.drop (realText s v precision e2).length) (by rw [htext, hlen]; omega)
    rw [← htext] at hp hpl hpT hpz hpn hlen
    rw [← hhead] at hp0 hpT hpz
    refine ⟨p, fun f => ?_, hpl.trans hlen, hp0, hpT, fun h => hpz h.2, fun h hlt => ?_⟩
    · simp only [hpush, inside_some, ok_bind, if_pos hrtz, hp]
    · refine hpn (fun hnil => ?_) fun hz => h ⟨hrtz, hz⟩
      rw [htext, hnil, List.length_append, ← hhead, List.length_singleton] at hlt
      omega
  · refine ⟨⟨realText s v precision e2 ++ zOut.drop (realText s v precision e2).length,
      (realText s v precision e2).length⟩, fun f => ?_, hlen, ?_, .inr le_rfl, fun h => absurd h.1 hrtz,
      fun _ _ => rfl⟩
    · simp only [hpush, inside_some, ok_bind, if_neg hrtz]
    · simp only [headLength, realText, List.length_append]
      omega

/-- The suffix of an exponent, if the number has one. -/
def suffixOf (s : Spec) (xtype : Xtype) (exp : ℤ) : List UInt8 :=
  if xtype = .etEXP then expSuffix (aDigits.getD s.info.charset 0) exp else []

theorem length_suffixOf_le (s : Spec) (xtype : Xtype) (exp : ℤ) : (suffixOf s xtype exp).length ≤ 5 := by
  unfold suffixOf
  split_ifs
  · simp only [expSuffix]
    split_ifs <;> simp
  · exact Nat.zero_le _

/-- The number fits into its block. -/
structure Room (s : Spec) (v : Real) (xtype : Xtype) (precision exp e2 : ℤ) (rtz : Bool) (size : ℤ) :
    Prop where
  text : (realText s v precision e2).length ≤ size
  ends : (realText s v precision e2).length + (suffixOf s xtype exp).length < size ∨
    suffixOf s xtype exp = [] ∧ Strips s v precision e2 rtz
  width : s.flags.zeropad = true ∧ s.flags.leftjustify = false → s.width < size

theorem writeReal_ok (hs : s.Wide) (h31 : zOut.length < 2 ^ 31)
    (hu : headLength s v e2 + 2 + (suffixOf s xtype exp).length < zOut.length)
    (h : Room s v xtype precision exp e2 rtz zOut.length) :
    ∃ item, writeReal s v xtype precision exp e2 rtz zOut = .ok item ∧ item.Inside ∧
      item.width = s.width := by
  obtain ⟨p, hp, hpl, hp0, hpT, hpz, -⟩ := text_ok (β := Item) rtz zOut
    (by exact_mod_cast h.text) (by omega)
  have hpos : p.pos + (suffixOf s xtype exp).length < zOut.length := by
    rcases h.ends with hlt | ⟨hnil, hz⟩
    · omega
    · have := h.text
      rw [hnil, List.length_nil] at hu ⊢
      have := hpz hz
      omega
  obtain ⟨z, pos⟩ := p
  obtain ⟨n, rfl⟩ := Int.eq_ofNat_of_zero_le (a := pos) (by dsimp only at hp0; omega)
  dsimp only at hpl hpos hp0
  have hpush := Pointer.push_eq (z := z) (n := n) (w := suffixOf s xtype exp) (by omega)
  have hlen : (z.take n ++ suffixOf s xtype exp ++ z.drop (n + (suffixOf s xtype exp).length)).length = z.length := by
    simp only [List.length_append, List.length_take, List.length_drop]
    omega
  obtain ⟨item,
    hi⟩ := padZeros_ok (signPrefix s.flags v.negative) hs (p := ⟨z.take n ++ suffixOf s xtype exp ++
    z.drop (n + (suffixOf s xtype exp).length), (n + (suffixOf s xtype exp).length : ℕ)⟩)
    (by unfold headLength at hp0; dsimp only; omega) (by dsimp only; rw [hlen]; omega) (by dsimp only; omega)
    (by dsimp only; rw [hlen, hpl]; exact h.width)
  refine ⟨item, ?_, hi.2⟩
  unfold writeReal
  rw [hp]
  change (do
    let bufpt ← inside (Pointer.push ⟨z, n⟩ (suffixOf s xtype exp))
    padZeros s (signPrefix s.flags v.negative) bufpt) = _
  rw [hpush, inside_some, ok_bind]
  exact hi.1

/-- A number without an exponent does not fit into a block otherwise. -/
theorem writeReal_unsafe (hx : xtype ≠ .etEXP) (hu : headLength s v e2 + 2 ≤ zOut.length)
    (h : ¬Room s v xtype precision exp e2 rtz zOut.length) :
    ¬Safe (writeReal s v xtype precision exp e2 rtz zOut) := by
  have hsuffix : suffixOf s xtype exp = [] := if_neg hx
  by_cases hT : (realText s v precision e2).length ≤ zOut.length
  · obtain ⟨p, hp, hpl, hp0, hpT, hpz, hpn⟩ := text_ok (β := Item) rtz zOut hT hu
    unfold writeReal
    rw [hp]
    change ¬Safe (do
      let bufpt ← inside (Pointer.push p (suffixOf s xtype exp))
      padZeros s (signPrefix s.flags v.negative) bufpt)
    rw [hsuffix, show p.push [] = some p from rfl, inside_some, ok_bind]
    refine padZeros_unsafe (by omega) (by omega) fun hroom => h ?_
    rw [hpl] at hroom
    refine ⟨by exact_mod_cast hT, ?_, hroom.2⟩
    rw [hsuffix, List.length_nil]
    by_cases hz : Strips s v precision e2 rtz
    · exact .inr ⟨rfl, hz⟩
    · refine .inl ?_
      by_cases hlt : headLength s v e2 + 1 < (realText s v precision e2).length
      · have := hpn hz hlt
        omega
      · omega
  · have hpush := Pointer.push_eq_none (z := zOut) (n := 0) (w := realText s v precision e2) (Nat.zero_le _) (by omega)
    rw [Nat.cast_zero] at hpush
    unfold writeReal
    rw [hpush]
    simp

/-! The block of a real. -/

def floatPrecision (s : Spec) : ℤ :=
  let precision := if s.precision < 0 then 6 else s.precision
  if s.info.type = .etGENERIC ∧ precision > 0 then precision - 1 else precision

def floatExp (s : Spec) (v : Real) : ℤ := if s.info.type ≠ .etFLOAT ∧ v.carry then v.exp + 1 else v.exp

/-- `%g` as `%e` or `%f`. -/
def floatType (s : Spec) (v : Real) : Xtype :=
  if s.info.type = .etGENERIC then
    if floatExp s v < -4 ∨ floatExp s v > floatPrecision s then .etEXP else .etFLOAT
  else s.info.type

/-- What the size of the block depends on. -/
def floatSize (s : Spec) (v : Real) : ℤ :=
  (if s.info.type = .etFLOAT then v.exp + floatPrecision s else floatPrecision s) + s.width

/-- The block of a real, if `buf` is too small. -/
def floatNeed (s : Spec) (v : Real) : Option ℤ :=
  if v.exp ≤ 350 ∧ floatSize s v > etBUFSIZE - 15 then some (floatSize s v + 15) else none

/-- The size of the block that the number is written into. -/
def blockSize (s : Spec) (v : Real) : ℤ := (floatNeed s v).getD etBUFSIZE

/-- A number below one fits into its block. -/
structure FractionFits (s : Spec) (v : Real) : Prop where
  digits : (signPrefix s.flags v.negative).length + 1 + (if flag_dp s (floatPrecision s) then 1 else 0) +
      max (floatPrecision s) (-v.exp - 1) + (if (s.flags.altform2 = true ∧ flag_dp s (floatPrecision s) = true) ∧
        (decimals v (nsdOf s) v.exp (floatPrecision s)).getLast? = some (ch '0') then 0 else 1) ≤ blockSize s v
  width : s.flags.zeropad = true ∧ s.flags.leftjustify = false → s.width < blockSize s v

/-- What a real needs. -/
structure FloatFits (grants : ℤ → Bool) (s : Spec) (v : Real) : Prop where
  precision : s.info.type = .etGENERIC ∧ floatType s v = .etFLOAT → floatPrecision s - floatExp s v < 2 ^ 31
  size : floatSize s v + 15 < 2 ^ 31
  fraction : s.info.type = .etFLOAT → v.exp < 0 → Served grants (floatNeed s v) → FractionFits s v

theorem length_decimals (v : Real) (nsd : ℕ) (e2 precision : ℤ) :
    ((decimals v nsd e2 precision).length : ℤ) = max 0 (max precision (-e2 - 1)) := by
  simp only [decimals, List.length_append, List.length_replicate, List.length_map, List.length_range]
  omega

theorem length_wholeDigits (v : Real) (nsd : ℕ) (e2 : ℤ) :
    ((wholeDigits v nsd e2).length : ℤ) = max e2 0 + 1 := by
  unfold wholeDigits
  split_ifs
  · rw [List.length_singleton]; omega
  · rw [List.length_map, List.length_range]; omega

theorem length_realText (s : Spec) (v : Real) (precision e2 : ℤ) : ((realText s v precision e2).length : ℤ) =
    (signPrefix s.flags v.negative).length + (max e2 0 + 1) + (if flag_dp s precision then 1 else 0) +
      max 0 (max precision (-e2 - 1)) := by
  have hpoint : (((if flag_dp s precision then [ch '.'] else []).length : ℕ) : ℤ) =
      if flag_dp s precision then 1 else 0 := by split_ifs <;> rfl
  rw [realText, List.length_append, List.length_append, List.length_append]
  push_cast
  rw [length_decimals, length_wholeDigits, hpoint]

theorem headLength_eq (s : Spec) (v : Real) (e2 : ℤ) :
    (headLength s v e2 : ℤ) = (signPrefix s.flags v.negative).length + (max e2 0 + 1) := by
  rw [headLength, Nat.cast_add, length_wholeDigits]

theorem floatPrecision_bounds (hs : s.Wide) : 0 ≤ floatPrecision s ∧ floatPrecision s < 2 ^ 31 := by
  have := hs.precision
  unfold floatPrecision
  dsimp only
  split_ifs <;> omega

theorem floatExp_bounds (s : Spec) (v : Real) : -5000 ≤ floatExp s v ∧ floatExp s v ≤ 5001 := by
  have := v.range
  unfold floatExp
  split_ifs <;> omega

/-- The type that the number is written as, with its precision and its exponent. -/
inductive Writes (s : Spec) (v : Real) : Xtype → ℤ → ℤ → Prop
  | float (h : s.info.type = .etFLOAT) : Writes s v .etFLOAT (floatPrecision s) (floatExp s v)
  | exp (h : s.info.type = .etEXP ∨ s.info.type = .etGENERIC) : Writes s v .etEXP (floatPrecision s) 0
  | generic (h : s.info.type = .etGENERIC) (hE : -4 ≤ floatExp s v ∧ floatExp s v ≤ floatPrecision s) :
    Writes s v .etFLOAT (floatPrecision s - floatExp s v) (floatExp s v)

theorem writes_floatType (h : s.info.type = .etFLOAT ∨ s.info.type = .etEXP ∨ s.info.type = .etGENERIC) :
    Writes s v (floatType s v)
      (if s.info.type = .etGENERIC ∧ floatType s v = .etFLOAT then floatPrecision s - floatExp s v
        else floatPrecision s) (if floatType s v = .etEXP then 0 else floatExp s v) := by
  rcases h with h | h | h
  · simpa [floatType, h] using Writes.float (v := v) h
  · simpa [floatType, h] using Writes.exp (v := v) (.inl h)
  · by_cases hE : floatExp s v < -4 ∨ floatExp s v > floatPrecision s
    · simpa [floatType, h, hE] using Writes.exp (v := v) (.inr h)
    · simpa [floatType, h, hE] using Writes.generic (v := v) h (by omega)

theorem Writes.size (h : Writes s v xtype precision e2) : e2 + precision + s.width = floatSize s v := by
  unfold floatSize
  cases h with
  | float h => rw [if_pos h, floatExp, if_neg fun hn => hn.1 h]
  | exp h => rw [if_neg (by rcases h with h | h <;> rw [h] <;> decide)]; omega
  | generic h => rw [if_neg (by rw [h]; decide)]; omega

theorem floatCase_eq (h : ¬v.exp > 350) : floatCase grants s v = (do
    let precision ← (if s.info.type = .etGENERIC ∧ floatType s v = .etFLOAT then
      int (floatPrecision s - floatExp s v) else .ok (floatPrecision s))
    let e2 := if floatType s v = .etEXP then 0 else floatExp s v
    let size ← int ((← int (e2 + precision)) + s.width)
    let zOut ← allocate grants (size > etBUFSIZE - 15) (size + 15)
    writeReal s v (floatType s v) precision (floatExp s v) e2
      (if s.info.type = .etGENERIC then !s.flags.alternateform else s.flags.altform2) zOut) := by
  unfold floatCase
  rw [if_neg h]
  rfl

theorem le_blockSize (h : ¬v.exp > 350) : floatSize s v + 15 ≤ blockSize s v ∧ 70 ≤ blockSize s v := by
  unfold blockSize floatNeed etBUFSIZE
  split_ifs with hb
  · simp only [Option.getD_some]
    omega
  · simp only [Option.getD_none]
    omega

/-- The block has room for each number that is not below one and written without an exponent. -/
theorem Writes.room (hs : s.Wide) (h : Writes s v xtype precision e2) (h350 : ¬v.exp > 350)
    (hf : s.info.type = .etFLOAT → ¬v.exp < 0) :
    Room s v xtype precision (floatExp s v) e2 rtz (blockSize s v) := by
  have hB := le_blockSize (s := s) h350
  have hsize := h.size
  have hlen := length_realText s v precision e2
  have hpre := length_signPrefix_le s.flags v.negative
  have hpoint : (if flag_dp s precision = true then (1 : ℤ) else 0) ≤ 1 := by split_ifs <;> omega
  have hP := floatPrecision_bounds hs
  have hwidth := hs.width
  have hmain : (realText s v precision e2).length + (suffixOf s xtype (floatExp s v)).length < blockSize s v ∧
      s.width < blockSize s v := by
    cases h with
    | float h =>
      have hE : floatExp s v = v.exp := if_neg fun hn => hn.1 h
      have := hf h
      have hsuf : (suffixOf s .etFLOAT (floatExp s v)).length = 0 := rfl
      omega
    | exp =>
      have hsuf := length_suffixOf_le s .etEXP (floatExp s v)
      omega
    | generic h hE =>
      have hsuf : (suffixOf s .etFLOAT (floatExp s v)).length = 0 := rfl
      omega
  exact ⟨by omega, .inl hmain.1, fun _ => hmain.2⟩

/-- For the others it has room under a condition. -/
theorem room_iff (h : s.info.type = .etFLOAT) (hv : v.exp < 0) (hs : s.Wide) :
    Room s v .etFLOAT (floatPrecision s) (floatExp s v) (floatExp s v) s.flags.altform2 (blockSize s v) ↔
      FractionFits s v := by
  have hE : floatExp s v = v.exp := if_neg fun hn => hn.1 h
  have hP := floatPrecision_bounds hs
  have hlen := length_realText s v (floatPrecision s) v.exp
  have hsuf : suffixOf s .etFLOAT v.exp = [] := rfl
  rw [hE]
  have hends : (suffixOf s .etFLOAT v.exp = [] ∧ Strips s v (floatPrecision s) v.exp s.flags.altform2) ↔
      (s.flags.altform2 = true ∧ flag_dp s (floatPrecision s) = true) ∧
        (decimals v (nsdOf s) v.exp (floatPrecision s)).getLast? = some (ch '0') := by
    rw [hsuf]
    exact and_iff_right rfl
  have hroom : Room s v .etFLOAT (floatPrecision s) v.exp v.exp s.flags.altform2 (blockSize s v) ↔
      (realText s v (floatPrecision s) v.exp).length + (if (s.flags.altform2 = true ∧
        flag_dp s (floatPrecision s) = true) ∧
        (decimals v (nsdOf s) v.exp (floatPrecision s)).getLast? = some (ch '0') then 0 else 1) ≤ blockSize s v ∧
      (s.flags.zeropad = true ∧ s.flags.leftjustify = false → s.width < blockSize s v) := by
    constructor
    · rintro ⟨htext, hlast, hwidth⟩
      rw [hends, hsuf, List.length_nil] at hlast
      refine ⟨?_, hwidth⟩
      split_ifs with hz
      · omega
      · have := hlast.resolve_right hz
        omega
    · rintro ⟨htext, hwidth⟩
      refine ⟨?_, ?_, hwidth⟩
      · split_ifs at htext <;> omega
      · rw [hends, hsuf, List.length_nil]
        split_ifs at htext with hz
        · exact .inr hz
        · exact .inl (by omega)
  have hmax : max v.exp 0 = 0 := max_eq_right hv.le
  have hmax' : max 0 (max (floatPrecision s) (-v.exp - 1)) = max (floatPrecision s) (-v.exp - 1) :=
    max_eq_right (hP.1.trans (le_max_left _ _))
  rw [hroom, hlen, hmax, hmax', zero_add]
  exact ⟨fun h => ⟨h.1, h.2⟩, fun h => ⟨h.1, h.2⟩⟩

theorem constant_inside (z : List UInt8) (hz : z.length < 2 ^ 31) (hs : s.Wide) :
    (constant z s.width).Inside where
  bufpt := le_rfl
  length := Int.natCast_nonneg _
  le := by simp only [constant, List.length_append, List.length_singleton]; omega
  fits := by simp only [constant]; omega
  width := hs.width

/-- The number is written without an error where it has room. -/
theorem writeReal_does (hs : s.Wide) (h350 : ¬v.exp > 350) (h : Writes s v (floatType s v) precision e2)
    (hrtz : s.info.type = .etFLOAT → rtz = s.flags.altform2) (hB : (zOut.length : ℤ) = blockSize s v)
    (h31 : zOut.length < 2 ^ 31) :
    ((s.info.type = .etFLOAT → v.exp < 0 → FractionFits s v) → ∃ item,
      writeReal s v (floatType s v) precision (floatExp s v) e2 rtz zOut = .ok item ∧ item.Inside ∧
        item.width = s.width) ∧
    (¬(s.info.type = .etFLOAT → v.exp < 0 → FractionFits s v) →
      ¬Safe (writeReal s v (floatType s v) precision (floatExp s v) e2 rtz zOut)) := by
  have hB70 := le_blockSize (s := s) h350
  have hhead := headLength_eq s v e2
  have hpre := length_signPrefix_le s.flags v.negative
  have hP := floatPrecision_bounds hs
  have hw := hs.width
  have hsize := h.size
  have hsuf := length_suffixOf_le s (floatType s v) (floatExp s v)
  have hu : headLength s v e2 + 2 + (suffixOf s (floatType s v) (floatExp s v)).length < zOut.length := by
    generalize floatType s v = xtype at *
    cases h with
    | float h => omega
    | exp => omega
    | generic h hE => omega
  by_cases hfrac : s.info.type = .etFLOAT ∧ v.exp < 0
  · obtain ⟨hx, hneg⟩ := hfrac
    have htype : floatType s v = .etFLOAT := by simp [floatType, hx]
    have hE : floatExp s v = v.exp := if_neg fun hn => hn.1 hx
    rw [htype] at h hu ⊢
    obtain ⟨rfl, rfl⟩ : precision = floatPrecision s ∧ e2 = floatExp s v := by
      cases h with
      | float => exact ⟨rfl, rfl⟩
      | generic hg => rw [hx] at hg; cases hg
    rw [hrtz hx]
    have hroom := room_iff hx hneg hs
    rw [← hB] at hroom
    refine ⟨fun hf => writeReal_ok hs h31 hu (hroom.mpr (hf hx hneg)), fun hf => ?_⟩
    exact writeReal_unsafe (by decide) (by omega) fun hr => hf fun _ _ => hroom.mp hr
  · refine ⟨fun _ => writeReal_ok hs h31 hu ?_, fun hn => absurd (fun h1 h2 => absurd ⟨h1, h2⟩ hfrac) hn⟩
    rw [hB]
    exact h.room hs h350 fun h1 h2 => hfrac ⟨h1, h2⟩

theorem floatCase_does (hs : s.Wide)
    (hx : s.info.type = .etFLOAT ∨ s.info.type = .etEXP ∨ s.info.type = .etGENERIC) :
    Does (v.exp ≤ 350 → FloatFits grants s v) (Served grants (floatNeed s v))
      (fun item => item.Inside ∧ item.width = s.width) (floatCase grants s v) := by
  by_cases h350 : v.exp > 350
  · have hneed : floatNeed s v = none := if_neg fun h => not_le.mpr h350 h.1
    refine ⟨fun h => absurd (fun h => by omega) h, fun _ h => absurd (by rw [hneed]; exact nofun) h,
      fun _ _ => ?_⟩
    have hlen : ((signPrefix s.flags v.negative).filter (· ≠ ch ' ')).length ≤ 1 :=
      (List.length_filter_le _ _).trans (length_signPrefix_le _ _)
    unfold floatCase
    rw [if_pos h350]
    exact ⟨_, rfl,
      constant_inside _ (by simp only [List.length_append, List.length_cons, List.length_nil]; omega) hs,
      rfl⟩
  have hP := floatPrecision_bounds hs
  have hE := floatExp_bounds s v
  have hw := hs.width
  have hwrites := writes_floatType (v := v) hx
  have hsize := hwrites.size
  rw [floatCase_eq h350]
  generalize hrtz : (if s.info.type = .etGENERIC then !s.flags.alternateform else s.flags.altform2) = rtz
  generalize he2 : (if floatType s v = .etEXP then 0 else floatExp s v) = e2 at *
  by_cases hover : s.info.type = .etGENERIC ∧ floatType s v = .etFLOAT ∧
    ¬floatPrecision s - floatExp s v < 2 ^ 31
  · refine ⟨fun _ => ?_, fun h => ?_, fun h => ?_⟩
    · rw [if_pos ⟨hover.1, hover.2.1⟩, int_error (by omega)]
      simp
    · exact absurd ((h (by omega)).precision ⟨hover.1, hover.2.1⟩) hover.2.2
    · exact absurd ((h (by omega)).precision ⟨hover.1, hover.2.1⟩) hover.2.2
  have hprecision : s.info.type = .etGENERIC ∧ floatType s v = .etFLOAT →
    floatPrecision s - floatExp s v < 2 ^ 31 :=
    fun h => not_not.mp fun hn => hover ⟨h.1, h.2, hn⟩
  have hok : (if s.info.type = .etGENERIC ∧
    floatType s v = .etFLOAT then int (floatPrecision s - floatExp s v)
      else .ok (floatPrecision s)) = .ok (if s.info.type = .etGENERIC ∧ floatType s v = .etFLOAT then
        floatPrecision s - floatExp s v else floatPrecision s) := by
    split_ifs with h
    · exact int_ok ⟨by omega, hprecision h⟩
    · rfl
  have hrtz' : s.info.type = .etFLOAT → rtz = s.flags.altform2 := fun h => by rw [← hrtz, h]; rfl
  rw [hok, ok_bind]
  dsimp only
  generalize (if s.info.type = .etGENERIC ∧ floatType s v = .etFLOAT then floatPrecision s - floatExp s v
    else floatPrecision s) = precision at *
  have hlow : -5000 ≤ floatSize s v - s.width := by
    have := v.range
    unfold floatSize
    split_ifs <;> omega
  by_cases hbig : floatSize s v + 15 < 2 ^ 31
  · rw [int_ok (by omega), ok_bind, int_ok (by omega), ok_bind, hsize]
    have hfits : (v.exp ≤ 350 → FloatFits grants s v) ↔ (Served grants (floatNeed s v) →
      s.info.type = .etFLOAT →
        v.exp < 0 → FractionFits s v) :=
      ⟨fun h hserved hx hneg => (h (by omega)).fraction hx hneg hserved,
        fun h _ => ⟨hprecision, hbig, fun hx hneg hserved => h hserved hx hneg⟩⟩
    have hrun : Served grants (floatNeed s v) → ∃ zOut,
        allocate grants (decide (floatSize s v > etBUFSIZE - 15)) (floatSize s v + 15) = .ok zOut ∧
        (zOut.length : ℤ) = blockSize s v ∧ zOut.length < 2 ^ 31 := by
      intro hserved
      obtain ⟨zOut, hz, hl, h31⟩ := @allocate_served grants (floatSize s v + 15)
        (decide (floatSize s v > etBUFSIZE - 15)) (by omega) (by simpa [floatNeed, not_lt.mp h350] using hserved)
      exact ⟨zOut, hz, by simpa [blockSize, floatNeed, not_lt.mp h350] using hl, h31⟩
    have hnone : ¬Served grants (floatNeed s v) →
        allocate grants (decide (floatSize s v > etBUFSIZE - 15)) (floatSize s v + 15) = .error .returned := by
      intro hserved
      exact allocate_not_served (by omega) (by simpa [floatNeed, not_lt.mp h350] using hserved)
    refine ⟨fun h => ?_, fun _ hserved => by rw [hnone hserved]; rfl, fun h hserved => ?_⟩
    · rw [hfits, Classical.not_imp] at h
      obtain ⟨zOut, hz, hl, h31⟩ := hrun h.1
      rw [hz, ok_bind]
      exact (writeReal_does hs h350 hwrites hrtz' hl h31).2 h.2
    · obtain ⟨zOut, hz, hl, h31⟩ := hrun hserved
      rw [hz, ok_bind]
      exact (writeReal_does hs h350 hwrites hrtz' hl h31).1 (hfits.mp h hserved)
  · refine ⟨fun _ => ?_, fun h => absurd (h (by omega)).size hbig, fun h => absurd (h (by omega)).size hbig⟩
    refine unsafe_int fun _ => unsafe_int fun hsz => ?_
    rw [allocate_overflow (by unfold etBUFSIZE; simp; omega) (by omega)]
    simp

end Sqlite.Printf
