import Sqlite.Numeric.Atoi

/-! What the loops of `sqlite3AtoF` do with their variables. -/
namespace Sqlite.Numeric

open Foundation Utf

variable {z t ds fs es sg rest : List UInt8} {b : UInt8} {p : Parsed} {k : ℤ}

theorem int_of_fits {x : ℤ} (h : -2 ^ 31 ≤ x ∧ x < 2 ^ 31) : int x = pure x := by
  have hmod : Int.bmod x (2 ^ 32) = x := Int.bmod_eq_of_le (by omega) (by omega)
  rw [int, hmod, decide_eq_true h]
  rfl

theorem digit_range (hb : IsDigit b) : 0 ≤ digit b ∧ digit b ≤ 9 := by
  have hd := isDigit_toNat.mp hb
  have h0 : (ch '0').toNat = 48 := rfl
  rw [digit, h0]
  omega

/-- A loop over digits, each of whose steps is exact under an invariant. -/
theorem loop_spec {cond : Parsed → UInt8 → Bool} {body : Parsed → UInt8 → Arith Parsed}
    {I : List UInt8 → Parsed → Prop} (h : I z p) (hdigit : ∀ p b, cond p b = true → IsDigit b)
    (hstep : ∀ b t p, I (b :: t) p → cond p b = true → ∃ p', body p b = pure p' ∧ I t p') :
    ∃ l rest p', z = l ++ rest ∧ (∀ b ∈ l, IsDigit b) ∧
      loop cond body 1 z (pure p) = (rest, pure p') ∧ I rest p' ∧
      ∀ b ∈ rest.head?, cond p' b = false := by
  induction z generalizing p with
  | nil => exact ⟨[], [], p, rfl, by simp, scan_nil, h, by simp⟩
  | cons b t ih =>
    have heq : loop cond body 1 (b :: t) (pure p) =
        if cond p b then loop cond body 1 t (body p b) else (b :: t, pure p) := by
      rw [loop, scan_cons]
      rfl
    by_cases hc : cond p b = true
    · obtain ⟨p1, hbody, hI⟩ := hstep b t p h hc
      obtain ⟨l, rest, p', hl, hdig, hloop, hend⟩ := ih hI
      rw [heq, if_pos hc, hbody]
      refine ⟨b :: l, rest, p', by rw [hl, List.cons_append], ?_, hloop, hend⟩
      simpa using ⟨hdigit p b hc, hdig⟩
    · rw [heq, if_neg hc]
      exact ⟨[], b :: t, p, rfl, by simp, rfl, h, by simpa using hc⟩

/-- The variables in front of the exponent; `k` is what `nDigits` is after the rest of the text if
all of it is counted. -/
structure Good (k : ℤ) (z : List UInt8) (p : Parsed) : Prop where
  s_nonneg : 0 ≤ p.s
  s_le : p.s ≤ LARGEST_INT64
  nDigits_nonneg : 0 ≤ p.nDigits
  shift_le : -p.nDigits ≤ p.d ∧ p.d ≤ p.nDigits
  e_eq : p.e = 0
  eValid : p.eValid = true
  count : p.nDigits + z.length = k
  bound : k < 2 ^ 31

theorem Good.countDigit (h : Good k (b :: t) p) :
    Numeric.countDigit p b = pure { p with nDigits := p.nDigits + 1 } ∧
      Good k t { p with nDigits := p.nDigits + 1 } := by
  have hc := h.count
  have hk := h.bound
  have h0 := h.nDigits_nonneg
  have hd := h.shift_le
  rw [List.length_cons] at hc
  refine ⟨?_, ⟨h.s_nonneg, h.s_le, ?_, ?_, h.e_eq, h.eValid, ?_, hk⟩⟩
  · rw [Numeric.countDigit, int_of_fits (by omega)]
    rfl
  all_goals dsimp only
  all_goals omega

theorem Good.addDigit (h : Good k z p) (hb : IsDigit b) (hs : p.s < (LARGEST_INT64 - 9) / 10) :
    Numeric.addDigit p b = pure { p with s := p.s * 10 + digit b } ∧
      Good k z { p with s := p.s * 10 + digit b } := by
  have h0 := h.s_nonneg
  have hd := digit_range hb
  rw [largest_eq] at hs
  have hle : p.s * 10 + digit b ≤ 9223372036854775807 := by omega
  refine ⟨?_, ⟨by dsimp only; omega, hle, h.nDigits_nonneg, h.shift_le, h.e_eq, h.eValid, h.count,
    h.bound⟩⟩
  rw [Numeric.addDigit, i64_of_fits (x := p.s * 10) (fits_iff.mpr (by omega))]
  rw [pure_bind_arith, i64_of_fits (fits_iff.mpr (by omega))]
  rfl

/-- A digit that is counted makes room for one step of the shift. -/
theorem Good.count_shift {c : ℤ} (h : Good k (b :: t) p) (hc : c = 1 ∨ c = -1) :
    (Numeric.countDigit p b >>= shift c) = pure { p with nDigits := p.nDigits + 1, d := p.d + c } ∧
      Good k t { p with nDigits := p.nDigits + 1, d := p.d + c } := by
  obtain ⟨heq, hg⟩ := h.countDigit
  have hd := h.shift_le
  have hk := h.bound
  have hn := hg.count
  have h0 := h.nDigits_nonneg
  dsimp only at hn
  refine ⟨?_, ⟨h.s_nonneg, h.s_le, hg.nDigits_nonneg, ?_, h.e_eq, h.eValid, hg.count, hk⟩⟩
  · rw [heq, pure_bind_arith, shift]
    dsimp only
    rw [int_of_fits (by omega)]
    rfl
  · dsimp only
    omega

theorem isDigit_cond (p : Parsed) (b : UInt8) (h : isDigit p b = true) : IsDigit b :=
  sqlite3Isdigit_iff.mp h

theorem hasRoom_iff : hasRoom p b = true ↔ IsDigit b ∧ p.s < (LARGEST_INT64 - 9) / 10 := by
  rw [hasRoom, decide_eq_true_iff, sqlite3Isdigit_iff]

theorem Good.add_count (h : Good k (b :: t) p) (hb : hasRoom p b = true) :
    (Numeric.addDigit p b >>= fun p => Numeric.countDigit p b) =
        pure { p with s := p.s * 10 + digit b, nDigits := p.nDigits + 1 } ∧
      Good k t { p with s := p.s * 10 + digit b, nDigits := p.nDigits + 1 } := by
  obtain ⟨hb, hs⟩ := hasRoom_iff.mp hb
  obtain ⟨heq, hg⟩ := h.addDigit hb hs
  rw [heq, pure_bind_arith]
  exact hg.countDigit

theorem Good.add_shift (h : Good k (b :: t) p) (hb : hasRoom p b = true) :
    (Numeric.addDigit p b >>= fun p => Numeric.countDigit p b >>= shift (-1)) =
        pure { p with s := p.s * 10 + digit b, nDigits := p.nDigits + 1, d := p.d + -1 } ∧
      Good k t { p with s := p.s * 10 + digit b, nDigits := p.nDigits + 1, d := p.d + -1 } := by
  obtain ⟨hb, hs⟩ := hasRoom_iff.mp hb
  obtain ⟨heq, hg⟩ := h.addDigit hb hs
  rw [heq, pure_bind_arith]
  exact hg.count_shift (.inr rfl)

theorem head_not_digit (h : ∀ b ∈ rest.head?, isDigit p b = false) :
    ∀ b ∈ rest.head?, ¬ IsDigit b := by
  intro b hb hd
  have hfalse := h b hb
  rw [isDigit, sqlite3Isdigit_iff.mpr hd] at hfalse
  cases hfalse

/-- The digits in front of the point are all read and counted. -/
theorem integerPart_spec (h : Good k (ds ++ rest) p) (hds : ∀ b ∈ ds, IsDigit b)
    (hrest : ∀ b ∈ rest.head?, ¬ IsDigit b) :
    ∃ p', integerPart 1 (ds ++ rest) (pure p) = (rest, pure p') ∧ Good k rest p' := by
  let isZero : Parsed → UInt8 → Bool := fun _ b => b = ch '0'
  obtain ⟨l1, r1, p1, he1, hd1, hl1, hg1, -⟩ := loop_spec h
    (fun p b (hb : isZero p b = true) => of_decide_eq_true hb ▸ zero_isDigit)
    fun b t p hg _ => ⟨_, hg.countDigit⟩
  obtain ⟨l2, r2, p2, he2, hd2, hl2, hg2, -⟩ := loop_spec hg1
    (fun p b hb => (hasRoom_iff.mp hb).1) fun b t p hg hb => ⟨_, hg.add_count hb⟩
  obtain ⟨l3, r3, p3, he3, hd3, hl3, hg3, hend⟩ := loop_spec hg2 isDigit_cond
    fun b t p hg _ => ⟨_, hg.count_shift (.inl rfl)⟩
  have hsplit : ds ++ rest = (l1 ++ (l2 ++ l3)) ++ r3 := by
    rw [he1, he2, he3]
    simp
  have hall : ∀ b ∈ l1 ++ (l2 ++ l3), IsDigit b := fun b hb => by
    rcases List.mem_append.mp hb with hb | hb
    · exact hd1 b hb
    · exact (List.mem_append.mp hb).elim (hd2 b) (hd3 b)
  obtain ⟨-, rfl⟩ := span_unique IsDigit hsplit hds hrest hall (head_not_digit hend)
  refine ⟨p3, ?_, hg3⟩
  unfold integerPart
  rw [hl1]
  dsimp only
  rw [hl2]
  dsimp only
  rw [hl3]

/-- The point and the digits behind it. -/
theorem fractionPart_spec (h : Good k (ch '.' :: (fs ++ rest)) p) (hfs : ∀ b ∈ fs, IsDigit b)
    (hrest : ∀ b ∈ rest.head?, ¬ IsDigit b) :
    ∃ p', fractionPart 1 (ch '.' :: (fs ++ rest)) (pure p) = (rest, pure p') ∧
      Good (k - 1) rest p' := by
  have h0 : Good (k - 1) (fs ++ rest) p := by
    have hc := h.count
    have hb := h.bound
    rw [List.length_cons] at hc
    exact ⟨h.s_nonneg, h.s_le, h.nDigits_nonneg, h.shift_le, h.e_eq, h.eValid, by omega, by omega⟩
  obtain ⟨l1, r1, p1, he1, hd1, hl1, hg1, -⟩ := loop_spec h0
    (fun p b hb => (hasRoom_iff.mp hb).1) fun b t p hg hb => ⟨_, hg.add_shift hb⟩
  obtain ⟨l2, r2, p2, he2, hd2, hl2, hg2, hend⟩ := loop_spec hg1 isDigit_cond
    fun b t p hg _ => ⟨_, hg.countDigit⟩
  have hsplit : fs ++ rest = (l1 ++ l2) ++ r2 := by
    rw [he1, he2]
    simp
  have hall : ∀ b ∈ l1 ++ l2, IsDigit b := fun b hb =>
    (List.mem_append.mp hb).elim (hd1 b) (hd2 b)
  obtain ⟨-, rfl⟩ := span_unique IsDigit hsplit hfs hrest hall (head_not_digit hend)
  refine ⟨p2, ?_, hg2⟩
  rw [fractionPart, if_pos rfl]
  simp only [Nat.sub_self, List.drop_zero]
  rw [hl1]
  dsimp only
  rw [hl2]

theorem fractionPart_none {m : Arith Parsed} (h : ∀ b ∈ z.head?, b ≠ ch '.') :
    fractionPart 1 z m = (z, m) := by
  cases z with
  | nil => rfl
  | cons b t => rw [fractionPart, if_neg (h b rfl)]

/-- The variables behind the exponent. -/
structure Exponent (p p' : Parsed) : Prop where
  s_eq : p'.s = p.s
  d_eq : p'.d = p.d
  nDigits_eq : p'.nDigits = p.nDigits
  e_nonneg : 0 ≤ p'.e
  e_le : p'.e ≤ 99999

theorem Exponent.add {p0 : Parsed} (h : Exponent p0 p) (hb : IsDigit b) :
    ∃ p', addExponent p b = pure p' ∧ Exponent p0 p' ∧ p'.eValid = true := by
  have hd := digit_range hb
  have h0 := h.e_nonneg
  unfold addExponent
  split_ifs with hlt
  · refine ⟨{ p with e := p.e * 10 + digit b, eValid := true }, ?_,
      ⟨h.s_eq, h.d_eq, h.nDigits_eq, by dsimp only; omega, by dsimp only; omega⟩, rfl⟩
    rw [int_of_fits (x := p.e * 10) (by omega), pure_bind_arith, int_of_fits (by omega)]
    rfl
  · exact ⟨_, rfl, ⟨h.s_eq, h.d_eq, h.nDigits_eq, by simp, by simp⟩, rfl⟩

theorem exponentPart_spec {c : UInt8} (hc : c = ch 'e' ∨ c = ch 'E') (hsg : IsSign sg)
    (hbare : sg = [] → ∀ b ∈ (es ++ rest).head?, b ≠ ch '-' ∧ b ≠ ch '+')
    (hes : ∀ b ∈ es, IsDigit b) (hrest : ∀ b ∈ rest.head?, ¬ IsDigit b) (he : p.e = 0) :
    ∃ neg p', exponentPart 1 (c :: (sg ++ (es ++ rest))) (pure p) = (neg, rest, pure p') ∧
      Exponent p p' ∧ (p'.eValid = true ↔ es ≠ []) := by
  let q : Parsed := { p with eValid := false }
  let I : List UInt8 → Parsed → Prop := fun z p' =>
    Exponent p p' ∧ z.length ≤ (es ++ rest).length ∧
      (p'.eValid = true ↔ z.length < (es ++ rest).length)
  have hI : I (es ++ rest) q := ⟨⟨rfl, rfl, rfl, he.ge, by simp [q, he]⟩, le_rfl, by simp [q]⟩
  have hstep : ∀ b t p1, I (b :: t) p1 → isDigit p1 b = true →
      ∃ p', addExponent p1 b = pure p' ∧ I t p' := fun b t p1 hg hb => by
    obtain ⟨p', heq, hx, hv⟩ := hg.1.add (isDigit_cond p1 b hb)
    have hlt : t.length < (es ++ rest).length := hg.2.1
    exact ⟨p', heq, hx, hlt.le, by simp only [hv, hlt]⟩
  obtain ⟨l, r, p', heq, hd, hl, ⟨hx, -, hv⟩, hend⟩ := loop_spec hI isDigit_cond hstep
  obtain ⟨rfl, rfl⟩ := span_unique IsDigit heq hes hrest hd (head_not_digit hend)
  refine ⟨decide (sg = [ch '-']), p', ?_, hx, ?_⟩
  · rw [exponentPart, if_pos hc]
    simp only [Nat.sub_self, List.drop_zero, readSign_of_sign hsg hbare]
    rw [pure_bind_arith]
    exact congrArg (decide (sg = [ch '-']), ·) hl
  · rw [hv]
    simp [List.length_pos_iff]

end Sqlite.Numeric
