import Sqlite.Numeric.Atof

/-! The texts that `sqlite3AtoF` accepts as numbers. -/
namespace Sqlite.Numeric

open Foundation Utf

variable {z ws sg ds frac fs x es rest ws' : List UInt8} {b : UInt8} {p : Parsed} {k : ℤ}

def IsFraction (frac fs : List UInt8) : Prop := (frac = [] ∧ fs = []) ∨ frac = ch '.' :: fs

def IsE (c : UInt8) : Prop := c = ch 'e' ∨ c = ch 'E'

instance (c : UInt8) : Decidable (IsE c) := inferInstanceAs (Decidable (_ ∨ _))

def IsExponent (x : List UInt8) : Prop :=
  x = [] ∨ ∃ c sg es, x = c :: (sg ++ es) ∧ IsE c ∧ IsSign sg ∧ es ≠ [] ∧ ∀ b ∈ es, IsDigit b

/-- Whitespace, a sign, digits, a point with digits, an exponent and whitespace. -/
structure Numeral (z ws sg ds frac fs x ws' : List UInt8) : Prop where
  eq : z = ws ++ (sg ++ (ds ++ (frac ++ (x ++ ws'))))
  space : ∀ b ∈ ws, IsSpace b
  sign : IsSign sg
  digits : ∀ b ∈ ds, IsDigit b
  fraction : IsFraction frac fs
  fractionDigits : ∀ b ∈ fs, IsDigit b
  some_digit : ds ≠ [] ∨ fs ≠ []
  exponent : IsExponent x
  trailing : ∀ b ∈ ws', IsSpace b

def IsNumber (z : List UInt8) : Prop := ∃ ws sg ds frac fs x ws', Numeral z ws sg ds frac fs x ws'

/-- An exponent as the function reads it, which may lack its digits. -/
def ExponentShape (x es rest : List UInt8) : Prop :=
  (x = [] ∧ es = [] ∧ ∀ b ∈ rest.head?, ¬ IsE b) ∨
    ∃ c sg, x = c :: (sg ++ es) ∧ IsE c ∧ IsSign sg ∧
      (sg = [] → ∀ b ∈ (es ++ rest).head?, b ≠ ch '-' ∧ b ≠ ch '+') ∧ (∀ b ∈ es, IsDigit b) ∧
      ∀ b ∈ rest.head?, ¬ IsDigit b

/-- The parts in which the function reads a text behind the whitespace. -/
structure Shape (z sg ds frac fs x es rest : List UInt8) : Prop where
  eq : z = sg ++ (ds ++ (frac ++ (x ++ rest)))
  sign : IsSign sg
  bare : sg = [] → ∀ b ∈ (ds ++ (frac ++ (x ++ rest))).head?, b ≠ ch '-' ∧ b ≠ ch '+'
  digits : ∀ b ∈ ds, IsDigit b
  fraction : IsFraction frac fs
  fractionDigits : ∀ b ∈ fs, IsDigit b
  point : frac = [] → ∀ b ∈ (x ++ rest).head?, b ≠ ch '.'
  behind : ∀ b ∈ (x ++ rest).head?, ¬ IsDigit b
  exponent : ExponentShape x es rest

/-- The variables at `do_atof_calc`. -/
structure Bounded (p : Parsed) : Prop where
  s_nonneg : 0 ≤ p.s
  s_le : p.s ≤ LARGEST_INT64
  shift_le : -p.nDigits ≤ p.d ∧ p.d ≤ p.nDigits
  e_nonneg : 0 ≤ p.e
  e_le : p.e ≤ 99999

theorem Good.bounded (h : Good k z p) : Bounded p :=
  ⟨h.s_nonneg, h.s_le, h.shift_le, h.e_eq.ge, by rw [h.e_eq]; decide⟩

theorem exponentPart_none {m : Arith Parsed} (h : ∀ b ∈ z.head?, ¬ IsE b) :
    exponentPart 1 z m = (false, z, m) := by
  cases z with
  | nil => rfl
  | cons b t => exact if_neg (h b rfl)

/-- The digits in front of the exponent. -/
theorem Shape.mantissa (h : Shape z sg ds frac fs x es rest) (hz : z.length < 2 ^ 31) :
    ∃ p1 p, integerPart 1 (ds ++ (frac ++ (x ++ rest))) (pure ⟨0, 0, 0, true, 0⟩) =
        (frac ++ (x ++ rest), pure p1) ∧
      fractionPart 1 (frac ++ (x ++ rest)) (pure p1) = (x ++ rest, pure p) ∧
      Good (ds.length + fs.length + (x ++ rest).length) (x ++ rest) p := by
  have hlen : (ds ++ (frac ++ (x ++ rest))).length ≤ z.length := by
    rw [h.eq]
    simp
  rw [List.length_append, List.length_append] at hlen
  have hgood : Good (ds.length + frac.length + (x ++ rest).length) (ds ++ (frac ++ (x ++ rest)))
      ⟨0, 0, 0, true, 0⟩ :=
    ⟨le_rfl, by decide, le_rfl, by simp, rfl, rfl, by simp; omega, by omega⟩
  rcases h.fraction with ⟨rfl, rfl⟩ | rfl
  · obtain ⟨p, hp, hg⟩ := integerPart_spec hgood h.digits h.behind
    exact ⟨p, p, hp, fractionPart_none (h.point rfl), hg⟩
  · have hpoint : ∀ b ∈ ((ch '.' :: fs) ++ (x ++ rest)).head?, ¬ IsDigit b := by
      intro b hb
      obtain rfl : ch '.' = b := by simpa using hb
      decide
    obtain ⟨p1, hp1, hg1⟩ := integerPart_spec hgood h.digits hpoint
    obtain ⟨p, hp, hg⟩ := fractionPart_spec hg1 h.fractionDigits h.behind
    refine ⟨p1, p, hp1, hp, ?_⟩
    have hk : ((ds.length : ℤ) + (ch '.' :: fs).length + (x ++ rest).length) - 1 =
        ds.length + fs.length + (x ++ rest).length := by
      rw [List.length_cons]
      push_cast
      ring
    rwa [hk] at hg

/-- The scan stops at the rest, or behind its whitespace if it has read a number. -/
theorem Shape.atofScan_eq (h : Shape z sg ds frac fs x es rest) (hz : z.length < 2 ^ 31) :
    ∃ p neg eneg, Bounded p ∧ p.nDigits = ds.length + fs.length ∧
      (p.eValid = true ↔ x = [] ∨ es ≠ []) ∧
      atofScan 1 z = (if p.nDigits ≠ 0 ∧ p.eValid = true then rest.dropWhile sqlite3Isspace else rest,
        pure p, neg, eneg) := by
  obtain ⟨p1, p2, hint, hfrac, hg⟩ := h.mantissa hz
  have hcount := hg.count
  have hn : p2.nDigits = ds.length + fs.length := by omega
  have hread := readSign_of_sign h.sign h.bare
  rw [← h.eq] at hread
  obtain ⟨neg, p, hexp, hb, hpn, hv⟩ : ∃ eneg p,
      exponentPart 1 (x ++ rest) (pure p2) = (eneg, rest, pure p) ∧ Bounded p ∧
        p.nDigits = p2.nDigits ∧ (p.eValid = true ↔ x = [] ∨ es ≠ []) := by
    rcases h.exponent with ⟨rfl, rfl, hno⟩ | ⟨c, sg', rfl, hc, hsg, hbare, hes, hrest⟩
    · exact ⟨false, p2, exponentPart_none hno, hg.bounded, rfl, by simp [hg.eValid]⟩
    · obtain ⟨eneg, p, hexp, hx, hv⟩ := exponentPart_spec hc hsg hbare hes hrest hg.e_eq
      rw [List.cons_append, List.append_assoc]
      refine ⟨eneg, p, hexp, ⟨?_, ?_, ?_, hx.e_nonneg, hx.e_le⟩, hx.nDigits_eq, by simp [hv]⟩
      · exact hx.s_eq ▸ hg.s_nonneg
      · exact hx.s_eq ▸ hg.s_le
      · rw [hx.nDigits_eq, hx.d_eq]
        exact hg.shift_le
  refine ⟨p, decide (sg = [ch '-']), neg, hb, hpn.trans hn, hv, ?_⟩
  unfold atofScan
  rw [hread]
  dsimp only
  rw [hint]
  dsimp only
  rw [hfrac]
  dsimp only
  rw [hexp]
  dsimp only
  rw [skip_eq]
  rfl

/-! The loops over the exponent. -/

/-- The exponents that the loops are started with; the least `int` comes from an overflow. -/
def ExpRange (e : ℤ) : Prop := (0 ≤ e ∧ e < 2 ^ 31) ∨ e = -2 ^ 31

theorem bmod_int (x : ℤ) : -2 ^ 31 ≤ Int.bmod x (2 ^ 32) ∧ Int.bmod x (2 ^ 32) < 2 ^ 31 := by
  unfold Int.bmod
  dsimp only
  split_ifs <;> omega

def exponentSum (eneg : Bool) (p : Parsed) : ℤ := (if eneg then -p.e else p.e) + p.d

theorem adjust_spec (hp : Bounded p) (eneg : Bool) :
    ExpRange (adjust eneg (pure p)).2.value ∧
      ((adjust eneg (pure p)).2.value = -2 ^ 31 → (adjust eneg (pure p)).2.exact = false) ∧
      ((adjust eneg (pure p)).2.exact = true ↔
        -2 ^ 31 < exponentSum eneg p ∧ exponentSum eneg p < 2 ^ 31) := by
  have he0 := hp.e_nonneg
  have hle := hp.e_le
  have heq : adjust eneg (pure p) = if (int (exponentSum eneg p)).value < 0 then
      (-1, int (exponentSum eneg p) >>= fun e => int (e * -1)) else (1, int (exponentSum eneg p)) := by
    unfold adjust exponentSum
    have ht : int (p.e * if eneg then -1 else 1) = pure (if eneg then -p.e else p.e) := by
      rw [int_of_fits (by split_ifs <;> omega)]
      cases eneg <;> simp
    simp only [pure_bind_arith, ht]
  rw [heq]
  generalize exponentSum eneg p = x
  obtain ⟨h1, h2⟩ := bmod_int x
  have hfit : -2 ^ 31 ≤ x ∧ x < 2 ^ 31 → Int.bmod x (2 ^ 32) = x :=
    fun h => Int.bmod_eq_of_le (by omega) (by omega)
  have hval : (int x).value = Int.bmod x (2 ^ 32) := rfl
  have hex : (int x).exact = true ↔ -2 ^ 31 ≤ x ∧ x < 2 ^ 31 := decide_eq_true_iff
  generalize Int.bmod x (2 ^ 32) = w at h1 h2 hfit hval
  rw [hval]
  rcases lt_or_ge w 0 with hneg | hpos
  · rw [if_pos hneg]
    have hbv : (int x >>= fun e => int (e * -1)).value = (int (w * -1)).value := hval ▸ rfl
    have hbe : (int x >>= fun e => int (e * -1)).exact = ((int x).exact && (int (w * -1)).exact) :=
      hval ▸ rfl
    dsimp only
    rw [hbv, hbe]
    rcases eq_or_ne w (-2 ^ 31) with rfl | hmin
    · have hmv : (int (-2 ^ 31 * -1)).value = -2 ^ 31 := by decide
      have hme : (int (-2 ^ 31 * -1)).exact = false := by decide
      rw [hmv, hme, Bool.and_false]
      refine ⟨.inr rfl, fun _ => rfl, by simp, fun h => ?_⟩
      have hx := hfit ⟨h.1.le, h.2⟩
      omega
    · rw [int_of_fits (x := w * -1) (by omega)]
      have hv : (pure (w * -1) : Arith ℤ).value = w * -1 := rfl
      have he : (pure (w * -1) : Arith ℤ).exact = true := rfl
      rw [hv, he, Bool.and_true, hex]
      exact ⟨.inl (by omega), fun h => by omega, by omega, by omega⟩
  · rw [if_neg (not_lt.mpr hpos)]
    dsimp only
    rw [hval, hex]
    exact ⟨.inl ⟨hpos, h2⟩, fun h => by omega, by omega, by omega⟩

theorem step_pair {m : Arith (ℤ × ℤ)} (f : ℤ → ℤ) (hs : Fits (f m.value.1))
    (he : -2 ^ 31 ≤ m.value.2 - 1 ∧ m.value.2 - 1 < 2 ^ 31) :
    (do return (← i64 (f (← m).1), ← int ((← m).2 - 1)) : Arith (ℤ × ℤ)) =
      ⟨(f m.value.1, m.value.2 - 1), m.exact⟩ := by
  obtain ⟨⟨s, e⟩, x⟩ := m
  change (⟨((i64 (f s)).value, (int (e - 1)).value),
    x && ((i64 (f s)).exact && (x && ((int (e - 1)).exact && true)))⟩ : Arith (ℤ × ℤ)) = _
  rw [i64_of_fits hs, int_of_fits he]
  cases x <;> rfl

/-- Making the exponent small keeps the significand in its range. -/
theorem reduceLoop_spec {n : ℕ} (esign : ℤ) {m : Arith (ℤ × ℤ)} (hn : 2 ^ 31 < n)
    (hs : 0 ≤ m.value.1 ∧ m.value.1 ≤ LARGEST_INT64) (he : ExpRange m.value.2) :
    ∃ m', reduceLoop n esign m = some m' ∧ m'.exact = m.exact ∧
      (0 ≤ m'.value.1 ∧ m'.value.1 ≤ LARGEST_INT64) ∧ ExpRange m'.value.2 ∧
      (m'.value.2 = -2 ^ 31 → m.value.2 = -2 ^ 31) := by
  let I : Arith (ℤ × ℤ) → Prop := fun m' => m'.exact = m.exact ∧
    (0 ≤ m'.value.1 ∧ m'.value.1 ≤ LARGEST_INT64) ∧ ExpRange m'.value.2 ∧
      (m'.value.2 = -2 ^ 31 → m.value.2 = -2 ^ 31)
  have hI : I m := ⟨rfl, hs, he, id⟩
  have hfuel : m.value.2.toNat < n := by
    rcases he with he | he <;> omega
  have hstep : ∀ (f : ℤ → ℤ) (m' : Arith (ℤ × ℤ)), I m' →
      0 ≤ f m'.value.1 ∧ f m'.value.1 ≤ LARGEST_INT64 → m'.value.2 > 0 →
      let next : Arith (ℤ × ℤ) := do return (← i64 (f (← m').1), ← int ((← m').2 - 1))
      I next ∧ next.value.2.toNat < m'.value.2.toNat := by
    rintro f m' ⟨hx, -, hr, -⟩ hs hpos
    have hrange : 0 ≤ m'.value.2 - 1 ∧ m'.value.2 - 1 < 2 ^ 31 := by
      rcases hr with hr | hr <;> omega
    have hmin := fits_iff.mpr ⟨by omega, largest_eq ▸ hs.2⟩
    dsimp only
    rw [step_pair f hmin (by omega)]
    exact ⟨⟨hx, hs, .inl hrange, fun h => by dsimp only at h; omega⟩, by dsimp only; omega⟩
  unfold reduceLoop
  split_ifs
  · refine Exists.imp (fun m' h => ⟨h.1, h.2.1⟩)
      (whileLoop_spec (fun m => m.value.2.toNat) hI (fun m' hm' hc => ?_) hfuel)
    obtain ⟨hlt, hpos⟩ := of_decide_eq_true hc
    have hs' := hm'.2.1
    rw [largest_eq] at hlt hs'
    exact hstep (· * 10) m' hm' ⟨by omega, by rw [largest_eq]; omega⟩ hpos
  · refine Exists.imp (fun m' h => ⟨h.1, h.2.1⟩)
      (whileLoop_spec (fun m => m.value.2.toNat) hI (fun m' hm' hc => ?_) hfuel)
    obtain ⟨-, hpos⟩ := of_decide_eq_true hc
    have hs' := hm'.2.1
    have hdiv : m'.value.1.tdiv 10 = m'.value.1 / 10 := Int.tdiv_eq_ediv_of_nonneg hs'.1
    exact hstep (·.tdiv 10) m' hm' (by rw [hdiv]; omega) hpos

/-- Where the exponent has overflowed to the least `int`, so does the first step. -/
theorem stepLoop_spec {n : ℕ} {k : ℤ} {m : Arith ℤ} (hn : 2 ^ 31 < n)
    (he : ExpRange m.value) (hmin : m.value = -2 ^ 31 → m.exact = false) :
    ∃ m', stepLoop n k m = some m' ∧ m'.exact = m.exact ∧ ExpRange m'.value ∧
      m'.value.tmod k = 0 := by
  let I : Arith ℤ → Prop := fun m' => m'.exact = m.exact ∧ ExpRange m'.value ∧
    (m'.value = -2 ^ 31 → m'.exact = false)
  let μ : Arith ℤ → ℕ := fun m' => if m'.value = -2 ^ 31 then 2 ^ 31 else m'.value.toNat
  have hμ : ∀ v : ℤ, 0 ≤ v → ∀ y, μ ⟨v, y⟩ = v.toNat := fun v hv y => if_neg (by dsimp only; omega)
  have hstep : ∀ m', I m' → decide (m'.value.tmod k ≠ 0) = true →
      I (do int ((← m') - 1)) ∧ μ (do int ((← m') - 1)) < μ m' := by
    rintro ⟨e, x⟩ ⟨(hx : x = m.exact), (hr : ExpRange e), (hm : e = -2 ^ 31 → x = false)⟩ hc
    have hne : e.tmod k ≠ 0 := of_decide_eq_true hc
    change I ⟨(int (e - 1)).value, x && (int (e - 1)).exact⟩ ∧
      μ ⟨(int (e - 1)).value, x && (int (e - 1)).exact⟩ < μ ⟨e, x⟩
    rcases hr with hr | rfl
    · have hpos : 0 < e := by
        rcases eq_or_ne e 0 with rfl | h0
        · exact absurd (Int.zero_tmod k) hne
        · omega
      rw [int_of_fits (by omega), hμ e hr.1]
      change I ⟨e - 1, x && true⟩ ∧ μ ⟨e - 1, x && true⟩ < e.toNat
      rw [Bool.and_true, hμ (e - 1) (by omega)]
      exact ⟨⟨hx, .inl ⟨by dsimp only; omega, by dsimp only; omega⟩, fun h => by dsimp only at h; omega⟩,
        by omega⟩
    · have hwrap : int (-2 ^ 31 - 1) = ⟨2 ^ 31 - 1, false⟩ := by decide
      rw [hwrap, Bool.and_false]
      refine ⟨⟨hx ▸ (hm rfl).symm, .inl (by decide), fun _ => rfl⟩, ?_⟩
      have hlow : μ ⟨-2 ^ 31, x⟩ = 2 ^ 31 := if_pos rfl
      rw [hμ _ (by decide), hlow]
      decide
  obtain ⟨m', hrun, hI, hc⟩ := whileLoop_spec (n := n) μ (show I m from ⟨rfl, he, hmin⟩) hstep (by
    change (if m.value = -2 ^ 31 then 2 ^ 31 else m.value.toNat) < n
    rcases he with he | he <;> split_ifs <;> omega)
  refine ⟨m', hrun, hI.1, hI.2.1, ?_⟩
  simpa using hc

theorem scaleLoops_spec {n : ℕ} {m : Arith ℤ} (hn : 2 ^ 31 < n) (he : ExpRange m.value)
    (hmin : m.value = -2 ^ 31 → m.exact = false) :
    ∃ m', scaleLoops n m = some m' ∧ m'.exact = m.exact := by
  unfold scaleLoops
  split_ifs
  · exact ⟨m, rfl, rfl⟩
  · obtain ⟨m', hrun, hx, -⟩ := stepLoop_spec hn he hmin
    exact ⟨m', hrun, hx⟩
  · exact ⟨m, rfl, rfl⟩
  · obtain ⟨m1, hrun, hx, hr, hmod⟩ := stepLoop_spec hn he hmin
    rw [hrun, Option.bind_some]
    have hr1 : 0 ≤ m1.value ∧ m1.value < 2 ^ 31 := by
      rcases hr with hr | hr
      · exact hr
      · rw [hr] at hmod
        exact absurd hmod (by decide)
    let I : Arith ℤ → Prop := fun m' => m'.exact = m.exact ∧
      (0 ≤ m'.value ∧ m'.value < 2 ^ 31) ∧ m'.value % 22 = 0
    have hmod1 : m1.value % 22 = 0 := by
      rwa [Int.tmod_eq_emod_of_nonneg hr1.1] at hmod
    have hstep : ∀ m', I m' → decide (m'.value > 0) = true → I (do int ((← m') - 22)) ∧
        (do int ((← m') - 22) : Arith ℤ).value.toNat < m'.value.toNat := by
      rintro ⟨e, x⟩ ⟨(hx : x = m.exact), (hr : 0 ≤ e ∧ e < 2 ^ 31), (hm : e % 22 = 0)⟩ hc
      have hpos : e > 0 := of_decide_eq_true hc
      change I ⟨(int (e - 22)).value, x && (int (e - 22)).exact⟩ ∧
        (int (e - 22)).value.toNat < e.toNat
      rw [int_of_fits (by omega)]
      change I ⟨e - 22, x && true⟩ ∧ (e - 22).toNat < e.toNat
      rw [Bool.and_true]
      exact ⟨⟨hx, ⟨by dsimp only; omega, by dsimp only; omega⟩, by dsimp only; omega⟩, by omega⟩
    obtain ⟨m', hrun', hI, -⟩ := whileLoop_spec (n := n) (fun m => m.value.toNat)
      (show I m1 from ⟨hx, hr1, hmod1⟩) hstep (by omega)
    exact ⟨m', hrun', hI.1⟩

/-- Whatever the exponent, the computation ends, and only the exponent's sum can overflow. -/
theorem atofCalc_spec {n : ℕ} (hn : 2 ^ 31 < n) (hp : Bounded p) (neg eneg : Bool) :
    ∃ m, atofCalc n neg eneg (pure p) = some m ∧ Fits m.value.s ∧
      (m.exact = true ↔ -2 ^ 31 < exponentSum eneg p ∧ exponentSum eneg p < 2 ^ 31) := by
  obtain ⟨hr, hmin, hx⟩ := adjust_spec hp eneg
  rw [← hx]
  unfold atofCalc
  generalize adjust eneg (pure p) = a at hr hmin ⊢
  obtain ⟨esign, e, x⟩ := a
  dsimp only at hr hmin ⊢
  have hval : (pure p : Arith Parsed).value = p := rfl
  rw [hval]
  by_cases hs : p.s = 0
  · rw [if_pos hs]
    exact ⟨_, rfl, show Fits 0 by decide, by cases x <;> simp [bind, pure]⟩
  · obtain ⟨⟨⟨s1, e1⟩, x1⟩, hrun1, (hx1 : x1 = (x && true)), hs1, (hr1 : ExpRange e1), hm1⟩ :=
      reduceLoop_spec esign (m := (⟨e, x⟩ : Arith ℤ) >>= fun e => pure (p.s, e)) hn
        ⟨hp.s_nonneg, hp.s_le⟩ hr
    rw [Bool.and_true] at hx1
    subst hx1
    rw [if_neg hs, hrun1, Option.bind_some]
    have hneg : ∃ s2, Fits s2 ∧ (do
        let p ← (⟨(s1, e1), x1⟩ : Arith (ℤ × ℤ))
        if neg then return (← i64 (-p.1), p.2) else return p) = ⟨(s2, e1), x1⟩ := by
      dsimp only at hs1
      rw [largest_eq] at hs1
      cases neg
      · refine ⟨s1, fits_iff.mpr (by omega), ?_⟩
        change (⟨(s1, e1), x1 && true⟩ : Arith (ℤ × ℤ)) = _
        rw [Bool.and_true]
      · have hfit : Fits (-s1) := fits_iff.mpr (by omega)
        refine ⟨-s1, hfit, ?_⟩
        change (⟨((i64 (-s1)).value, e1), x1 && ((i64 (-s1)).exact && true)⟩ : Arith (ℤ × ℤ)) = _
        rw [i64_of_fits hfit]
        change (⟨(-s1, e1), x1 && true⟩ : Arith (ℤ × ℤ)) = _
        rw [Bool.and_true]
    obtain ⟨s2, hs2, heq⟩ := hneg
    rw [heq]
    have hmin1 : e1 = -2 ^ 31 → (x1 && true) = false := fun h => by
      rw [Bool.and_true]
      exact hmin (hm1 h)
    obtain ⟨⟨rest, y⟩, hrun2, (hy : y = (x1 && true))⟩ :=
      scaleLoops_spec (m := (⟨(s2, e1), x1⟩ : Arith (ℤ × ℤ)) >>= fun p => pure p.2) hn hr1 hmin1
    rw [Bool.and_true] at hy
    subst hy
    rw [hrun2]
    refine ⟨_, rfl, hs2, ?_⟩
    change (y && (y && true)) = true ↔ _
    rw [Bool.and_true, Bool.and_self]

/-! The texts. -/

theorem exponent_split (z : List UInt8) : ∃ x es rest, z = x ++ rest ∧ ExponentShape x es rest := by
  cases z with
  | nil => exact ⟨[], [], [], rfl, .inl ⟨rfl, rfl, by simp⟩⟩
  | cons c t =>
    by_cases hc : IsE c
    · obtain ⟨sg, r, rfl, hsg, hbare⟩ := sign_split t
      obtain ⟨es, rest, rfl, hes, hrest⟩ := span_split IsDigit r
      exact ⟨c :: (sg ++ es), es, rest, by simp, .inr ⟨c, sg, rfl, hc, hsg, hbare, hes, hrest⟩⟩
    · exact ⟨[], [], c :: t, rfl, .inl ⟨rfl, rfl, by simpa using hc⟩⟩

theorem exists_shape (z : List UInt8) : ∃ sg ds frac fs x es rest, Shape z sg ds frac fs x es rest := by
  obtain ⟨sg, z1, rfl, hsg, hbare⟩ := sign_split z
  obtain ⟨ds, z2, rfl, hds, hz2⟩ := span_split IsDigit z1
  by_cases hpoint : z2.head? = some (ch '.')
  · obtain ⟨t, rfl⟩ : ∃ t, z2 = ch '.' :: t := by
      cases z2 with
      | nil => cases hpoint
      | cons b t => exact ⟨t, by rw [Option.some.inj hpoint]⟩
    obtain ⟨fs, z3, rfl, hfs, hz3⟩ := span_split IsDigit t
    obtain ⟨x, es, rest, rfl, hx⟩ := exponent_split z3
    exact ⟨sg, ds, ch '.' :: fs, fs, x, es, rest,
      ⟨rfl, hsg, hbare, hds, .inr rfl, hfs, by simp, hz3, hx⟩⟩
  · obtain ⟨x, es, rest, rfl, hx⟩ := exponent_split z2
    refine ⟨sg, ds, [], [], x, es, rest,
      ⟨rfl, hsg, hbare, hds, .inl ⟨rfl, rfl⟩, by simp, fun _ b hb => ?_, hz2, hx⟩⟩
    rintro rfl
    exact hpoint hb

theorem IsSpace.other (h : IsSpace b) : ¬ IsDigit b ∧ b ≠ ch '.' ∧ ¬ IsE b := by
  refine ⟨fun hd => hd.not_space h, ?_, ?_⟩
  · rintro rfl
    exact absurd h (by decide)
  · rintro (rfl | rfl) <;> exact absurd h (by decide)

theorem IsE.other (h : IsE b) : ¬ IsDigit b ∧ b ≠ ch '.' := by
  rcases h with rfl | rfl <;> decide

theorem head_space (h : ∀ b ∈ ws', IsSpace b) : ∀ b ∈ ws'.head?, IsSpace b :=
  fun b hb => h b (List.mem_of_mem_head? hb)

/-- A number as the function reads it. -/
theorem Numeral.shape (h : Numeral z ws sg ds frac fs x ws') :
    ∃ es, Shape (skip sqlite3Isspace 1 z) sg ds frac fs x es ws' ∧ (x = [] ∨ es ≠ []) := by
  have hbehind : ∀ b ∈ (x ++ ws').head?, ¬ IsDigit b ∧ b ≠ ch '.' := by
    intro b hb
    rcases h.exponent with rfl | ⟨c, sg', es, rfl, hc, -⟩
    · have hs := (head_space h.trailing b hb).other
      exact ⟨hs.1, hs.2.1⟩
    · obtain rfl : c = b := by simpa using hb
      exact hc.other
  have hmant : ∀ b ∈ (ds ++ (frac ++ (x ++ ws'))).head?, IsDigit b ∨ b = ch '.' := by
    intro b hb
    cases ds with
    | cons c ds =>
      obtain rfl : c = b := by simpa using hb
      exact .inl (h.digits c List.mem_cons_self)
    | nil =>
      rcases h.fraction with ⟨rfl, rfl⟩ | rfl
      · simpa using h.some_digit
      · obtain rfl : ch '.' = b := by simpa using hb
        exact .inr rfl
  have hbare : sg = [] → ∀ b ∈ (ds ++ (frac ++ (x ++ ws'))).head?, b ≠ ch '-' ∧ b ≠ ch '+' := by
    rintro - b hb
    rcases hmant b hb with hd | rfl
    · exact hd.ne_sign
    · decide
  have hskip : skip sqlite3Isspace 1 z = sg ++ (ds ++ (frac ++ (x ++ ws'))) := by
    rw [skip_eq, h.eq]
    refine (dropWhile_append_of (fun b hb => sqlite3Isspace_iff.mpr (h.space b hb)) fun b hb => ?_).1
    rw [← Bool.not_eq_true, sqlite3Isspace_iff]
    rcases h.sign with rfl | rfl | rfl
    · rcases hmant b hb with hd | rfl
      · exact hd.not_space
      · decide
    · obtain rfl : ch '+' = b := by simpa using hb
      decide
    · obtain rfl : ch '-' = b := by simpa using hb
      decide
  have hfrac : frac = [] → ∀ b ∈ (x ++ ws').head?, b ≠ ch '.' := fun _ b hb => (hbehind b hb).2
  rcases h.exponent with rfl | ⟨c, sg', es, rfl, hc, hsg, hne, hes⟩
  · exact ⟨[], ⟨hskip, h.sign, hbare, h.digits, h.fraction, h.fractionDigits, hfrac,
      fun b hb => (hbehind b hb).1, .inl ⟨rfl, rfl, fun b hb => (head_space h.trailing b hb).other.2.2⟩⟩,
      .inl rfl⟩
  · refine ⟨es, ⟨hskip, h.sign, hbare, h.digits, h.fraction, h.fractionDigits, hfrac,
      fun b hb => (hbehind b hb).1, .inr ⟨c, sg', rfl, hc, hsg, fun _ b hb => ?_, hes,
        fun b hb => (head_space h.trailing b hb).other.1⟩⟩, .inr hne⟩
    cases es with
    | nil => exact absurd rfl hne
    | cons d es =>
      obtain rfl : d = b := by simpa using hb
      exact (hes d List.mem_cons_self).ne_sign

def Accepted (r : List UInt8 × Arith Parsed × Bool × Bool) : Prop :=
  r.1 = [] ∧ r.2.1.value.nDigits > 0 ∧ r.2.1.value.eValid = true

/-- The texts are accepted of which all parts are there and nothing is left. -/
theorem Shape.accepted_iff (h : Shape z sg ds frac fs x es rest) (hz : z.length < 2 ^ 31) :
    Accepted (atofScan 1 z) ↔
      (ds ≠ [] ∨ fs ≠ []) ∧ (x = [] ∨ es ≠ []) ∧ rest.dropWhile sqlite3Isspace = [] := by
  obtain ⟨p, neg, eneg, -, hn, hv, heq⟩ := h.atofScan_eq hz
  have hpos : p.nDigits > 0 ↔ ds ≠ [] ∨ fs ≠ [] := by
    rw [hn, ← List.length_pos_iff, ← List.length_pos_iff]
    omega
  rw [heq, ← hv, ← hpos]
  change (if p.nDigits ≠ 0 ∧ p.eValid = true then rest.dropWhile sqlite3Isspace else rest) = [] ∧
    p.nDigits > 0 ∧ p.eValid = true ↔ _
  constructor
  · rintro ⟨hrest, hp, he⟩
    rw [if_pos ⟨hp.ne', he⟩] at hrest
    exact ⟨hp, he, hrest⟩
  · rintro ⟨hp, he, hrest⟩
    rw [if_pos ⟨hp.ne', he⟩]
    exact ⟨hrest, hp, he⟩

theorem length_skip_le (p : UInt8 → Bool) (z : List UInt8) : (skip p 1 z).length ≤ z.length := by
  rw [skip_eq]
  exact (List.dropWhile_suffix p).length_le

theorem dropWhile_space {l : List UInt8} :
    l.dropWhile sqlite3Isspace = [] ↔ ∀ b ∈ l, IsSpace b := by
  simp [List.dropWhile_eq_nil_iff, sqlite3Isspace_iff]

theorem accepted_iff (hz : z.length < 2 ^ 31) :
    Accepted (atofScan 1 (skip sqlite3Isspace 1 z)) ↔ IsNumber z := by
  have hz0 := (length_skip_le sqlite3Isspace z).trans_lt hz
  constructor
  · intro hacc
    obtain ⟨sg, ds, frac, fs, x, es, rest, h⟩ := exists_shape (skip sqlite3Isspace 1 z)
    obtain ⟨hdigit, hexp, hrest⟩ := (h.accepted_iff hz0).mp hacc
    refine ⟨z.takeWhile sqlite3Isspace, sg, ds, frac, fs, x, rest, ?_, fun b hb => ?_, h.sign, h.digits,
      h.fraction, h.fractionDigits, hdigit, ?_, dropWhile_space.mp hrest⟩
    · rw [← h.eq, skip_eq, List.takeWhile_append_dropWhile]
    · exact sqlite3Isspace_iff.mp (List.mem_takeWhile_imp hb)
    · rcases h.exponent with ⟨hx, -⟩ | ⟨c, sg', hx, hc, hsg, -, hes, -⟩
      · exact .inl hx
      · refine .inr ⟨c, sg', es, hx, hc, hsg, hexp.resolve_left ?_, hes⟩
        rw [hx]
        exact List.cons_ne_nil _ _
  · rintro ⟨ws, sg, ds, frac, fs, x, ws', h⟩
    obtain ⟨es, hs, hexp⟩ := h.shape
    exact (hs.accepted_iff hz0).mpr ⟨h.some_digit, hexp, dropWhile_space.mpr h.trailing⟩

/-- The result from those of the scan and of the computation. -/
theorem sqlite3AtoF_of_scan {n : ℕ} {z' : List UInt8} {neg eneg : Bool} {mc : Arith Scaled}
    (hne : skip sqlite3Isspace 1 z ≠ [])
    (hscan : atofScan 1 (skip sqlite3Isspace 1 z) = (z', pure p, neg, eneg))
    (hcalc : atofCalc n neg eneg (pure p) = some mc) :
    ∃ m, sqlite3AtoF n z .SQLITE_UTF8 = some m ∧
      (m.value.ret = true ↔ Accepted (atofScan 1 (skip sqlite3Isspace 1 z))) ∧ m.exact = mc.exact := by
  change ∃ m, atof n 1 z = some m ∧ _
  unfold atof
  dsimp only
  rw [if_neg hne, hscan]
  dsimp only
  rw [hcalc]
  refine ⟨_, rfl, decide_eq_true_iff, ?_⟩
  change (mc.exact && (true && true)) = mc.exact
  rw [Bool.and_true, Bool.and_true]

theorem atofScan_nil : atofScan 1 [] = ([], pure ⟨0, 0, 0, true, 0⟩, false, false) := by
  simp [atofScan, readSign, integerPart, loop, scan_nil, fractionPart, exponentPart, skip]

/-- The loops end, and the result tells whether the text is a number. -/
theorem sqlite3AtoF_result {n : ℕ} (hz : z.length < 2 ^ 31) (hn : 2 ^ 31 < n) :
    ∃ p neg eneg z' m, Bounded p ∧ p.nDigits ≤ z.length ∧
      atofScan 1 (skip sqlite3Isspace 1 z) = (z', pure p, neg, eneg) ∧
      sqlite3AtoF n z .SQLITE_UTF8 = some m ∧ (m.value.ret = true ↔ IsNumber z) ∧
      (m.exact = true ↔ -2 ^ 31 < exponentSum eneg p ∧ exponentSum eneg p < 2 ^ 31) := by
  have hz0 := (length_skip_le sqlite3Isspace z).trans_lt hz
  obtain ⟨sg, ds, frac, fs, x, es, rest, h⟩ := exists_shape (skip sqlite3Isspace 1 z)
  obtain ⟨p, neg, eneg, hb, hdigits, -, heq⟩ := h.atofScan_eq hz0
  obtain ⟨mc, hcalc, -, hexact⟩ := atofCalc_spec hn hb neg eneg
  have hacc := accepted_iff hz
  have hlen : p.nDigits ≤ z.length := by
    have hle := length_skip_le sqlite3Isspace z
    have hparts := congrArg List.length h.eq
    have hfrac : fs.length ≤ frac.length := by
      rcases h.fraction with ⟨rfl, rfl⟩ | rfl <;> simp
    simp only [List.length_append] at hparts
    omega
  generalize (if p.nDigits ≠ 0 ∧ p.eValid = true then rest.dropWhile sqlite3Isspace else rest) = z'
    at heq
  refine ⟨p, neg, eneg, z', ?_⟩
  by_cases hnil : skip sqlite3Isspace 1 z = []
  · rw [hnil, atofScan_nil] at heq hacc
    have hp0 : p = ⟨0, 0, 0, true, 0⟩ := congrArg (·.2.1.value) heq.symm
    have hneg : eneg = false := congrArg (·.2.2.2) heq.symm
    subst hp0 hneg
    have hno : ¬ IsNumber z := fun hn => absurd (hacc.mpr hn).2.1 (lt_irrefl _)
    have hsum : -2 ^ 31 < exponentSum false ⟨0, 0, 0, true, 0⟩ ∧
        exponentSum false ⟨0, 0, 0, true, 0⟩ < 2 ^ 31 := by decide
    rw [hnil, atofScan_nil]
    exact ⟨_, hb, hlen, heq, if_pos hnil, by simpa [pure] using hno, by simpa [pure] using hsum⟩
  · obtain ⟨m, hrun, hret, hx⟩ := sqlite3AtoF_of_scan hnil heq hcalc
    exact ⟨m, hb, hlen, heq, hrun, hret.trans hacc, by rw [hx, hexact]⟩

/-- `sqlite3AtoF` accepts the numbers, its loops end, the significand stays in its range, and the one
operation that can overflow is the sum of the exponent and the shift. -/
theorem atof_sound {n : ℕ} (hz : z.length < 2 ^ 31) (hn : 2 ^ 31 < n) :
    ∃ p neg eneg z' m, atofScan 1 (skip sqlite3Isspace 1 z) = (z', pure p, neg, eneg) ∧
      sqlite3AtoF n z .SQLITE_UTF8 = some m ∧ (m.value.ret = true ↔ IsNumber z) ∧
      (0 ≤ p.s ∧ p.s ≤ LARGEST_INT64) ∧
      (∀ esign e, ExpRange e → ∃ s' e', reduceLoop n esign (pure (p.s, e)) = some (pure (s', e')) ∧
        0 ≤ s' ∧ s' ≤ LARGEST_INT64) ∧
      (m.exact = true ↔ -2 ^ 31 < exponentSum eneg p ∧ exponentSum eneg p < 2 ^ 31) ∧
      (z.length ≤ 2 ^ 31 - 100000 → m.exact = true) := by
  obtain ⟨p, neg, eneg, z', m, hb, hlen, hscan, hrun, hret, hexact⟩ := sqlite3AtoF_result hz hn
  refine ⟨p, neg, eneg, z', m, hscan, hrun, hret, ⟨hb.s_nonneg, hb.s_le⟩, fun esign e he => ?_, hexact,
    fun hle => hexact.mpr ?_⟩
  · obtain ⟨⟨⟨s', e'⟩, x⟩, hrun, (hx : x = true), hs, -⟩ := reduceLoop_spec esign
      (m := (pure (p.s, e) : Arith (ℤ × ℤ))) hn ⟨hb.s_nonneg, hb.s_le⟩ he
    subst hx
    exact ⟨s', e', hrun, hs⟩
  · have hshift := hb.shift_le
    have he0 := hb.e_nonneg
    have hele := hb.e_le
    unfold exponentSum
    split_ifs <;> omega

def text (s : String) : List UInt8 := s.toList.map ch

theorem atof_sound_decimal :
    (text "-1.5e3").length < 2 ^ 31 ∧ 2 ^ 31 < 2 ^ 31 + 1 ∧
      ∃ m, sqlite3AtoF (2 ^ 31 + 1) (text "-1.5e3") .SQLITE_UTF8 = some m ∧ m.value.ret = true ∧
        m.exact = true := by
  have hz : (text "-1.5e3").length < 2 ^ 31 := by decide
  have hn : 2 ^ 31 < 2 ^ 31 + 1 := by decide
  obtain ⟨-, -, -, -, m, -, hrun, hret, -, -, -, hexact⟩ := atof_sound hz hn
  have hdigits : ∀ b ∈ text "1", IsDigit b := by simp [text, ch, IsDigit]
  have hfraction : ∀ b ∈ text "5", IsDigit b := by simp [text, ch, IsDigit]
  have hexponent : ∀ b ∈ text "3", IsDigit b := by simp [text, ch, IsDigit]
  have hnum : IsNumber (text "-1.5e3") :=
    ⟨[], text "-", text "1", text ".5", text "5", text "e3", [], by decide, by simp, by decide,
      hdigits, .inr rfl, hfraction, by decide,
      .inr ⟨ch 'e', [], text "3", by decide, by decide, by decide, by decide, hexponent⟩, by simp⟩
  exact ⟨hz, hn, m, hrun, hret.mpr hnum, hexact (by decide)⟩

/-- A fraction with as many zeros as an `int` can count, and a small exponent. -/
def tooLong (zeros : ℕ) : List UInt8 := ch '.' :: (List.replicate zeros (ch '0') ++ text "e-99999")

theorem loop_stop {cond : Parsed → UInt8 → Bool} {body : Parsed → UInt8 → Arith Parsed}
    (h : ∀ b ∈ z.head?, cond p b = false) : loop cond body 1 z (pure p) = (z, pure p) := by
  cases z with
  | nil => exact scan_nil
  | cons b t =>
    refine scan_cons.trans (if_neg ?_)
    rw [Bool.not_eq_true]
    exact h b rfl

theorem loop_step {cond : Parsed → UInt8 → Bool} {body : Parsed → UInt8 → Arith Parsed}
    {t : List UInt8} {p' : Parsed} (h : cond p b = true) (hbody : body p b = pure p') :
    loop cond body 1 (b :: t) (pure p) = loop cond body 1 t (pure p') := by
  rw [← hbody]
  exact scan_cons.trans (if_pos h)

theorem zeros_loop {j : ℕ} {t : List UInt8} {d nd : ℤ} (hd : -nd ≤ d ∧ d ≤ nd) (hn : 0 ≤ nd)
    (hj : nd + j + t.length < 2 ^ 31) (ht : ∀ b ∈ t.head?, ¬ IsDigit b) :
    loop hasRoom (fun p b => addDigit p b >>= fun p => countDigit p b >>= shift (-1)) 1
        (List.replicate j (ch '0') ++ t) (pure ⟨0, d, 0, true, nd⟩) =
      (t, pure ⟨0, d - j, 0, true, nd + j⟩) := by
  induction j generalizing d nd with
  | zero =>
    simp only [List.replicate_zero, List.nil_append, Nat.cast_zero, sub_zero, add_zero]
    refine loop_stop fun b hb => ?_
    rw [← Bool.not_eq_true, hasRoom_iff]
    exact fun h => ht b hb h.1
  | succ j ih =>
    have hg : Good (nd + (List.replicate (j + 1) (ch '0') ++ t).length)
        (ch '0' :: (List.replicate j (ch '0') ++ t)) ⟨0, d, 0, true, nd⟩ :=
      ⟨le_rfl, show 0 ≤ LARGEST_INT64 by decide, hn, hd, rfl, rfl, by simp [List.replicate_succ],
        by simp; omega⟩
    have hroom : hasRoom ⟨0, d, 0, true, nd⟩ (ch '0') = true :=
      hasRoom_iff.mpr ⟨zero_isDigit, show 0 < (LARGEST_INT64 - 9) / 10 by decide⟩
    rw [List.replicate_succ, List.cons_append, loop_step hroom (hg.add_shift hroom).1]
    have hnext : nd + 1 + j + t.length < 2 ^ 31 := by
      push_cast at hj
      omega
    refine (ih (by omega : -(nd + 1) ≤ d + -1 ∧ d + -1 ≤ nd + 1) (by omega) hnext).trans ?_
    push_cast
    congr 3 <;> omega

theorem nine_step {d e nd : ℤ} {v : Bool} {t : List UInt8} (he : 0 ≤ e ∧ e < 10000) :
    loop isDigit addExponent 1 (ch '9' :: t) (pure ⟨0, d, e, v, nd⟩) =
      loop isDigit addExponent 1 t (pure ⟨0, d, e * 10 + 9, true, nd⟩) := by
  refine loop_step (sqlite3Isdigit_iff.mpr (by decide)) ?_
  have h9 : digit (ch '9') = 9 := by decide
  unfold addExponent
  dsimp only
  rw [if_pos he.2, int_of_fits (x := e * 10) (by omega), pure_bind_arith, h9, int_of_fits (by omega)]
  rfl

theorem atofScan_tooLong {k : ℕ} (hk : k + 9 ≤ 2 ^ 31) :
    atofScan 1 (tooLong k) = ([], pure ⟨0, -k, 99999, true, k⟩, false, true) := by
  have hsign : readSign 1 (tooLong k) = (false, tooLong k) := rfl
  have hint : integerPart 1 (tooLong k) (pure ⟨0, 0, 0, true, 0⟩) =
      (tooLong k, pure ⟨0, 0, 0, true, 0⟩) := by
    have hhead : ∀ b ∈ (tooLong k).head?, b = ch '.' := fun b hb => (Option.some.inj hb).symm
    unfold integerPart
    rw [loop_stop fun b hb => hhead b hb ▸ by decide]
    dsimp only
    rw [loop_stop fun b hb => hhead b hb ▸ by decide]
    dsimp only
    rw [loop_stop fun b hb => hhead b hb ▸ by decide]
  have hfrac : fractionPart 1 (tooLong k) (pure ⟨0, 0, 0, true, 0⟩) =
      (text "e-99999", pure ⟨0, -k, 0, true, k⟩) := by
    have hlen : (text "e-99999").length = 7 := rfl
    rw [tooLong, fractionPart, if_pos rfl]
    simp only [Nat.sub_self, List.drop_zero]
    have hnot : ∀ b ∈ (text "e-99999").head?, ¬ IsDigit b := fun b hb =>
      Option.some.inj hb ▸ by decide
    rw [zeros_loop (by omega) le_rfl (by rw [hlen]; omega) hnot, zero_sub, zero_add]
    exact loop_stop fun b hb => by
      obtain rfl : ch 'e' = b := Option.some.inj hb
      rfl
  have hexp : exponentPart 1 (text "e-99999") (pure ⟨0, -k, 0, true, k⟩) =
      (true, [], pure ⟨0, -k, 99999, true, k⟩) := by
    have htext : text "e-99999" = ch 'e' :: ch '-' :: List.replicate 5 (ch '9') := rfl
    rw [htext, exponentPart, if_pos (.inl rfl)]
    rw [pure_bind_arith]
    have hloop : loop isDigit addExponent 1 (List.replicate 5 (ch '9')) (pure ⟨0, -k, 0, false, k⟩) =
        ([], pure ⟨0, -k, 99999, true, k⟩) := by
      simp only [List.replicate]
      rw [nine_step (by decide), nine_step (by decide), nine_step (by decide), nine_step (by decide),
        nine_step (by decide)]
      exact scan_nil
    exact congrArg (true, ·) hloop
  unfold atofScan
  rw [hsign]
  dsimp only
  rw [hint]
  dsimp only
  rw [hfrac]
  dsimp only
  rw [hexp]
  simp [skip, scan_nil]

/-- The sum of the exponent and the shift does not fit in an `int`. -/
theorem tooLong_inexact {k : ℕ} (hk : k + 9 = 2 ^ 31) :
    (tooLong k).length < 2 ^ 31 ∧
      ∃ m, sqlite3AtoF (2 ^ 31 + 1) (tooLong k) .SQLITE_UTF8 = some m ∧ m.exact = false := by
  have hlen : (tooLong k).length = k + 8 := by simp [tooLong, text]
  have hskip : skip sqlite3Isspace 1 (tooLong k) = tooLong k := by
    rw [skip_eq, tooLong, List.dropWhile_cons_of_neg (by decide)]
  have hb : Bounded ⟨0, -k, 99999, true, k⟩ :=
    ⟨le_rfl, show 0 ≤ LARGEST_INT64 by decide, ⟨le_rfl, by dsimp only; omega⟩, by simp, by simp⟩
  obtain ⟨mc, hcalc, -, hexact⟩ := atofCalc_spec (Nat.lt_succ_self (2 ^ 31)) hb false true
  have hscan := atofScan_tooLong hk.le
  obtain ⟨m, hrun, -, hx⟩ := sqlite3AtoF_of_scan (by rw [hskip]; exact List.cons_ne_nil _ _)
    (by rw [hskip, hscan]) hcalc
  refine ⟨by omega, m, hrun, ?_⟩
  rw [hx, ← Bool.not_eq_true, hexact]
  have hsum : exponentSum true ⟨0, -k, 99999, true, k⟩ = -99999 + -k := rfl
  rw [hsum]
  omega

theorem atof_exponent_overflows :
    (tooLong (2 ^ 31 - 9)).length < 2 ^ 31 ∧
      ∃ m, sqlite3AtoF (2 ^ 31 + 1) (tooLong (2 ^ 31 - 9)) .SQLITE_UTF8 = some m ∧ m.exact = false :=
  tooLong_inexact (by norm_num)

end Sqlite.Numeric
