import Sqlite.Doclist.PhraseRows

/-! `fts3DoclistPhraseMerge`: when its output stays behind the bytes still to be read, and what it is. -/
namespace Sqlite.Doclist

open Fts (sqlite3Fts3PutVarint sqlite3Fts3GetVarint)
open Foundation

variable {desc : Bool} {n : ℕ} {l l1 l2 pre suf : Entries} {e f g : ℤ × Poslist}

theorem length_docid_step {p d : ℤ} (hp : 0 ≤ p) (hpd : p < d) (hd : d < 2 ^ 63) :
    (sqlite3Fts3PutVarint (u64 d)).length ≤
      (sqlite3Fts3PutVarint (u64 p)).length + (sqlite3Fts3PutVarint (delta false (some p) d)).length := by
  have hadd : u64 d = u64 p + delta false (some p) d := by
    simp only [delta, u64, Bool.false_eq_true, if_false]
    omega
  rw [hadd]
  exact length_putVarint_add (hadd ▸ u64_lt d)

/-- Ascending, from a docid that is not negative. -/
theorem length_docid_asc {p : ℤ} (hp : 0 ≤ p) (hf : f.1 < 2 ^ 63) (hl : ∀ x ∈ l, x.1 < 2 ^ 63)
    (hlt : ∀ x ∈ l ++ [f], p < x.1) (horder : (l ++ [f]).Pairwise (Before false ·.1 ·.1)) :
    (sqlite3Fts3PutVarint (u64 f.1)).length ≤ (sqlite3Fts3PutVarint (u64 p)).length +
      ((entriesBytes false (some p) l).length +
        (sqlite3Fts3PutVarint (delta false (lastDocid (some p) l) f.1)).length) := by
  induction l generalizing p with
  | nil =>
    have := length_docid_step hp (hlt f (by simp)) hf
    simpa [entriesBytes, lastDocid] using this
  | cons g l ih =>
    have hpg := hlt g (by simp)
    obtain ⟨hg, horder'⟩ := List.pairwise_cons.mp horder
    have hrest := ih (hp.trans hpg.le) (fun x hx => hl x (List.mem_cons_of_mem g hx))
      (fun x hx => by simpa [Before] using hg x hx) horder'
    have := length_docid_step hp hpg (hl g List.mem_cons_self)
    rw [lastDocid_cons, entriesBytes]
    simp only [List.length_append]
    omega

/-- A negative docid takes ten bytes. -/
theorem length_docid_neg {d : ℤ} (hd : d < 0) (hlo : -2 ^ 63 ≤ d) :
    (sqlite3Fts3PutVarint (u64 d)).length = 10 := by
  have hbig : 128 ^ 9 ≤ u64 d := by
    rw [u64]
    omega
  have hle := length_putVarint_le (u64_lt d)
  have hlog := Nat.le_log_of_pow_le (by decide) hbig
  rw [length_putVarint (u64_lt d)] at hle ⊢
  omega

theorem docidEnd_lt_iff (hl : IsDoclist desc (g :: (pre ++ f :: suf))) :
    docidEnd desc (g :: pre) f < (sqlite3Fts3PutVarint (u64 f.1)).length ↔
      desc = true ∧ 0 ≤ g.1 ∧ f.1 < 0 ∧ docidEnd true (g :: pre) f < 10 := by
  have hfits : ∀ x ∈ pre ++ [f], -2 ^ 63 ≤ x.1 ∧ x.1 < 2 ^ 63 := fun x hx =>
    hl.fits x (List.mem_cons_of_mem g (by simp at hx ⊢; tauto))
  obtain ⟨hgf, horder⟩ := List.pairwise_cons.mp hl.order
  have hf := hfits f (by simp)
  have hg := hl.fits g List.mem_cons_self
  have hgf' := hgf f (by simp)
  -- The docid of the first row is there as it is.
  have hend : docidEnd desc (g :: pre) f = (sqlite3Fts3PutVarint (u64 g.1)).length +
      ((poslistBytes g.2).length + (entriesBytes desc (some g.1) pre).length +
        (sqlite3Fts3PutVarint (delta desc (lastDocid (some g.1) pre) f.1)).length) := by
    rw [docidEnd, entriesBytes, lastDocid_cons, delta]
    simp only [List.length_append]
    omega
  have hle := length_putVarint_le (u64_lt f.1)
  by_cases hgneg : g.1 < 0
  · have hten := length_docid_neg hgneg hg.1
    constructor
    · intro h
      omega
    · intro h
      omega
  by_cases hfneg : f.1 < 0
  · have hten := length_docid_neg hfneg hf.1
    have hdesc : desc = true := by
      cases desc with
      | true => rfl
      | false =>
        simp only [Before, Bool.false_eq_true, if_false] at hgf'
        omega
    subst hdesc
    rw [hten]
    constructor
    · exact fun h => ⟨rfl, by omega, hfneg, h⟩
    · exact fun h => h.2.2.2
  · have hfit : (sqlite3Fts3PutVarint (u64 f.1)).length ≤ docidEnd desc (g :: pre) f := by
      rw [hend]
      cases desc with
      | true =>
        have hmono : u64 f.1 ≤ u64 g.1 := by
          simp only [Before, if_true] at hgf'
          simp only [u64]
          omega
        have := length_putVarint_mono hmono (u64_lt g.1)
        omega
      | false =>
        have := length_docid_asc (p := g.1) (l := pre) (f := f) (by omega) hf.2
          (fun x hx => (hfits x (by simp [hx])).2)
          (fun x hx => by simpa [Before] using hgf x (by simp at hx ⊢; tauto))
          (horder.sublist (by simp))
        omega
    constructor
    · intro h
      omega
    · intro h
      omega

/-! What the rows are. -/

/-- The phrase is in the row: its second part at position `q`, the first one `n` before it. -/
def PhraseAt (n : ℕ) (l1 l2 : Entries) (d : ℤ) (c q : ℕ) : Prop :=
  Occurs l2 d c q ∧ ∃ x, Occurs l1 d c x ∧ x + n = q

/-- The doclist of the rows that have the phrase, with its positions. -/
structure IsPhrase (desc : Bool) (n : ℕ) (l1 l2 out : Entries) : Prop where
  doclist : IsDoclist desc out
  docids : ∀ d, d ∈ out.map (·.1) ↔ ∃ c q, PhraseAt n l1 l2 d c q
  positions : ∀ d c q, Occurs out d c q ↔ PhraseAt n l1 l2 d c q

theorem hasPos_phraseCols {l l' : Poslist} (h : IsPoslist l) {c q : ℕ} :
    HasPos (phraseCols n l l') c q ↔ HasPos l' c q ∧ ∃ x, HasPos l c x ∧ x + n = q := by
  constructor
  · rintro ⟨e, he, rfl, hq⟩
    obtain ⟨a, ha, b, hb, hae, hbe, hhits⟩ := mem_common (List.mem_filter.mp he).1
    rw [hhits, mem_hits] at hq
    obtain ⟨hqb, x, hx, hxq⟩ := hq
    exact ⟨⟨b, hb, hbe, hqb⟩, x, ⟨a, ha, hae, hx⟩, hxq⟩
  · rintro ⟨⟨b, hb, rfl, hq⟩, x, ⟨a, ha, hab, hx⟩, hxq⟩
    have hmem : q ∈ hits n a.2 b.2 := mem_hits.mpr ⟨hq, x, hx, hxq⟩
    have hfind : l.find? (fun y => y.1 = b.1) = some a := by
      cases hy : l.find? fun y => y.1 = b.1 with
      | none =>
        rw [List.find?_eq_none] at hy
        exact absurd hab (by simpa using hy a ha)
      | some y =>
        have hyb : y.1 = b.1 := by simpa using List.find?_some hy
        rw [Ascends.key_inj Nat.lt_irrefl h.columns (List.mem_of_find?_eq_some hy) ha (hyb.trans hab.symm)]
    refine ⟨(b.1, hits n a.2 b.2), List.mem_filter.mpr ⟨List.mem_filterMap.mpr ⟨b, hb, ?_⟩, ?_⟩, rfl, hmem⟩
    · rw [hfind, Option.map_some]
    · exact decide_eq_true (List.ne_nil_of_mem hmem)

theorem exists_hasPos {l : Poslist} (h : IsPoslist l) (hne : l ≠ []) : ∃ c q, HasPos l c q := by
  obtain ⟨a, l, rfl⟩ := List.exists_cons_of_ne_nil hne
  obtain ⟨q, r, hq⟩ := List.exists_cons_of_ne_nil (h.nonempty a List.mem_cons_self)
  exact ⟨a.1, q, a, List.mem_cons_self, rfl, by rw [hq]; exact List.mem_cons_self⟩

theorem occurs_rowsOut (hl : Inputs desc l1 l2) {d : ℤ} {c q : ℕ} :
    Occurs (rowsOut n l1 l2) d c q ↔ PhraseAt n l1 l2 d c q := by
  constructor
  · rintro ⟨x, hx, rfl, hq⟩
    obtain ⟨e, he, f, hf, hef, rfl, -⟩ := mem_rowsOut hx
    obtain ⟨hq2, x, hx1, hxq⟩ := (hasPos_phraseCols (hl.left.poslists e he)).mp hq
    exact ⟨⟨f, hf, rfl, hq2⟩, x, ⟨e, he, hef, hx1⟩, hxq⟩
  · rintro ⟨⟨f, hf, rfl, hq⟩, x, ⟨e, he, hef, hx⟩, hxq⟩
    have hpos : HasPos (phraseCols n e.2 f.2) c q :=
      (hasPos_phraseCols (hl.left.poslists e he)).mpr ⟨hq, x, hx, hxq⟩
    have hne : phraseCols n e.2 f.2 ≠ [] := by
      obtain ⟨a, ha, -⟩ := hpos
      exact List.ne_nil_of_mem ha
    refine ⟨(f.1, phraseCols n e.2 f.2), List.mem_filterMap.mpr ⟨f, hf, ?_⟩, rfl, hpos⟩
    rw [find_row hl.left he hef, if_neg hne]

theorem isPhrase_rowsOut (hl : Inputs desc l1 l2) : IsPhrase desc n l1 l2 (rowsOut n l1 l2) where
  doclist := by
    refine ⟨hl.right.order.filterMap _ ?_, fun x hx => ?_, fun x hx => ?_⟩
    · intro f f' hlt x hx x' hx'
      obtain ⟨e, -, hrow⟩ := Option.bind_eq_some_iff.mp hx
      obtain ⟨e', -, hrow'⟩ := Option.bind_eq_some_iff.mp hx'
      split at hrow
      case isTrue => exact absurd hrow (by simp)
      case isFalse =>
        split at hrow'
        case isTrue => exact absurd hrow' (by simp)
        case isFalse =>
          obtain rfl := Option.some.inj hrow
          obtain rfl := Option.some.inj hrow'
          exact hlt
    · obtain ⟨e, -, f, hf, -, rfl, -⟩ := mem_rowsOut hx
      exact hl.right.fits f hf
    · obtain ⟨e, -, f, hf, -, rfl, -⟩ := mem_rowsOut hx
      exact isPoslist_phraseCols _ _ (hl.right.poslists f hf)
  docids d := by
    constructor
    · intro hd
      obtain ⟨x, hx, rfl⟩ := List.mem_map.mp hd
      obtain ⟨e, -, f, hf, -, hxf, hne⟩ := mem_rowsOut hx
      have hpos := isPoslist_phraseCols n e.2 (hl.right.poslists f hf)
      obtain ⟨c, q, hq⟩ := exists_hasPos hpos hne
      exact ⟨c, q, (occurs_rowsOut hl).mp ⟨x, hx, rfl, by rw [hxf]; exact hq⟩⟩
    · rintro ⟨c, q, hq⟩
      obtain ⟨x, hx, rfl, -⟩ := (occurs_rowsOut hl).mpr hq
      exact List.mem_map_of_mem hx
  positions _ _ _ := occurs_rowsOut hl

/-! The run from the start of the lists. -/

theorem rowsAt_start (hl : Inputs desc l1 l2) : ∃ p1 i1 q2 i2,
    fts3GetDeltaVarint3 false (doclistBytes desc l1) 0 = some (p1, i1) ∧
    fts3GetDeltaVarint3 false (doclistBytes desc l2) 0 = some (q2, i2) ∧
    RowsAt desc n l1 l2 [] l2 [] l1 { a := doclistBytes desc l2 } p1
      (q2.map fun q => (doclistBytes desc l2).length - q.length) i1 i2 0 false := by
  obtain ⟨p1, i1, hget1, hc1⟩ := getDelta_first desc hl.left.fits
  obtain ⟨q2, i2, hget2, hc2⟩ := getDelta_first desc hl.right.fits
  refine ⟨p1, i1, q2, i2, hget1, hget2, rfl, rfl, by simp, hc1, ?_, ⟨rfl, rfl⟩, rfl⟩
  cases l2 with
  | nil =>
    obtain rfl : q2 = none := hc2
    exact ⟨rfl, ⟨_, rfl⟩, rfl⟩
  | cons f l2 =>
    obtain ⟨rfl, rfl⟩ := hc2
    have hbytes : doclistBytes desc (f :: l2) = sqlite3Fts3PutVarint (delta desc none f.1) ++
        (poslistBytes f.2 ++ entriesBytes desc (some f.1) l2) := by
      rw [doclistBytes, entriesBytes, List.append_assoc]
    have hlen : (doclistBytes desc (f :: l2)).length -
        (poslistBytes f.2 ++ entriesBytes desc (some f.1) l2).length =
          (sqlite3Fts3PutVarint (delta desc none f.1)).length := by
      rw [hbytes, List.length_append]
      omega
    refine ⟨rfl, (sqlite3Fts3PutVarint (delta desc none f.1)).length, congrArg some hlen,
      fun _ => Nat.zero_le _, ⟨_, rfl⟩, rfl, le_rfl, Nat.zero_le _, ?_, ?_⟩
    · rw [hbytes]
      exact List.drop_left
    · rw [hbytes]
      exact List.length_append.symm

theorem Inputs.front (hl : Inputs desc l1 (pre ++ suf)) : Inputs desc l1 pre := by
  have hsub : ∀ x ∈ pre, x ∈ pre ++ suf := fun x hx => List.mem_append_left suf hx
  refine ⟨hl.left, ⟨?_, fun x hx => hl.right.fits x (hsub x hx), fun x hx => hl.right.poslists x (hsub x hx)⟩,
    hl.left_ne, fun x hx => hl.right_ne x (hsub x hx), fun e he x hx => hl.near e he x (hsub x hx)⟩
  exact hl.right.order.sublist (List.sublist_append_left pre suf)

/-- No row has been written, if the phrase is in none of the rows read. -/
theorem rowsOut_eq_nil_iff (hl : Inputs desc l1 (pre ++ suf)) :
    rowsOut n l1 pre = [] ↔ ∀ e ∈ pre, ∀ c q, ¬PhraseAt n l1 (pre ++ suf) e.1 c q := by
  constructor
  · rintro hnil e he c q ⟨⟨f, hf, hfe, hq⟩, hx⟩
    obtain rfl : f = e :=
      Ascends.key_inj (before_irrefl desc) hl.right.order hf (List.mem_append_left suf he) hfe
    obtain ⟨x, hx, -⟩ := (occurs_rowsOut (n := n) hl.front).mpr ⟨⟨f, he, rfl, hq⟩, hx⟩
    rw [hnil] at hx
    exact absurd hx List.not_mem_nil
  · intro hno
    rw [List.eq_nil_iff_forall_not_mem]
    intro x hx
    obtain ⟨e, -, f, hf, -, hxf, hne⟩ := mem_rowsOut hx
    obtain ⟨c, q, hq⟩ := exists_hasPos (isPoslist_phraseCols _ _ (hl.front.right.poslists f hf)) hne
    obtain ⟨⟨y, hy, hyf, hyq⟩, hx1⟩ :=
      (occurs_rowsOut (d := f.1) hl.front).mp ⟨x, hx, by rw [hxf], by rw [hxf]; exact hq⟩
    exact hno f hf c q ⟨⟨y, List.mem_append_left suf hy, hyf, hyq⟩, hx1⟩

/-- The right-hand list starts with a docid that is not negative, and one that both lists have is negative
and comes within the first ten bytes, with the phrase in none of the rows before it. -/
def Overtakes (n : ℕ) (l1 l2 : Entries) : Prop :=
  ∃ g pre f suf, l2 = g :: (pre ++ f :: suf) ∧ f.1 ∈ l1.map (·.1) ∧
    (∀ e ∈ g :: pre, ∀ c q, ¬PhraseAt n l1 l2 e.1 c q) ∧ 0 ≤ g.1 ∧ f.1 < 0 ∧
    docidEnd true (g :: pre) f < 10

theorem firstFits_iff (hl : Inputs desc l1 l2) :
    FirstFits desc n l1 l2 ↔ ¬(desc = true ∧ Overtakes n l1 l2) := by
  constructor
  · rintro hfirst ⟨rfl, g, pre, f, suf, rfl, hmem, hno, hg, hf, hlt⟩
    have hbad := (docidEnd_lt_iff hl.right).mpr ⟨rfl, hg, hf, hlt⟩
    have hnil := (@rowsOut_eq_nil_iff _ _ _ (g :: pre) (f :: suf) hl).mpr hno
    exact absurd (hfirst (g :: pre) f suf rfl hmem hnil) (by omega)
  · intro hno pre f suf heq hmem hnil
    subst heq
    cases pre with
    | nil => exact le_rfl.trans (Nat.le_add_left _ _)
    | cons g pre =>
      by_contra hlt
      obtain ⟨rfl, hg, hf, hten⟩ := (docidEnd_lt_iff hl.right).mp (Nat.lt_of_not_le hlt)
      exact hno ⟨rfl, g, pre, f, suf, rfl, hmem, (rowsOut_eq_nil_iff hl).mp hnil, hg, hf, hten⟩

instance (desc : Bool) (x y : ℤ) : Decidable (Near desc x y) :=
  inferInstanceAs (Decidable (_ ∧ _))

theorem phraseMerge_start (hl : Inputs desc l1 l2) : ∃ p1 q2 i1 i2,
    fts3DoclistPhraseMerge desc n (doclistBytes desc l1) (doclistBytes desc l2) =
      phraseRows desc n (doclistBytes desc l2).length
        ((doclistBytes desc l1).length + (doclistBytes desc l2).length + 1) { a := doclistBytes desc l2 } p1
        q2 i1 i2 0 false ∧
    RowsAt desc n l1 l2 [] l2 [] l1 { a := doclistBytes desc l2 } p1 q2 i1 i2 0 false := by
  obtain ⟨p1, i1, q2, i2, hget1, hget2, hstart⟩ := rowsAt_start (n := n) hl
  refine ⟨p1, _, i1, i2, ?_, hstart⟩
  rw [fts3DoclistPhraseMerge, hget1, hget2]
  rfl

theorem phraseMerge_run (hl : Inputs desc l1 l2) (hfirst : FirstFits desc n l1 l2) :
    ∃ o, fts3DoclistPhraseMerge desc n (doclistBytes desc l1) (doclistBytes desc l2) = some o ∧
      o.late = false ∧ o.a.take o.p = doclistBytes desc (rowsOut n l1 l2) := by
  have hlen1 := length_le_entriesBytes desc none l1
  have hlen2 := length_le_entriesBytes desc none l2
  obtain ⟨p1, q2, i1, i2, hrun, hstart⟩ := phraseMerge_start (n := n) hl
  rw [hrun]
  exact hstart.run hl hfirst (by rw [doclistBytes, doclistBytes]; omega)

/-- `fts3DoclistPhraseMerge` leaves the doclist of the phrase and stays behind the bytes still to be read,
if and only if the lists ascend or no negative docid comes too soon. -/
theorem phraseMerge_iff (desc : Bool) (nDist : ℕ) (l1 l2 : Entries) (h1 : IsDoclist desc l1)
    (h2 : IsDoclist desc l2) (hne1 : ∀ e ∈ l1, e.2 ≠ []) (hne2 : ∀ f ∈ l2, f.2 ≠ [])
    (hnear : ∀ e ∈ l1, ∀ f ∈ l2, Near desc e.1 f.1) :
    (∃ o out, fts3DoclistPhraseMerge desc nDist (doclistBytes desc l1) (doclistBytes desc l2) = some o ∧
      o.a.take o.p = doclistBytes desc out ∧ IsPhrase desc nDist l1 l2 out ∧ o.late = false) ↔
      ¬(desc = true ∧ Overtakes nDist l1 l2) := by
  have hl : Inputs desc l1 l2 := ⟨h1, h2, hne1, hne2, hnear⟩
  rw [← firstFits_iff hl]
  constructor
  · rintro ⟨o, out, hsome, -, -, hlate⟩ pre f suf heq hmem hnil
    obtain ⟨p1, q2, i1, i2, hrun, hstart⟩ := phraseMerge_start (n := nDist) hl
    by_contra hlt
    rw [hrun] at hsome
    have := hstart.fails hl heq hmem hnil (Nat.lt_of_not_le hlt) hsome
    rw [hlate] at this
    exact absurd this (by simp)
  · intro hfirst
    obtain ⟨o, hsome, hlate, hout⟩ := phraseMerge_run hl hfirst
    exact ⟨o, rowsOut nDist l1 l2, hsome, hout, isPhrase_rowsOut hl, hlate⟩

/-- The first docid of the phrase is written as a number of ten bytes, over positions not read yet: both
rows of the phrase are lost. -/
theorem phraseMerge_overtakes : ∃ l1 l2 : Entries, IsDoclist true l1 ∧ IsDoclist true l2 ∧
    (∀ e ∈ l1, e.2 ≠ []) ∧ (∀ f ∈ l2, f.2 ≠ []) ∧ (∀ e ∈ l1, ∀ f ∈ l2, Near true e.1 f.1) ∧
    PhraseAt 1 l1 l2 (-1) 0 2 ∧ PhraseAt 1 l1 l2 (-5) 0 2 ∧
    ((fts3DoclistPhraseMerge true 1 (doclistBytes true l1) (doclistBytes true l2)).map fun o =>
      o.a.take o.p) = some [] ∧
    ¬∃ o out, fts3DoclistPhraseMerge true 1 (doclistBytes true l1) (doclistBytes true l2) = some o ∧
      o.a.take o.p = doclistBytes true out ∧ IsPhrase true 1 l1 l2 out ∧ o.late = false := by
  have hrun : (fts3DoclistPhraseMerge true 1 (doclistBytes true [(-1, [(0, [1])]), (-5, [(0, [1])])])
      (doclistBytes true [(1, [(0, [2])]), (-1, [(0, [2, 3, 4])]), (-5, [(0, [2])])])).map
        (fun o => (o.a.take o.p, o.late)) = some ([], true) := by
    decide +kernel
  refine ⟨[(-1, [(0, [1])]), (-5, [(0, [1])])],
    [(1, [(0, [2])]), (-1, [(0, [2, 3, 4])]), (-5, [(0, [2])])], by decide +kernel, by decide +kernel,
    by decide +kernel, by decide +kernel, by decide +kernel, ?_, ?_, ?_, ?_⟩
  · exact ⟨⟨(-1, [(0, [2, 3, 4])]), by simp, rfl, (0, [2, 3, 4]), by simp, rfl, by simp⟩, 1,
      ⟨(-1, [(0, [1])]), by simp, rfl, (0, [1]), by simp, rfl, by simp⟩, rfl⟩
  · exact ⟨⟨(-5, [(0, [2])]), by simp, rfl, (0, [2]), by simp, rfl, by simp⟩, 1,
      ⟨(-5, [(0, [1])]), by simp, rfl, (0, [1]), by simp, rfl, by simp⟩, rfl⟩
  · obtain ⟨o, ho, hout⟩ := Option.map_eq_some_iff.mp hrun
    rw [ho, Option.map_some, (Prod.mk.inj hout).1]
  · rintro ⟨o, out, hsome, -, -, hlate⟩
    rw [hsome, Option.map_some, Option.some.injEq, Prod.mk.injEq, hlate] at hrun
    exact absurd hrun.2 (by simp)

theorem phraseMerge_iff_two : ∃ l1 l2 : Entries, ∃ (_ : IsDoclist true l1) (_ : IsDoclist true l2)
    (_ : ∀ e ∈ l1, e.2 ≠ []) (_ : ∀ f ∈ l2, f.2 ≠ []) (_ : ∀ e ∈ l1, ∀ f ∈ l2, Near true e.1 f.1),
    (∃ o out, fts3DoclistPhraseMerge true (2 : ℕ) (doclistBytes true l1) (doclistBytes true l2) = some o ∧
      o.a.take o.p = doclistBytes true out ∧ IsPhrase true 2 l1 l2 out ∧ o.late = false) ↔
      ¬(true = true ∧ Overtakes 2 l1 l2) :=
  ⟨[(7, [(0, [1, 5])]), (-3, [(2, [0])])], [(7, [(0, [3]), (4, [0])]), (-3, [(2, [2, 9])])],
    by decide +kernel, by decide +kernel, by decide +kernel, by decide +kernel, by decide +kernel,
    phraseMerge_iff true 2 _ _ (by decide +kernel) (by decide +kernel) (by decide +kernel)
      (by decide +kernel) (by decide +kernel)⟩

end Sqlite.Doclist
