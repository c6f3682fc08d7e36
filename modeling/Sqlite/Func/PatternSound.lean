import Sqlite.Func.PatternSet
import Sqlite.HashTable.Find

/-! The comparison of a string with a pattern, against what the pattern matches. -/
namespace Sqlite.Func

open Utf
open HashTable (sqlite3UpperToLower_zero_iff)

variable {pInfo : compareInfo} {esc c : ℕ} {zPattern zString z0 z2 zRest : List UInt8}

/-! The searches behind a `matchAll`. -/

variable {M : List ℕ → Prop} {k : List UInt8 → Bool}

theorem exists_suffix_cons {x : ℕ} {l : List ℕ} {P : ℕ → List ℕ → Prop} :
    (∃ d t, d :: t <:+ x :: l ∧ P d t) ↔ P x l ∨ ∃ d t, d :: t <:+ l ∧ P d t := by
  constructor
  · rintro ⟨d, t, ht, hp⟩
    obtain heq | ht := List.suffix_cons_iff.mp ht
    · obtain ⟨rfl, rfl⟩ := List.cons.inj heq
      exact .inl hp
    · exact .inr ⟨d, t, ht, hp⟩
  · rintro (hp | ⟨d, t, ht, hp⟩)
    · exact ⟨x, l, List.suffix_rfl, hp⟩
    · exact ⟨d, t, ht.trans (List.suffix_cons x l), hp⟩

theorem findChar_iff (hk : ∀ z, k z = true ↔ M (codesOf z)) (z : List UInt8) :
    findChar pInfo c k z = true ↔
      ∃ d t, d :: t <:+ codesOf z ∧ pInfo.fold c = pInfo.fold d ∧ M t := by
  induction z using findChar.induct pInfo c k with
  | case1 => simp [findChar, codesOf]
  | case2 b zString r h0 =>
    rw [findChar, if_pos h0, codesOf_eq_nil_iff.mpr (read_eq_zero_iff.mp h0)]
    simp
  | case3 b zString r h0 hne ih =>
    rw [findChar, if_neg h0, if_pos hne, ih, codesOf_cons h0, exists_suffix_cons]
    constructor
    · exact .inr
    · exact fun h => h.resolve_left fun h => hne h.1.symm
  | case4 b zString r h0 heq hm =>
    rw [findChar, if_neg h0, if_neg heq, if_pos hm, codesOf_cons h0, exists_suffix_cons]
    exact iff_of_true rfl (.inl ⟨(not_not.mp heq).symm, (hk _).mp hm⟩)
  | case5 b zString r h0 heq hm ih =>
    rw [findChar, if_neg h0, if_neg heq, if_neg hm, ih, codesOf_cons h0, exists_suffix_cons]
    constructor
    · exact .inr
    · exact fun h => h.resolve_left fun h => hm ((hk _).mpr h.2)

theorem findSet_iff (hk : ∀ z, k z = true ↔ M (codesOf z)) (z : List UInt8) :
    findSet k z = true ↔ ∃ d t, d :: t <:+ codesOf z ∧ M (d :: t) := by
  induction z using findSet.induct k with
  | case1 => simp [findSet, codesOf]
  | case2 zString => simp [findSet, codesOf]
  | case3 b zString h0 hm =>
    have hgoes : (sqlite3Utf8Read (b :: zString)).1 ≠ 0 :=
      fun h => h0 (read_eq_zero_iff.mp h b rfl)
    rw [findSet, if_neg h0, if_pos hm, codesOf_cons hgoes, exists_suffix_cons, ← codesOf_cons hgoes]
    exact iff_of_true rfl (.inl ((hk _).mp hm))
  | case4 b zString h0 hm ih =>
    have hgoes : (sqlite3Utf8Read (b :: zString)).1 ≠ 0 :=
      fun h => h0 (read_eq_zero_iff.mp h b rfl)
    rw [findSet, if_neg h0, if_neg hm, ih, codesOf_cons hgoes, exists_suffix_cons,
      ← codesOf_cons hgoes, sqlite3Utf8Read_rest]
    constructor
    · exact .inr
    · exact fun h => h.resolve_left fun h => hm ((hk _).mpr h)

/-- A `matchOne` behind a `matchAll` takes a character, if there is one. -/
theorem star_read_one (h : Apart pInfo esc) (h1 : (sqlite3Utf8Read zPattern).1 = pInfo.matchOne) :
    Star pInfo esc (codesOf zPattern) (codesOf zString) ↔ (sqlite3Utf8Read zString).1 ≠ 0 ∧
      Star pInfo esc (codesOf (sqlite3Utf8Read zPattern).2) (codesOf (sqlite3Utf8Read zString).2) := by
  rw [codesOf_cons (by rw [h1]; exact h.one), h1, star_one h]
  constructor
  · rintro ⟨c, t, hs, hstar⟩
    obtain ⟨hc, rfl⟩ := codesOf_head hs
    refine ⟨fun h0 => ?_, hstar⟩
    rw [(read_eq_zero_iff.mp h0).codesOf] at hs
    cases hs
  · rintro ⟨h0, hstar⟩
    exact ⟨_, _, codesOf_cons h0, hstar⟩

theorem star_read_all (h : Apart pInfo esc) (h1 : (sqlite3Utf8Read zPattern).1 = pInfo.matchAll)
    (s : List ℕ) : Star pInfo esc (codesOf zPattern) s ↔
      Star pInfo esc (codesOf (sqlite3Utf8Read zPattern).2) s := by
  rw [codesOf_cons (by rw [h1]; exact h.all), h1, star_all h]

theorem skipAll_none (h : Apart pInfo esc) (hskip : skipAll pInfo zPattern zString = none) :
    ¬ Star pInfo esc (codesOf zPattern) (codesOf zString) := by
  induction zPattern, zString using skipAll.induct pInfo with
  | case1 zString =>
    rw [skipAll] at hskip
    cases hskip
  | case2 b zPattern zString r h1 h2 r2 h0 =>
    rw [star_read_one h h2]
    exact fun hstar => hstar.1 h0
  | case3 b zPattern zString r h1 h2 r2 h0 ih =>
    rw [skipAll, if_pos h1, if_pos h2, if_neg h0] at hskip
    rw [star_read_one h h2]
    exact fun hstar => ih hskip hstar.2
  | case4 b zPattern zString r h1 h2 ih =>
    rw [skipAll, if_pos h1, if_neg h2] at hskip
    rw [star_read_all h (h1.resolve_right h2)]
    exact ih hskip
  | case5 b zPattern zString r h1 =>
    rw [skipAll, if_neg h1] at hskip
    cases hskip

/-- Where the loop behind a `matchAll` ends. -/
structure Skipped (pInfo : compareInfo) (esc : ℕ) (zPattern zString : List UInt8) (c : ℕ)
    (z0 z2 zRest : List UInt8) : Prop where
  star : Star pInfo esc (codesOf zPattern) (codesOf zString) ↔
    Star pInfo esc (codesOf z0) (codesOf zRest)
  paired : Paired esc (codesOf zPattern) → Paired esc (codesOf z0)
  read : sqlite3Utf8Read z0 = (c, z2)
  all : c ≠ pInfo.matchAll
  one : c ≠ pInfo.matchOne

theorem paired_cons {x : ℕ} {p : List ℕ} (hx : x ≠ esc) : Paired esc (x :: p) ↔ Paired esc p := by
  cases p with
  | nil => simp [Paired, hx]
  | cons y p => rw [Paired, if_neg hx]

theorem paired_zero {p : List ℕ} (hp : 0 ∉ p) : Paired 0 p := by
  induction p with
  | nil => trivial
  | cons x p ih =>
    rw [List.mem_cons, not_or] at hp
    exact (paired_cons (Ne.symm hp.1)).mpr (ih hp.2)

theorem skipAll_some (h : Apart pInfo esc)
    (hskip : skipAll pInfo zPattern zString = some (c, z0, z2, zRest)) :
    Skipped pInfo esc zPattern zString c z0 z2 zRest := by
  induction zPattern, zString using skipAll.induct pInfo with
  | case1 zString =>
    rw [skipAll] at hskip
    cases hskip
    exact ⟨Iff.rfl, id, rfl, h.all.symm, h.one.symm⟩
  | case2 b zPattern zString r h1 h2 r2 h0 =>
    rw [skipAll, if_pos h1, if_pos h2, if_pos h0] at hskip
    cases hskip
  | case3 b zPattern zString r h1 h2 r2 h0 ih =>
    rw [skipAll, if_pos h1, if_pos h2, if_neg h0] at hskip
    have hs := ih hskip
    refine ⟨?_, ?_, hs.read, hs.all, hs.one⟩
    · rw [star_read_one h h2, ← hs.star]
      exact and_iff_right h0
    · have hr : r.1 ≠ 0 := h2 ▸ h.one
      rw [codesOf_cons hr, paired_cons (h2 ▸ h.escOne.symm)]
      exact hs.paired
  | case4 b zPattern zString r h1 h2 ih =>
    rw [skipAll, if_pos h1, if_neg h2] at hskip
    have hall : r.1 = pInfo.matchAll := h1.resolve_right h2
    have hs := ih hskip
    refine ⟨?_, ?_, hs.read, hs.all, hs.one⟩
    · rw [star_read_all h hall, hs.star]
    · have hr : r.1 ≠ 0 := hall ▸ h.all
      rw [codesOf_cons hr, paired_cons (hall ▸ h.escAll.symm)]
      exact hs.paired
  | case5 b zPattern zString r h1 =>
    rw [skipAll, if_neg h1] at hskip
    cases hskip
    exact ⟨Iff.rfl, id, rfl, fun h => h1 (.inl h), fun h => h1 (.inr h)⟩

/-! The main loop. -/

/-- Behind an escape character the next one stands for itself. -/
def Goes (pInfo : compareInfo) (esc : ℕ) (prevEscape : Bool) (p s : List ℕ) : Prop :=
  if prevEscape then ∃ x q d t, p = x :: q ∧ s = d :: t ∧ pInfo.fold x = pInfo.fold d ∧
    Matches pInfo esc q t
  else Matches pInfo esc p s

def PairedFrom (esc : ℕ) (prevEscape : Bool) (p : List ℕ) : Prop :=
  if prevEscape then ∃ x q, p = x :: q ∧ Paired esc q else Paired esc p

theorem fold_eq_zero {x : ℕ} : pInfo.fold x = pInfo.fold 0 ↔ x = 0 := by
  have hzero : GlogUpperToLower 0 = 0 := rfl
  unfold compareInfo.fold
  split
  · rw [hzero, GlogUpperToLower]
    split
    · rename_i hx
      have hnat : (UInt8.ofNat x).toNat = x := toNat_ofNat (by omega)
      rw [← UInt8.toNat_zero, UInt8.toNat_inj, sqlite3UpperToLower_zero_iff, ← UInt8.toNat_inj, hnat]
    · rfl
  · rfl

/-- A character that stands for itself. -/
theorem literal_iff {x : ℕ} {K : List UInt8 → Bool} (hx : x ≠ 0) (hK : ∀ z, K z = true ↔ M (codesOf z)) :
    (if pInfo.fold x ≠ pInfo.fold (sqlite3Utf8Read zString).1 then false
      else K (sqlite3Utf8Read zString).2) = true ↔
      ∃ d t, codesOf zString = d :: t ∧ pInfo.fold x = pInfo.fold d ∧ M t := by
  constructor
  · intro htrue
    split at htrue
    · cases htrue
    rename_i heq
    have heq' := not_not.mp heq
    refine ⟨_, _, codesOf_cons fun h0 => hx ?_, heq', (hK _).mp htrue⟩
    rw [h0, fold_eq_zero] at heq'
    exact heq'
  · rintro ⟨d, t, hs, heq, hm⟩
    obtain ⟨rfl, rfl⟩ := codesOf_head hs
    rw [if_neg (not_not.mpr heq)]
    exact (hK _).mpr hm

theorem star_iff_of {p : List ℕ} {P : ℕ → List ℕ → Prop}
    (h : ∀ s, Matches pInfo esc p s ↔ ∃ d t, s = d :: t ∧ P d t) (s : List ℕ) :
    Star pInfo esc p s ↔ ∃ d t, d :: t <:+ s ∧ P d t := by
  constructor
  · rintro ⟨t, ht, hm⟩
    obtain ⟨d, t', rfl, hp⟩ := (h t).mp hm
    exact ⟨d, t', ht, hp⟩
  · rintro ⟨d, t, ht, hp⟩
    exact ⟨d :: t, ht, (h _).mpr ⟨d, t, rfl, hp⟩⟩

/-- The search for a place where the rest of the pattern matches. -/
theorem search_iff (h : Apart pInfo esc) {K : List UInt8 → List UInt8 → Bool}
    (hs : sqlite3Utf8Read z0 = (c, z2)) (hall : c ≠ pInfo.matchAll) (hone : c ≠ pInfo.matchOne)
    (hp : Paired esc (codesOf z0))
    (hK : ∀ z', z'.length ≤ z0.length → Paired esc (codesOf z') → ∀ z, K z' z = true ↔
      Matches pInfo esc (codesOf z') (codesOf z)) :
    (if c = 0 then true
      else if c = esc then
        if (sqlite3Utf8Read z2).1 = 0 then false
        else findChar pInfo (sqlite3Utf8Read z2).1 (K (sqlite3Utf8Read z2).2) zRest
      else if c = pInfo.matchSet then findSet (K z0) zRest
      else findChar pInfo c (K z2) zRest) = true ↔
      Star pInfo esc (codesOf z0) (codesOf zRest) := by
  have hc : (sqlite3Utf8Read z0).1 = c := congrArg Prod.fst hs
  have hz2 : (sqlite3Utf8Read z0).2 = z2 := congrArg Prod.snd hs
  have hlen : z2.length ≤ z0.length := hz2 ▸ sqlite3Utf8Read_length_le z0
  split_ifs with h0 hesc hend hset
  · rw [h0] at hc
    rw [(read_eq_zero_iff.mp hc).codesOf]
    exact iff_of_true rfl ⟨[], List.nil_suffix, .nil⟩
  · have hcodes := codesOf_cons (hc ▸ h0)
    rw [hc, hz2, hesc, (read_eq_zero_iff.mp hend).codesOf] at hcodes
    rw [hcodes] at hp
    exact absurd rfl hp
  · have hcodes := codesOf_cons (hc ▸ h0)
    rw [hc, hz2, hesc, codesOf_cons hend] at hcodes
    rw [hcodes, Paired, if_pos rfl] at hp
    rw [findChar_iff (hK _ ((sqlite3Utf8Read_length_le z2).trans hlen) hp), hcodes]
    refine (star_iff_of (fun s => ?_) _).symm
    rw [matches_escape h (hesc ▸ h0)]
    constructor
    · rintro ⟨x, q, d, t, hq, hs, hf, hm⟩
      obtain ⟨rfl, rfl⟩ := List.cons.inj hq
      exact ⟨d, t, hs, hf, hm⟩
    · rintro ⟨d, t, hs, hf, hm⟩
      exact ⟨_, _, d, t, rfl, hs, hf, hm⟩
  · have hset' := hK z0 le_rfl hp
    rw [findSet_iff hset']
    refine (star_iff_of (fun s => ?_) _).symm
    constructor
    · intro hm
      have hcodes := codesOf_cons (hc ▸ h0)
      rw [hc, hset] at hcodes
      have hm' := hm
      rw [hcodes, matches_set h (hset ▸ h0)] at hm'
      obtain ⟨d, t, -, -, -, rfl, -⟩ := hm'
      exact ⟨d, t, rfl, hm⟩
    · rintro ⟨d, t, rfl, hm⟩
      exact hm
  · have hcodes := codesOf_cons (hc ▸ h0)
    rw [hc, hz2] at hcodes
    rw [hcodes, paired_cons hesc] at hp
    rw [findChar_iff (hK _ hlen hp), hcodes]
    exact (star_iff_of (fun s => matches_self hall hone hset hesc) _).symm

theorem compareLoop_end (prevEscape : Bool) (hend : AtEnd zPattern) :
    compareLoop pInfo esc zPattern zString prevEscape = decide (AtEnd zString) := by
  cases zPattern with
  | nil => rw [compareLoop]
  | cons b zPattern => rw [compareLoop, if_pos hend.read]

theorem compareLoop_iff (h : Apart pInfo esc) {prevEscape : Bool} (hprev : prevEscape = true → esc ≠ 0)
    (hp : PairedFrom esc prevEscape (codesOf zPattern)) :
    compareLoop pInfo esc zPattern zString prevEscape = true ↔
      Goes pInfo esc prevEscape (codesOf zPattern) (codesOf zString) := by
  induction hn : zPattern.length using Nat.strong_induction_on
    generalizing zPattern zString prevEscape with
  | _ n ih =>
  subst hn
  by_cases hend : AtEnd zPattern
  · rw [compareLoop_end prevEscape hend, hend.codesOf, decide_eq_true_eq]
    rw [hend.codesOf] at hp
    cases prevEscape with
    | true =>
      obtain ⟨x, q, hnil, -⟩ := hp
      cases hnil
    | false => exact codesOf_eq_nil_iff.symm.trans matches_nil.symm
  cases zPattern with
  | nil => exact absurd (fun b hb => by cases hb) hend
  | cons b zPattern =>
  have h0 : (sqlite3Utf8Read (b :: zPattern)).1 ≠ 0 := fun h0 => hend (read_eq_zero_iff.mp h0)
  have hcodes := codesOf_cons h0
  have hlt := Nat.lt_succ_of_le (sqlite3Utf8Read_length b zPattern)
  rw [hcodes] at hp ⊢
  rw [compareLoop]
  generalize sqlite3Utf8Read (b :: zPattern) = r at *
  obtain ⟨x, z⟩ := r
  simp only [if_neg h0]
  have hrec : Paired esc (codesOf z) → ∀ z', compareLoop pInfo esc z z' false = true ↔
      Matches pInfo esc (codesOf z) (codesOf z') :=
    fun hp z' => ih z.length hlt (fun hfalse => by cases hfalse) hp rfl
  cases prevEscape with
  | true =>
    obtain ⟨x', q, hcons, hq⟩ := hp
    obtain ⟨rfl, rfl⟩ := List.cons.inj hcons
    have hset : x ≠ pInfo.matchSet := fun hset => by
      have hor := h.setEsc
      have hesc := hprev rfl
      omega
    simp only [Bool.true_eq_false, false_and, and_false, if_false, if_neg hset]
    rw [literal_iff h0 (hrec hq)]
    constructor
    · rintro ⟨d, t, hs, hf, hm⟩
      exact ⟨x, _, d, t, rfl, hs, hf, hm⟩
    · rintro ⟨x', q, d, t, hcons, hs, hf, hm⟩
      obtain ⟨rfl, rfl⟩ := List.cons.inj hcons
      exact ⟨d, t, hs, hf, hm⟩
  | false =>
  by_cases hall : x = pInfo.matchAll
  · have hpz : Paired esc (codesOf z) := (paired_cons (hall ▸ h.escAll.symm)).mp hp
    rw [if_pos ⟨rfl, hall⟩]
    show _ ↔ Matches pInfo esc (x :: codesOf z) (codesOf zString)
    rw [hall, matches_all h]
    split
    · rename_i hskip
      exact iff_of_false Bool.false_ne_true (skipAll_none h hskip)
    · rename_i c z0 z2 zRest hskip
      have hs := skipAll_some h hskip
      rw [hs.star]
      have hz0 := (skipAll_length hskip).1
      apply search_iff h hs.read hs.all hs.one (hs.paired hpz)
      intro z' hle hp' z''
      exact ih z'.length (hle.trans_lt (hz0.trans_lt hlt)) (fun hfalse => by cases hfalse) hp' rfl
  rw [if_neg fun hx => hall hx.2]
  by_cases hone : x = pInfo.matchOne
  · have hpz : Paired esc (codesOf z) := (paired_cons (hone ▸ h.escOne.symm)).mp hp
    rw [if_pos ⟨rfl, hone⟩]
    show _ ↔ Matches pInfo esc (x :: codesOf z) (codesOf zString)
    rw [hone, matches_one h]
    constructor
    · intro htrue
      split at htrue
      · cases htrue
      · rename_i hs
        exact ⟨_, _, codesOf_cons hs, (hrec hpz _).mp htrue⟩
    · rintro ⟨c, t, hs, hm⟩
      obtain ⟨hc, rfl⟩ := codesOf_head hs
      rw [if_neg (hc ▸ codesOf_head_ne hs)]
      exact (hrec hpz _).mpr hm
  rw [if_neg fun hx => hone hx.2]
  by_cases hset : x = pInfo.matchSet
  · have hesc : esc = 0 := h.setEsc.resolve_left (hset ▸ h0)
    rw [if_pos hset]
    show _ ↔ Matches pInfo esc (x :: codesOf z) (codesOf zString)
    rw [hset, matches_set h (hset ▸ h0)]
    have hnext {z' zRest : List UInt8} (heq : compareSet z zString = some (z', zRest)) :
        compareLoop pInfo esc z' zRest false = true ↔
          Matches pInfo esc (codesOf z') (codesOf zRest) :=
      ih z'.length ((compareSet_length heq).trans_lt hlt) (fun hfalse => by cases hfalse)
        (hesc ▸ paired_zero (codesOf_nonzero z')) rfl
    split
    · rename_i heq
      apply iff_of_false Bool.false_ne_true
      rintro ⟨c, t, neg, ms, rest, hs, hms, hc, -⟩
      obtain ⟨z', zRest, -, -, hhit, -⟩ := compareSet_eq hms hs
      rw [hhit hc] at heq
      cases heq
    · rename_i z' zRest heq
      rw [hnext heq]
      constructor
      · intro hm
        obtain ⟨⟨neg, ms, rest, hms⟩, c, hs⟩ := compareSet_some heq
        obtain ⟨z'', zRest', hz'', hzRest', hhit, hmiss⟩ := compareSet_eq hms hs
        by_cases hc : (∃ m ∈ ms, m.Has c) ↔ neg = false
        · rw [hhit hc] at heq
          cases heq
          rw [← hzRest'] at hs
          exact ⟨c, _, neg, ms, rest, hs, hms, hc, hz'' ▸ hm⟩
        · rw [hmiss hc] at heq
          cases heq
      · rintro ⟨c, t, neg, ms, rest, hs, hms, hc, hm⟩
        obtain ⟨z'', zRest', hz'', hzRest', hhit, -⟩ := compareSet_eq hms hs
        rw [hhit hc] at heq
        cases heq
        rw [hz'', hzRest']
        exact hm
  rw [if_neg hset]
  by_cases hesc : esc = x
  · subst hesc
    rw [if_pos ⟨rfl, rfl⟩]
    have hnext : PairedFrom esc true (codesOf z) := by
      cases hz : codesOf z with
      | nil =>
        rw [hz] at hp
        exact absurd rfl hp
      | cons d q =>
        rw [hz] at hp
        have hp' : Paired esc (esc :: d :: q) := hp
        rw [Paired, if_pos rfl] at hp'
        exact ⟨d, q, rfl, hp'⟩
    rw [ih z.length hlt (fun _ => h0) hnext rfl]
    exact (matches_escape h h0).symm
  · rw [if_neg fun hx => hesc hx.1]
    have hpz : Paired esc (codesOf z) := (paired_cons (Ne.symm hesc)).mp hp
    exact (literal_iff h0 (hrec hpz)).trans (matches_self hall hone hset (Ne.symm hesc)).symm

theorem patternCompare_codes (hop : Operator pInfo esc) (hp : Paired esc (codesOf zPattern)) :
    patternCompare zPattern zString pInfo esc = true ↔
      Matches pInfo esc (codesOf zPattern) (codesOf zString) :=
  compareLoop_iff hop.apart (fun hfalse => by cases hfalse) hp

/-- The comparison ends, with 1 if and only if the pattern matches the string. -/
theorem patternCompare_iff (p s : List Char) (hop : Operator pInfo esc) (hp : Paired esc (textCodes p)) :
    patternCompare (p.flatMap String.utf8EncodeChar) (s.flatMap String.utf8EncodeChar) pInfo esc =
      true ↔ Matches pInfo esc (textCodes p) (textCodes s) := by
  rw [← codesOf_chars] at hp ⊢
  rw [← codesOf_chars s]
  exact patternCompare_codes hop hp

/-- The pattern `a\%%` and the string `A%b`. -/
theorem patternCompare_iff_percent :
    patternCompare (['a', '\\', '%', '%'].flatMap String.utf8EncodeChar)
      (['A', '%', 'b'].flatMap String.utf8EncodeChar) likeInfoNorm '\\'.toNat = true := by
  have hp : Paired '\\'.toNat (textCodes ['a', '\\', '%', '%']) := by
    show Paired 92 [97, 92, 37, 37]
    simp [Paired]
  refine (patternCompare_iff _ _ (.like _ (by decide) (by decide)) hp).mpr ?_
  show Matches likeInfoNorm 92 [97, 92, 37, 37] [65, 37, 98]
  refine .self (by decide) (by decide) (by decide) (by decide) (by decide) (.escape rfl rfl ?_)
  exact .all rfl List.nil_suffix .nil

/-- Two characters that are read as U+FFFD, and a range without characters. -/
theorem patternCompare_nonchar :
    patternCompare (['\uFFFE'].flatMap String.utf8EncodeChar)
        (['\uFFFF'].flatMap String.utf8EncodeChar) globInfo 0 = true ∧
      ¬ Matches globInfo 0 (['\uFFFE'].map Char.toNat) (['\uFFFF'].map Char.toNat) ∧
      patternCompare (['[', 'z', '-', 'a', ']'].flatMap String.utf8EncodeChar)
        (['z'].flatMap String.utf8EncodeChar) globInfo 0 = true ∧ ¬ ('z' ≤ 'z' ∧ 'z' ≤ 'a') := by
  refine ⟨by decide +kernel, ?_, by decide +kernel, by decide⟩
  intro hm
  obtain ⟨d, t, hs, hf, -⟩ := (matches_self (by decide) (by decide) (by decide) (by decide)).mp hm
  obtain ⟨rfl, -⟩ := List.cons.inj hs
  exact absurd hf (by decide)

end Sqlite.Func
