import Mathlib
import Sqlite.RtreeSplit.Model

/-! The sorts of an r-tree node leave sorted permutations, and the split leaves the cells in two nodes with
their smallest boxes. `SortByDimension` stays inside of its arrays just where the halves rise. -/
namespace Sqlite.RtreeSplit

open Foundation RtreeScan

variable {D V K : Type}

/-- Cells are sorted by the minimum in a dimension, and then by the maximum. -/
def cellKey (aCell : List (RtreeCell D)) (iDim i : ℕ) : WithBot (D ×ₗ D) :=
  (aCell[i]?).map fun c => toLex (c.aCoord (iDim * 2), c.aCoord (iDim * 2 + 1))

def distanceKey (aDistance : List K) (i : ℕ) : WithBot K := aDistance[i]?

section Sorts

variable {aCell : List (RtreeCell D)} {aDistance : List K} {iDim i : ℕ} {aIdx aSpare : List ℕ}

theorem cellKey_eq (h : i < aCell.length) :
    cellKey aCell iDim i =
      WithBot.some (toLex (aCell[i].aCoord (iDim * 2), aCell[i].aCoord (iDim * 2 + 1))) := by
  rw [cellKey, List.getElem?_eq_getElem h]
  rfl

theorem distanceKey_eq (h : i < aDistance.length) : distanceKey aDistance i = WithBot.some aDistance[i] := by
  rw [distanceKey, List.getElem?_eq_getElem h]
  rfl

theorem bind_eq {α : Type} {l : List α} (h : i < l.length) : (some i).bind (l[·]?) = some l[i] := by
  rw [Option.bind_some, List.getElem?_eq_getElem h]

variable [LinearOrder D] [LinearOrder K]

theorem dimensionStep_takesLower :
    TakesLower (dimensionStep iDim aCell) (cellKey aCell iDim) (· < aCell.length) where
  left_done l r hr := by
    rw [dimensionStep, bind_eq hr]
    cases l.bind (aCell[·]?) <;> rfl
  right_done l r hl := by
    rw [dimensionStep, bind_eq hl]
    cases r.bind (aCell[·]?) <;> rfl
  both l r hl hr := by
    simp only [dimensionStep, bind_eq hl, bind_eq hr, cellKey_eq hl, cellKey_eq hr, Bool.not_false,
      Bool.true_and, Bool.false_or]
    rw [Bool.eq_iff_iff, Bool.or_eq_true, decide_eq_true_iff, decide_eq_true_iff, WithBot.coe_lt_coe,
      Prod.Lex.toLex_lt_toLex]
    simp

theorem dimensionStep_reads : Reads (dimensionStep iDim aCell) true (· < aCell.length) where
  left_done l r hr hl := by
    obtain ⟨x, rfl, hx⟩ := hl rfl
    rw [dimensionStep, bind_eq hr, bind_eq hx]
  right_done l hl := by
    rw [dimensionStep, bind_eq hl]
    rfl
  both l r hl hr := by rw [dimensionStep, bind_eq hl, bind_eq hr]

theorem distanceStep_takesLower :
    TakesLower (distanceStep aDistance) (distanceKey aDistance) (· < aDistance.length) where
  left_done _ _ _ := rfl
  right_done _ _ _ := rfl
  both l r hl hr := by
    simp only [distanceStep, Bool.false_eq_true, if_false, bind_eq hl, bind_eq hr, distanceKey_eq hl,
      distanceKey_eq hr, WithBot.coe_lt_coe]

theorem distanceStep_reads : Reads (distanceStep aDistance) false (· < aDistance.length) where
  left_done _ _ _ _ := rfl
  right_done _ _ := rfl
  both l r hl hr := by
    simp only [distanceStep, Bool.false_eq_true, if_false, bind_eq hl, bind_eq hr]

theorem SortByDimension_sorts (haIdx : ∀ i ∈ aIdx, i < aCell.length)
    (haSpare : ∀ i ∈ aSpare, i < aCell.length)
    (hle : aIdx.length ≤ aSpare.length) :
    Sorts (cellKey aCell iDim) (· < aCell.length) true aIdx aSpare (SortByDimension aIdx iDim aCell aSpare) :=
  spareSort_sorts dimensionStep_takesLower dimensionStep_reads aIdx aSpare haIdx (fun _ => haSpare) hle

theorem SortByDistance_sorts (haIdx : ∀ i ∈ aIdx, i < aDistance.length) (hle : aIdx.length ≤ aSpare.length) :
    Sorts (distanceKey aDistance) (· < aDistance.length) false aIdx aSpare
      (SortByDistance aIdx aDistance aSpare) :=
  spareSort_sorts distanceStep_takesLower distanceStep_reads aIdx aSpare haIdx
    (fun h => absurd h (by decide)) hle

/-- What the loop over the dimensions sorts. -/
theorem sortLoop_sorts (n ii : ℕ) (haSpare : ∀ i ∈ aSpare, i < aCell.length)
    (hlen : aSpare.length = aCell.length) :
    (sortLoop aCell n ii aSpare).1.length = n ∧
    (∀ sorted ∈ (sortLoop aCell n ii aSpare).1, ∃ d, ii ≤ d ∧ d < ii + n ∧
      sorted.Perm (List.range aCell.length) ∧
        sorted.Pairwise fun i j => cellKey aCell d i ≤ cellKey aCell d j) ∧
    ((sortLoop aCell n ii aSpare).2 = true ↔
      ∀ d, ii ≤ d → d < ii + n → halvesRise (cellKey aCell d) (List.range aCell.length) = true) := by
  induction n generalizing ii aSpare with
  | zero =>
    refine ⟨rfl, fun sorted h => absurd h List.not_mem_nil, ?_⟩
    exact ⟨fun _ d hd hd' => absurd hd' (by omega), fun _ => rfl⟩
  | succ n ih =>
    have hrange : ∀ i ∈ List.range aCell.length, i < aCell.length := fun i hi => List.mem_range.mp hi
    have hsort : Sorts (cellKey aCell ii) (· < aCell.length) true (List.range aCell.length) aSpare _ :=
      SortByDimension_sorts hrange haSpare (by rw [List.length_range, hlen])
    obtain ⟨hlength, hsorted, hinside⟩ := ih (ii + 1) (hsort.fits rfl) (hsort.length.trans hlen)
    simp only [sortLoop]
    refine ⟨by rw [List.length_cons, hlength], fun sorted hmem => ?_, ?_⟩
    · rcases List.mem_cons.mp hmem with rfl | hmem
      · exact ⟨ii, le_refl ii, by omega, hsort.perm, hsort.sorted⟩
      · obtain ⟨d, hle, hlt, hfacts⟩ := hsorted sorted hmem
        exact ⟨d, by omega, by omega, hfacts⟩
    · rw [Bool.and_eq_true, hinside, hsort.inside]
      constructor
      · rintro ⟨hfirst, hrest⟩ d hle hlt
        rcases hle.eq_or_lt with rfl | hlt'
        · simpa using hfirst
        · exact hrest d hlt' (by omega)
      · intro h
        exact ⟨by simpa using h ii (le_refl ii) (by omega), fun d hle hlt => h d (by omega) (by omega)⟩

end Sorts

/-- Two boxes have the same coordinates. -/
def SameBox (nDim : ℕ) (b b' : RtreeCell D) : Prop :=
  ∀ d < nDim, b.aCoord (d * 2) = b'.aCoord (d * 2) ∧ b.aCoord (d * 2 + 1) = b'.aCoord (d * 2 + 1)

theorem SameBox.cellArea_eq {nDim : ℕ} {b b' : RtreeCell D} {ar : Arith D V} (h : SameBox nDim b b') :
    cellArea ar nDim b = cellArea ar nDim b' := by
  rw [cellArea, cellArea]
  refine List.foldl_ext _ _ _ fun area d hd => ?_
  have hsame := h d (List.mem_range.mp hd)
  rw [hsame.1, hsame.2]

section Better

variable {ar : Arith D V} {o a o' a' o'' a'' : V}

/-- Less overlap, or the same and less area. -/
def Better (ar : Arith D V) (o a o' a' : V) :
    Prop := ar.lt o o' = true ∨ (ar.eq o o' = true ∧ ar.lt a a' = true)

theorem not_better_self (o a : V) : ¬Better ar o a o a := by
  rintro (h | ⟨-, h⟩)
  · exact Bool.false_ne_true ((ar.lt_irrefl o).symm.trans h)
  · exact Bool.false_ne_true ((ar.lt_irrefl a).symm.trans h)

theorem Better.trans (h : Better ar o a o' a') (h' : Better ar o' a' o'' a'') : Better ar o a o'' a'' := by
  rcases h with h | ⟨heq, h⟩
  · rcases h' with h' | ⟨heq', -⟩
    · exact .inl (ar.lt_trans _ _ _ h h')
    · exact .inl (ar.lt_eq _ _ _ h heq')
  · rcases h' with h' | ⟨heq', h'⟩
    · exact .inl (ar.eq_lt _ _ _ heq h')
    · exact .inr ⟨ar.eq_trans _ _ _ heq heq', ar.lt_trans _ _ _ h h'⟩

theorem minCells_facts {t : Rtree D} (hcap : 3 ≤ t.maxCells) : 1 ≤ RTREE_MINCELLS t ∧
    3 * RTREE_MINCELLS t ≤ t.maxCells := by
  rw [RTREE_MINCELLS]
  omega

theorem cellsOf_range (aCell : List (RtreeCell D)) : cellsOf aCell (List.range aCell.length) = aCell := by
  induction aCell using List.reverseRecOn with
  | nil => rfl
  | append_singleton l c ih =>
    have hrest : (List.range l.length).filterMap ((l ++ [c])[·]?) = (List.range l.length).filterMap (l[·]?) :=
      List.filterMap_congr fun i hi => List.getElem?_append_left (List.mem_range.mp hi)
    rw [cellsOf, List.length_append, List.length_singleton, List.range_succ, List.filterMap_append, hrest]
    rw [cellsOf] at ih
    rw [ih]
    simp

theorem cellsOf_perm {aCell : List (RtreeCell D)} {sorted : List ℕ}
    (h : sorted.Perm (List.range aCell.length)) :
    (cellsOf aCell sorted).Perm aCell := by
  have hperm := h.filterMap (aCell[·]?)
  rwa [← cellsOf, ← cellsOf, cellsOf_range] at hperm

end Better

variable [LinearOrder D]

/-- The box `b` contains the cell `c`. -/
def Contains (nDim : ℕ) (b c : RtreeCell D) : Prop :=
  ∀ d < nDim, b.aCoord (d * 2) ≤ c.aCoord (d * 2) ∧ c.aCoord (d * 2 + 1) ≤ b.aCoord (d * 2 + 1)

/-- The smallest box around cells. -/
structure IsBox (nDim : ℕ) (cells : List (RtreeCell D)) (b : RtreeCell D) : Prop where
  contains : ∀ c ∈ cells, Contains nDim b c
  smallest : ∀ b', (∀ c ∈ cells, Contains nDim b' c) → Contains nDim b' b

section Boxes

variable {nDim d : ℕ} {cells cells' : List (RtreeCell D)} {b b' c p q p' q' : RtreeCell D} {ar : Arith D V}

theorem Contains.refl (b : RtreeCell D) : Contains nDim b b := fun _ _ => ⟨le_refl _, le_refl _⟩

theorem Contains.trans (h : Contains nDim b b') (h' : Contains nDim b' c) : Contains nDim b c := fun d hd =>
  ⟨(h d hd).1.trans (h' d hd).1, (h' d hd).2.trans (h d hd).2⟩

theorem cellUnion_min (hd : d < nDim) :
    (cellUnion nDim p q).aCoord (d * 2) = min (p.aCoord (d * 2)) (q.aCoord (d * 2)) := by
  simp only [cellUnion]
  rw [if_pos (by omega), if_pos (by omega)]

theorem cellUnion_max (hd : d < nDim) :
    (cellUnion nDim p q).aCoord (d * 2 + 1) = max (p.aCoord (d * 2 + 1)) (q.aCoord (d * 2 + 1)) := by
  simp only [cellUnion]
  rw [if_pos (by omega), if_neg (by omega)]

theorem contains_cellUnion_iff : Contains nDim b (cellUnion nDim p q) ↔ Contains nDim b p ∧
    Contains nDim b q := by
  constructor
  · intro h
    refine ⟨fun d hd => ?_, fun d hd => ?_⟩ <;>
      · have hunion := h d hd
        rw [cellUnion_min hd, cellUnion_max hd, le_min_iff, max_le_iff] at hunion
        exact ⟨by simp [hunion], by simp [hunion]⟩
  · intro h d hd
    rw [cellUnion_min hd, cellUnion_max hd, le_min_iff, max_le_iff]
    exact ⟨⟨(h.1 d hd).1, (h.2 d hd).1⟩, (h.1 d hd).2, (h.2 d hd).2⟩

theorem IsBox.single (c : RtreeCell D) : IsBox nDim [c] c :=
  ⟨fun x h => by rw [List.mem_singleton.mp h]; exact .refl c, fun _ h => h c (List.mem_singleton_self c)⟩

theorem IsBox.congr (h : IsBox nDim cells b) (hmem : ∀ c, c ∈ cells ↔ c ∈ cells') : IsBox nDim cells' b :=
  ⟨fun c hc => h.contains c ((hmem c).mpr hc), fun b' hb' => h.smallest b' fun c hc => hb' c ((hmem c).mp hc)⟩

theorem IsBox.union (h : IsBox nDim cells b) (c : RtreeCell D) :
    IsBox nDim (cells ++ [c]) (cellUnion nDim b c) := by
  have hself := contains_cellUnion_iff.mp (Contains.refl (cellUnion nDim b c) : Contains nDim _ _)
  refine ⟨fun x hx => ?_, fun b' hb' => contains_cellUnion_iff.mpr ⟨?_, ?_⟩⟩
  · rcases List.mem_append.mp hx with hx | hx
    · exact hself.1.trans (h.contains x hx)
    · exact List.mem_singleton.mp hx ▸ hself.2
  · exact h.smallest b' fun x hx => hb' x (List.mem_append_left _ hx)
  · exact hb' c (List.mem_append_right _ (List.mem_singleton_self c))

theorem IsBox.same (h : IsBox nDim cells b) (h' : IsBox nDim cells b') : SameBox nDim b b' := fun d hd =>
  have hle := h.smallest b' h'.contains d hd
  have hge := h'.smallest b h.contains d hd
  ⟨le_antisymm hge.1 hle.1, le_antisymm hle.2 hge.2⟩

theorem SameBox.overlapLoop_eq (hp : SameBox nDim p p') (hq : SameBox nDim q q') (l : List ℕ)
    (hl : ∀ d ∈ l, d < nDim) (o : V) : overlapLoop ar p q l o = overlapLoop ar p' q' l o := by
  induction l generalizing o with
  | nil => rfl
  | cons d l ih =>
    have hd := hl d List.mem_cons_self
    rw [overlapLoop, overlapLoop, (hp d hd).1, (hp d hd).2, (hq d hd).1, (hq d hd).2,
      ih (fun x hx => hl x (List.mem_cons_of_mem d hx))]

theorem SameBox.cellOverlap_eq (hp : SameBox nDim p p') (hq : SameBox nDim q q') :
    cellOverlap ar nDim p [q] = cellOverlap ar nDim p' [q'] := by
  simp only [cellOverlap, List.foldl_cons, List.foldl_nil]
  rw [hp.overlapLoop_eq hq _ fun d hd => List.mem_range.mp hd]

/-- The loop leaves the smallest boxes of the first cells and of the others. -/
theorem unionLoop_isBox {left right : List (RtreeCell D)} (nLeft : ℕ) (l : List (RtreeCell D)) (kk : ℕ)
    (hp : IsBox nDim left p) (hq : IsBox nDim right q) :
    IsBox nDim (left ++ l.take (nLeft - kk)) (unionLoop nDim nLeft l kk p q).1 ∧
      IsBox nDim (right ++ l.drop (nLeft - kk)) (unionLoop nDim nLeft l kk p q).2 := by
  induction l generalizing kk p q left right with
  | nil => simpa [unionLoop] using ⟨hp, hq⟩
  | cons c l ih =>
    rw [unionLoop]
    by_cases hlt : kk < nLeft
    · rw [if_pos hlt]
      have h := ih (kk + 1) (hp.union c) hq
      rw [show nLeft - kk = nLeft - (kk + 1) + 1 by omega, List.take_succ_cons, List.drop_succ_cons]
      simpa using h
    · rw [if_neg hlt]
      have h := ih (kk + 1) hp (hq.union c)
      rw [show nLeft - (kk + 1) = 0 by omega] at h
      rw [show nLeft - kk = 0 by omega]
      simpa using h

/-- The boxes that the loop over `nLeft` compares. -/
theorem unionLoop_split (nDim : ℕ) (cells : List (RtreeCell D)) (nLeft : ℕ) (hpos : 1 ≤ nLeft)
    (hlt : nLeft < cells.length)
    {first last : RtreeCell D} (hfirst : cells.head? = some first) (hlast : cells.getLast? = some last) :
    IsBox nDim (cells.take nLeft) (unionLoop nDim nLeft (cells.drop 1).dropLast 1 first last).1 ∧
      IsBox nDim (cells.drop nLeft) (unionLoop nDim nLeft (cells.drop 1).dropLast 1 first last).2 := by
  obtain ⟨hleft,
    hright⟩ := unionLoop_isBox nLeft (cells.drop 1).dropLast 1 (IsBox.single first : IsBox nDim _ _)
    (IsBox.single last)
  obtain ⟨t, rfl⟩ : ∃ t, cells = first :: t := by
    cases cells with
    | nil => exact absurd hfirst (by simp)
    | cons c t => exact ⟨t, by rw [Option.some.inj hfirst]⟩
  have ht : t ≠ [] := by
    rintro rfl
    rw [List.length_singleton] at hlt
    omega
  have htlast : t = t.dropLast ++ [last] := by
    rw [List.getLast?_cons, Option.some.injEq, List.getLast?_eq_some_getLast ht] at hlast
    rw [← show t.getLast ht = last from hlast, List.dropLast_append_getLast]
  have hlen : nLeft - 1 ≤ t.dropLast.length := by
    rw [List.length_cons] at hlt
    rw [List.length_dropLast]
    omega
  obtain ⟨n, rfl⟩ : ∃ n, nLeft = n + 1 := ⟨nLeft - 1, by omega⟩
  rw [Nat.add_sub_cancel] at hlen
  constructor
  · refine hleft.congr fun c => ?_
    conv_rhs => rw [List.take_succ_cons, htlast, List.take_append_of_le_length hlen]
    rfl
  · refine hright.congr fun c => ?_
    conv_rhs => rw [List.drop_succ_cons, htlast, List.drop_append_of_le_length hlen]
    rw [List.mem_append, List.mem_append, or_comm]
    rfl

end Boxes

variable (ar : Arith D V) (t : Rtree D)

/-- The overlap of the boxes of a split, and the sum of their areas. -/
def quality (nDim : ℕ) (p q : RtreeCell D) : V × V :=
  (cellOverlap ar nDim p [q], ar.add (cellArea ar nDim p) (cellArea ar nDim q))

/-- To split after `i` cells is one of the ways to split, and no other is better. -/
structure IsBest (cells : List (RtreeCell D)) (i : ℕ) : Prop where
  lower : RTREE_MINCELLS t ≤ i
  upper : i ≤ cells.length - RTREE_MINCELLS t
  best : ∀ k p q p' q', RTREE_MINCELLS t ≤ k → k ≤ cells.length - RTREE_MINCELLS t →
    IsBox t.nDim (cells.take k) p → IsBox t.nDim (cells.drop k) q →
    IsBox t.nDim (cells.take i) p' → IsBox t.nDim (cells.drop i) q' →
    ¬Better ar (quality ar t.nDim p q).1 (quality ar t.nDim p q).2 (quality ar t.nDim p' q').1
      (quality ar t.nDim p' q').2

section Loops

variable {ar t} {cells : List (RtreeCell D)} {first last : RtreeCell D} {b : Best V}
  {tried : List ℕ} {k : ℕ}

/-- The overlap and the area that the loop over `nLeft` computes for `k`. -/
def qualityAt (ar : Arith D V) (t : Rtree D) (cells : List (RtreeCell D)) (first last : RtreeCell D) (k : ℕ) :
    V × V :=
  quality ar t.nDim (unionLoop t.nDim k (cells.drop 1).dropLast 1 first last).1
    (unionLoop t.nDim k (cells.drop 1).dropLast 1 first last).2

/-- The loop keeps the best of the splits that it has tried. -/
structure BestOf (ar : Arith D V) (t : Rtree D) (cells : List (RtreeCell D)) (first last : RtreeCell D)
    (tried : List ℕ) (b : Best V) : Prop where
  mem : b.iBestLeft ∈ tried
  kept : (b.fBestOverlap, b.fBestArea) = qualityAt ar t cells first last b.iBestLeft
  best : ∀ k ∈ tried, ¬Better ar (qualityAt ar t cells first last k).1 (qualityAt ar t cells first last k).2
    b.fBestOverlap b.fBestArea

theorem bestOf_first (b : Best V) : BestOf ar t cells first last [RTREE_MINCELLS t]
    (splitAt ar t cells first last b (RTREE_MINCELLS t)) := by
  simp only [splitAt]
  rw [if_pos (.inl trivial)]
  refine ⟨List.mem_singleton_self _, rfl, fun k hk => ?_⟩
  rw [List.mem_singleton.mp hk]
  exact not_better_self _ _

theorem BestOf.step (h : BestOf ar t cells first last tried b) (hk : k ≠ RTREE_MINCELLS t) :
    BestOf ar t cells first last (tried ++ [k]) (splitAt ar t cells first last b k) := by
  have hmem : ∀ {x}, x ∈ tried ++ [k] → x ∈ tried ∨ x = k := fun hx => by simpa using hx
  simp only [splitAt]
  split_ifs with hbetter
  · have hbetter' : Better ar (qualityAt ar t cells first last k).1 (qualityAt ar t cells first last k).2
        b.fBestOverlap b.fBestArea := hbetter.resolve_left hk
    refine ⟨List.mem_append_right _ (List.mem_singleton_self k), rfl, fun x hx => ?_⟩
    rcases hmem hx with hx | rfl
    · exact fun hx' => h.best x hx (hx'.trans hbetter')
    · exact not_better_self _ _
  · refine ⟨List.mem_append_left _ h.mem, h.kept, fun x hx => ?_⟩
    rcases hmem hx with hx | rfl
    · exact h.best x hx
    · exact fun hx' => hbetter (.inr hx')

theorem BestOf.run (l : List ℕ) (h : BestOf ar t cells first last tried b)
    (hl : ∀ k ∈ l, k ≠ RTREE_MINCELLS t) :
    BestOf ar t cells first last (tried ++ l) (l.foldl (splitAt ar t cells first last) b) := by
  induction l generalizing tried b with
  | nil => simpa using h
  | cons k l ih =>
    have hrest := ih (h.step (hl k List.mem_cons_self)) fun x hx => hl x (List.mem_cons_of_mem k hx)
    rwa [List.append_assoc] at hrest

/-- The loop over `nLeft` finds the best split. -/
theorem dimensionLoop_best (ar : Arith D V) (hcap : 3 ≤ t.maxCells) (hlen : cells.length = t.maxCells + 1) :
    ∃ b, dimensionLoop ar t cells = some b ∧ IsBest ar t cells b.iBestLeft := by
  obtain ⟨hpos, hthird⟩ := minCells_facts hcap
  have hne : cells ≠ [] := List.ne_nil_of_length_pos (by omega)
  have hfirst := List.head?_eq_some_head hne
  have hlast := List.getLast?_eq_some_getLast hne
  generalize cells.head hne = first at hfirst
  generalize cells.getLast hne = last at hlast
  refine ⟨_, by rw [dimensionLoop, hfirst, hlast]; rfl, ?_⟩
  set m := RTREE_MINCELLS t with hm
  obtain ⟨n, hn⟩ : ∃ n, cells.length - m + 1 - m = n + 1 := ⟨cells.length - m - m, by omega⟩
  have hmem : ∀ {k}, k ∈ List.range' m (n + 1) ↔ m ≤ k ∧ k ≤ cells.length - m := by
    intro k
    rw [List.mem_range'_1]
    omega
  have hbest : BestOf ar t cells first last (List.range' m (n + 1)) ((List.range' m (n + 1)).foldl
      (splitAt ar t cells first last) ⟨ar.zero, ar.zero, ar.zero, 0⟩) := by
    rw [List.range'_succ, List.foldl_cons]
    refine (bestOf_first _).run _ fun k hk => ?_
    have := (List.mem_range'_1.mp hk).1
    omega
  rw [hn]
  generalize (List.range' m (n + 1)).foldl _ _ = b at hbest
  obtain ⟨hlower, hupper⟩ := hmem.mp hbest.mem
  refine ⟨hlower, hupper, fun k p q p' q' hk hk' hp hq hp' hq' => ?_⟩
  have hquality : ∀ {k p q}, m ≤ k → k ≤ cells.length - m → IsBox t.nDim (cells.take k) p →
      IsBox t.nDim (cells.drop k) q → quality ar t.nDim p q = qualityAt ar t cells first last k := by
    intro k p q hk hk' hp hq
    obtain ⟨hleft, hright⟩ := unionLoop_split t.nDim cells k (by omega) (by omega) hfirst hlast
    rw [quality, qualityAt, quality, (hp.same hleft).cellOverlap_eq (hq.same hright),
      (hp.same hleft).cellArea_eq, (hq.same hright).cellArea_eq]
  rw [hquality hk hk' hp hq, hquality hlower hupper hp' hq', ← hbest.kept]
  exact hbest.best k (hmem.mpr ⟨hk, hk'⟩)

/-- The order and the split that the loop over the dimensions leaves come from one of them. -/
theorem bestLoop_of {Q : List ℕ → ℕ → Prop} {aCell : List (RtreeCell D)} (l : List (List ℕ))
    (best : Option (List ℕ × V × ℕ))
    (hl : ∀ sorted ∈ l, ∃ b, dimensionLoop ar t (cellsOf aCell sorted) = some b ∧ Q sorted b.iBestLeft)
    (hbest : ∀ r, best = some r → Q r.1 r.2.2) (hsome : l ≠ [] ∨ best.isSome) :
    ∃ r, bestLoop ar t aCell l best = some r ∧ Q r.1 r.2.2 := by
  induction l generalizing best with
  | nil =>
    obtain ⟨r, rfl⟩ := Option.isSome_iff_exists.mp (hsome.resolve_left fun h => h rfl)
    exact ⟨r, rfl, hbest r rfl⟩
  | cons sorted l ih =>
    obtain ⟨b, hb, hQ⟩ := hl sorted List.mem_cons_self
    have hl' : ∀ x ∈ l, _ := fun x hx => hl x (List.mem_cons_of_mem sorted hx)
    have hnew : ∀ r, some (sorted, b.margin, b.iBestLeft) = some r → Q r.1 r.2.2 := by
      intro r hr
      rw [← Option.some.inj hr]
      exact hQ
    rw [bestLoop, hb, Option.bind_eq_bind, Option.bind_some]
    cases best with
    | none => exact ih _ hl' hnew (.inr rfl)
    | some r =>
      obtain ⟨s, f, i⟩ := r
      dsimp only
      split_ifs
      · exact ih _ hl' hnew (.inr rfl)
      · exact ih _ hl' hbest (.inr rfl)

/-- The loop puts the first cells into the left node and the others into the right one, if these have room. -/
theorem assignLoop_eq {i : ℕ} (l : List (RtreeCell D)) (ii : ℕ) (s : Split D)
    (hleft : s.pLeft.length + (l.take (i - ii)).length ≤ t.maxCells)
    (hright : s.pRight.length + (l.drop (i - ii)).length ≤ t.maxCells) {left right : List (RtreeCell D)}
    (hp : IsBox t.nDim left s.pBboxLeft) (hq : IsBox t.nDim right s.pBboxRight) :
    (assignLoop t i l ii s).pLeft = s.pLeft ++ l.take (i - ii) ∧
    (assignLoop t i l ii s).pRight = s.pRight ++ l.drop (i - ii) ∧
    IsBox t.nDim (left ++ l.take (i - ii)) (assignLoop t i l ii s).pBboxLeft ∧
    IsBox t.nDim (right ++ l.drop (i - ii)) (assignLoop t i l ii s).pBboxRight ∧
    (assignLoop t i l ii s).inside = s.inside := by
  induction l generalizing ii s left right with
  | nil => simpa [assignLoop] using ⟨hp, hq⟩
  | cons c l ih =>
    rw [assignLoop]
    by_cases hlt : ii < i
    · rw [show i - ii = i - (ii + 1) + 1 by omega, List.take_succ_cons, List.drop_succ_cons] at *
      rw [List.length_cons] at hleft
      have hroom : nodeInsertCell t s.pLeft c = s.pLeft ++ [c] := if_pos (by omega)
      rw [if_pos hlt, hroom]
      have h := ih (ii + 1)
        { s with pLeft := s.pLeft ++ [c], pBboxLeft := cellUnion t.nDim s.pBboxLeft c }
        (by rw [List.length_append, List.length_singleton]; omega) hright (hp.union c) hq
      simpa using h
    · rw [show i - ii = 0 by omega, List.take_zero, List.drop_zero] at *
      rw [List.length_cons] at hright
      have hroom : nodeInsertCell t s.pRight c = s.pRight ++ [c] := if_pos (by omega)
      rw [if_neg hlt, hroom]
      have h := ih (ii + 1)
        { s with pRight := s.pRight ++ [c], pBboxRight := cellUnion t.nDim s.pBboxRight c }
      rw [show i - (ii + 1) = 0 by omega, List.take_zero, List.drop_zero] at h
      have h := h hleft (by rw [List.length_append, List.length_singleton]; omega) hp (hq.union c)
      simpa using h

end Loops

/-- What the split leaves: every cell is in one of the nodes, which have as many as they may, with the
smallest boxes around them, and the split is the best one in some dimension. -/
structure IsSplit (aCell : List (RtreeCell D)) (s : Split D) : Prop where
  perm : (s.pLeft ++ s.pRight).Perm aCell
  left_min : RTREE_MINCELLS t ≤ s.pLeft.length
  left_max : s.pLeft.length ≤ t.maxCells
  right_min : RTREE_MINCELLS t ≤ s.pRight.length
  right_max : s.pRight.length ≤ t.maxCells
  bboxLeft : IsBox t.nDim s.pLeft s.pBboxLeft
  bboxRight : IsBox t.nDim s.pRight s.pBboxRight
  best : ∃ d < t.nDim, ((s.pLeft ++ s.pRight).Pairwise fun c c' =>
      toLex (c.aCoord (d * 2), c.aCoord (d * 2 + 1)) ≤ toLex (c'.aCoord (d * 2), c'.aCoord (d * 2 + 1))) ∧
    IsBest ar t (s.pLeft ++ s.pRight) s.pLeft.length

/-- A sort leaves the permutation of `aIdx` that is sorted by the keys, and no index is outside of the arrays. -/
structure IsSorted {κ : Type} [LE κ] (key : ℕ → κ) (aIdx : List ℕ) (r : List ℕ × List ℕ × Bool) : Prop where
  perm : r.1.Perm aIdx
  sorted : r.1.Pairwise fun i j => key i ≤ key j
  inside : r.2.2 = true

variable {ar t}

theorem cellsOf_sorted {aCell : List (RtreeCell D)} {sorted : List ℕ} {d : ℕ}
    (h : sorted.Pairwise fun i j => cellKey aCell d i ≤ cellKey aCell d j) :
    (cellsOf aCell sorted).Pairwise fun c c' =>
      toLex (c.aCoord (d * 2), c.aCoord (d * 2 + 1)) ≤ toLex (c'.aCoord (d * 2), c'.aCoord (d * 2 + 1)) := by
  rw [cellsOf, List.pairwise_filterMap]
  refine h.imp fun hle c hc c' hc' => ?_
  rw [cellKey, cellKey, hc, hc'] at hle
  exact WithBot.coe_le_coe.mp hle

/-- `sorted` is the order of the cells in a dimension, and to split it after `i` cells is best. -/
def Chosen (ar : Arith D V) (t : Rtree D) (aCell : List (RtreeCell D)) (sorted : List ℕ) (i : ℕ) : Prop :=
  ∃ d < t.nDim, sorted.Perm (List.range aCell.length) ∧
    (sorted.Pairwise fun i j => cellKey aCell d i ≤ cellKey aCell d j) ∧ IsBest ar t (cellsOf aCell sorted) i

theorem bestLoop_chosen (ar : Arith D V) (hcap : 3 ≤ t.maxCells) {aCell : List (RtreeCell D)}
    (hfull : aCell.length = t.maxCells + 1)
    {aaSorted : List (List ℕ)} (hne : aaSorted ≠ [])
    (hsorted : ∀ sorted ∈ aaSorted, ∃ d < t.nDim, sorted.Perm (List.range aCell.length) ∧
      sorted.Pairwise fun i j => cellKey aCell d i ≤ cellKey aCell d j) :
    ∃ r, bestLoop ar t aCell aaSorted none = some r ∧ Chosen ar t aCell r.1 r.2.2 := by
  refine bestLoop_of aaSorted none (fun sorted hmem => ?_) (fun _ h => absurd h (by simp)) (.inl hne)
  obtain ⟨d, hd, hperm, hs⟩ := hsorted sorted hmem
  obtain ⟨b, hb, hbest⟩ := dimensionLoop_best ar hcap ((cellsOf_perm hperm).length_eq.trans hfull)
  exact ⟨b, hb, d, hd, hperm, hs, hbest⟩

/-- The loop that puts the cells into the nodes makes the split that was chosen. -/
theorem assignLoop_isSplit (hcap : 3 ≤ t.maxCells) {aCell : List (RtreeCell D)}
    (hfull : aCell.length = t.maxCells + 1) {sorted : List ℕ} {i : ℕ} (h : Chosen ar t aCell sorted i)
    (inside : Bool) :
    ∃ c c', (cellsOf aCell sorted)[0]? = some c ∧ (cellsOf aCell sorted)[i]? = some c' ∧
      IsSplit ar t aCell (assignLoop t i (cellsOf aCell sorted) 0 ⟨[], [], c, c', inside⟩) ∧
      (assignLoop t i (cellsOf aCell sorted) 0 ⟨[], [], c, c', inside⟩).inside = inside := by
  obtain ⟨hpos, hthird⟩ := minCells_facts hcap
  obtain ⟨d, hd, hperm, hs, hbest⟩ := h
  have hcells := cellsOf_perm hperm
  have hcount := hcells.length_eq.trans hfull
  have hinorder := cellsOf_sorted hs
  have hlower := hbest.lower
  have hupper := hbest.upper
  generalize cellsOf aCell sorted = cells at *
  obtain ⟨c, hfirst⟩ : ∃ c, cells[0]? = some c := ⟨_, List.getElem?_eq_getElem (by omega : 0 < cells.length)⟩
  obtain ⟨c', hsplit⟩ : ∃ c, cells[i]? = some c := ⟨_, List.getElem?_eq_getElem (by omega : i < cells.length)⟩
  have hlen : (cells.take i).length = i := by
    rw [List.length_take]
    omega
  have hlen' : (cells.drop i).length = cells.length - i := List.length_drop
  obtain ⟨hleft, hright, hp, hq, hin⟩ := assignLoop_eq (t := t) (i := i) cells 0 ⟨[], [], c, c', inside⟩
    (by rw [Nat.sub_zero, hlen, List.length_nil]; omega) (by rw [Nat.sub_zero, hlen', List.length_nil]; omega)
    (.single c) (.single c')
  rw [Nat.sub_zero, List.nil_append] at hleft hright
  rw [Nat.sub_zero] at hp hq
  have happ := List.take_append_drop i cells
  refine ⟨c, c', hfirst, hsplit, ?_, hin⟩
  have hmem : c ∈ cells.take i := List.mem_of_getElem? (i := 0) (by
    rw [List.getElem?_take_of_lt (by omega), hfirst])
  have hmem' : c' ∈ cells.drop i := List.mem_of_getElem? (i := 0) (by
    rw [List.getElem?_drop, Nat.add_zero, hsplit])
  refine ⟨?_, ?_, ?_, ?_, ?_, ?_, ?_, d, hd, ?_⟩ <;> simp only [hleft, hright, happ, hlen, hlen']
  · exact hcells
  · exact hlower
  · omega
  · omega
  · omega
  · refine hp.congr fun x => ?_
    rw [List.mem_append, List.mem_singleton]
    exact ⟨fun h => h.elim (fun h => h ▸ hmem) id, .inr⟩
  · refine hq.congr fun x => ?_
    rw [List.mem_append, List.mem_singleton]
    exact ⟨fun h => h.elim (fun h => h ▸ hmem') id, .inr⟩
  · exact ⟨hinorder, hbest⟩

/-- The split is always right. Its sorts stay inside of their arrays just if the halves rise in each
dimension. -/
theorem splitNodeStartree_isSplit (ar : Arith D V) (t : Rtree D) (hdim : 1 ≤ t.nDim)
    (hcap : 3 ≤ t.maxCells) {aCell : List (RtreeCell D)}
    (hfull : aCell.length = t.maxCells + 1) : ∃ s, splitNodeStartree ar t aCell = some s ∧
      IsSplit ar t aCell s ∧
      (s.inside = true ↔ ∀ d < t.nDim, halvesRise (cellKey aCell d) (List.range aCell.length) = true) := by
  have hzero : ∀ i ∈ List.replicate aCell.length 0, i < aCell.length := fun i hi => by
    rw [List.eq_of_mem_replicate hi]
    omega
  obtain ⟨hlength, hsorted, hinside⟩ := sortLoop_sorts t.nDim 0 hzero List.length_replicate
  obtain ⟨⟨aaSorted, inside⟩, hsort⟩ :
    ∃ r, sortLoop aCell t.nDim 0 (List.replicate aCell.length 0) = r := ⟨_, rfl⟩
  rw [hsort] at hlength hsorted hinside
  obtain ⟨⟨sorted, f, i⟩, hloop, hchosen⟩ := bestLoop_chosen ar hcap hfull
    (List.ne_nil_of_length_pos (by rw [hlength]; exact hdim)) fun sorted hmem =>
      (hsorted sorted hmem).imp fun d ⟨_, hlt, hfacts⟩ => ⟨by omega, hfacts⟩
  obtain ⟨c, c', hfirst, hsplit, hsound, hin⟩ := assignLoop_isSplit hcap hfull hchosen inside
  refine ⟨_, ?_, hsound, ?_⟩
  · simp [splitNodeStartree, hsort, hloop, hfirst, hsplit]
  · rw [hin, hinside]
    exact ⟨fun h d hd => h d (Nat.zero_le d) (by omega), fun h d _ hd => h d (by omega)⟩

/-- A split is made as it should be, and the sorts have no index outside of their arrays, just if the largest
key of the right half is greater than the largest of the left half wherever `SortByDimension` merges. -/
theorem SplitNode_iff [LinearOrder K] (ar : Arith D V) (t : Rtree D) (hdim : 1 ≤ t.nDim)
    (hcap : 3 ≤ t.maxCells)
    (pNode : RtreeNode D) (pCell : RtreeCell D) (hfull : pNode.cells.length = t.maxCells)
    (aCell : List (RtreeCell D)) (aDistance : List K) (aIdx aSpare : List ℕ) (iDim : ℕ)
    (hcells : aIdx.Perm (List.range aCell.length)) (hdistances : aIdx.Perm (List.range aDistance.length))
    (hlen : aSpare.length = aIdx.length) (hspare : ∀ i ∈ aSpare, i < aIdx.length) :
    ((∃ s, SplitNode ar t pNode pCell = some s ∧ IsSplit ar t (pNode.cells ++ [pCell]) s ∧ s.inside = true) ∧
      IsSorted (cellKey aCell iDim) aIdx (SortByDimension aIdx iDim aCell aSpare) ∧
      IsSorted (distanceKey aDistance) aIdx (SortByDistance aIdx aDistance aSpare)) ↔
    (∀ d < t.nDim, halvesRise (cellKey (pNode.cells ++ [pCell]) d) (List.range (t.maxCells + 1)) = true) ∧
      halvesRise (cellKey aCell iDim) aIdx = true := by
  have hlength : (pNode.cells ++ [pCell]).length = t.maxCells + 1 := by
    rw [List.length_append, hfull, List.length_singleton]
  obtain ⟨s, hs, hsound, hinside⟩ := splitNodeStartree_isSplit ar t hdim hcap hlength
  rw [hlength] at hinside
  have hcount : aIdx.length = aCell.length := by rw [hcells.length_eq, List.length_range]
  have hmem : ∀ i ∈ aIdx, i < aCell.length := fun i hi => List.mem_range.mp (hcells.mem_iff.mp hi)
  have hmem' : ∀ i ∈ aIdx, i < aDistance.length := fun i hi => List.mem_range.mp (hdistances.mem_iff.mp hi)
  have hdimension : Sorts (cellKey aCell iDim) _ true aIdx aSpare _ :=
    SortByDimension_sorts hmem (fun i hi => hcount ▸ hspare i hi) hlen.ge
  have hdistance := SortByDistance_sorts hmem' hlen.ge
  constructor
  · rintro ⟨⟨s', hs', -, hin⟩, hsorted, -⟩
    obtain rfl : s = s' := Option.some.inj (hs.symm.trans hs')
    exact ⟨hinside.mp hin, by simpa [hdimension.inside] using hsorted.inside⟩
  · rintro ⟨hrise, hrise'⟩
    refine ⟨⟨s, hs, hsound, hinside.mpr hrise⟩, ⟨hdimension.perm, hdimension.sorted, ?_⟩,
      hdistance.perm, hdistance.sorted, ?_⟩
    · rw [hdimension.inside, hrise']
      rfl
    · rw [hdistance.inside]
      rfl

/-- The arithmetic of coordinates that are small integers. -/
def intArith : Arith ℤ ℤ where
  zero := 0
  one := 1
  add := (· + ·)
  mul := (· * ·)
  sub := (· - ·)
  lt a b := a < b
  eq a b := a = b
  lt_irrefl a := by simp
  lt_trans a b c := by simpa using lt_trans
  lt_eq a b c h h' := by simpa [← of_decide_eq_true h'] using h
  eq_lt a b c h h' := by simpa [of_decide_eq_true h] using h'
  eq_trans a b c := by simpa using Eq.trans

/-- A table with one dimension in a database with pages of 512 bytes. -/
def table : Rtree ℤ := ⟨1, getNodeSize 512 16, fun _ => none⟩

/-- The entry of a row, from `x` to `x + 1`. -/
def entry (iRowid x : ℤ) : RtreeCell ℤ := ⟨iRowid, fun i => if i = 0 then x else x + 1⟩

/-- A full node where the entries ascend, and one more entry at the end. -/
theorem SplitNode_iff_ascending :
    let pNode : RtreeNode ℤ := ⟨1, (List.range 27).map fun k => entry k k⟩
    ((∃ s, SplitNode intArith table pNode (entry 27 27) = some s ∧
        IsSplit intArith table (pNode.cells ++ [entry 27 27]) s ∧ s.inside = true) ∧
      IsSorted (cellKey [entry 1 5, entry 2 7] 0) [0, 1]
        (SortByDimension [0, 1] 0 [entry 1 5, entry 2 7] [0, 0]) ∧
      IsSorted (distanceKey [(4 : ℤ), 3]) [0, 1] (SortByDistance [0, 1] [(4 : ℤ), 3] [0, 0])) ↔
    (∀ d < 1, halvesRise (cellKey (pNode.cells ++ [entry 27 27]) d) (List.range 28) = true) ∧
      halvesRise (cellKey [entry 1 5, entry 2 7] 0) [0, 1] = true :=
  SplitNode_iff intArith table (by decide) (by decide) _ _ rfl [entry 1 5, entry 2 7] [4, 3] [0, 1] [0, 0] 0
    (List.Perm.refl _) (List.Perm.refl _) rfl (by decide)

/-- With 28 entries for the same interval the last merge uses up the right half first, and goes on to read
its head. -/
theorem SplitNode_outside :
    let pNode : RtreeNode ℤ := ⟨1, (List.range 27).map fun k => entry k 0⟩
    ∃ s, SplitNode intArith table pNode (entry 27 0) = some s ∧ s.inside = false := by
  intro pNode
  have hlength : (pNode.cells ++ [entry 27 0]).length = table.maxCells + 1 := rfl
  obtain ⟨s, hs, -, hinside⟩ := splitNodeStartree_isSplit intArith table (by decide) (by decide) hlength
  refine ⟨s, hs, Bool.eq_false_iff.mpr fun htrue => ?_⟩
  have hrise := hinside.mp htrue 0 (by decide)
  rw [halvesRise_of_long (by rw [List.length_range, hlength]; decide), Bool.and_eq_true] at hrise
  exact absurd hrise.2 (by decide +kernel)

end Sqlite.RtreeSplit
