import Sqlite.BtreeCursor.Step

/-! Where a search takes a cursor. -/
namespace Sqlite.BtreeCursor

open CursorState

variable {K : Type} [LinearOrder K] {t : BtShared K} {intKey : Bool} {root depth h pgno n : ℕ}
  {parents : List (ℕ × ℕ)} {pre post : List K} {x y : K} {c : BtCursor K} {g : K → ℤ}

theorem keyCompare_eq_zero {k : K} : keyCompare k x = 0 ↔ x = k := by
  unfold keyCompare
  split <;> [simp_all; (split <;> simp_all)]

theorem keyCompare_neg {k : K} : keyCompare k x < 0 ↔ x < k := by
  unfold keyCompare
  split
  · simp_all
  · split <;> simp_all

theorem keyCompare_pos {k : K} : 0 < keyCompare k x ↔ k < x := by
  unfold keyCompare
  split
  · simp_all
  · split
    · simp_all [le_of_lt]
    · simp_all [lt_iff_le_and_ne, eq_comm]

/-- A comparison whose sign follows the order of the keys. -/
def Follows (g : K → ℤ) : Prop := ∀ ⦃x y⦄, x ≤ y → (g x).sign ≤ (g y).sign

theorem Follows.neg (hg : Follows g) (hxy : x ≤ y) (hy : g y < 0) : g x < 0 := by
  rw [← Int.sign_neg_iff] at hy ⊢
  exact lt_of_le_of_lt (hg hxy) hy

theorem Follows.pos (hg : Follows g) (hxy : x ≤ y) (hx : 0 < g x) : 0 < g y := by
  rw [← Int.sign_pos_iff] at hx ⊢
  exact lt_of_lt_of_le hx (hg hxy)

/-- A comparison that holds for equality of one key at most. -/
def Sharp (g : K → ℤ) : Prop := ∀ x y, x < y → g x < 0 ∨ 0 < g y

theorem sharp_keyCompare (k : K) : Sharp (keyCompare k) := by
  intro x y hxy
  rcases lt_or_ge x k with hxk | hkx
  · exact .inl (keyCompare_neg.mpr hxk)
  · exact .inr (keyCompare_pos.mpr (lt_of_le_of_lt hkx hxy))

theorem Sharp.follows (hg : Sharp g) : Follows g := by
  intro x y hxy
  rcases eq_or_lt_of_le hxy with rfl | hlt
  · exact le_refl _
  · have hx := Int.sign_trichotomy (g x)
    have hy := Int.sign_trichotomy (g y)
    rcases hg x y hlt with hneg | hpos
    · have hsign := Int.sign_eq_neg_one_of_neg hneg
      omega
    · have hsign := Int.sign_eq_one_of_pos hpos
      omega

/-- How the cells of a page compare: those below `l` are less, and the others are not, and are
greater if `strict`. -/
def Parts (p : MemPage K) (g : K → ℤ) (l : ℕ) (strict : Prop) : Prop :=
  ∀ j key, (keysOf p)[j]? = some key →
    (j < l → g key < 0) ∧ (l ≤ j → 0 ≤ g key ∧ (strict → 0 < g key))

/-- The binary search ends at a cell it has compared, beside the place of the key. -/
theorem searchLoop_eq {p : MemPage K} {f : K → ℤ} (lwr upr idx : ℤ) (h0 : 0 ≤ lwr)
    (h1 : lwr ≤ idx) (h2 : idx ≤ upr) (h3 : upr < p.nCell) (hn : upr - lwr < n) :
    ∃ (i l : ℕ) (x : K), searchLoop p f n lwr upr idx = pure (i, f x, (l : ℤ)) ∧
      (keysOf p)[i]? = some x ∧ l ≤ p.nCell ∧ (f x < 0 → l = i + 1) ∧ (0 ≤ f x → l = i) ∧
      ∀ g, (∀ y ∈ keysOf p, f y = g y) → Follows g → (f x = 0 → Sharp g) →
        (keysOf p).Pairwise (· < ·) →
        (∀ (j : ℕ) key, (keysOf p)[j]? = some key → (j < lwr → g key < 0) ∧ (upr < j → 0 < g key)) →
        Parts p g l (f x ≠ 0) := by
  induction n generalizing lwr upr idx with
  | zero => omega
  | succ n ih =>
    have hidx : idx.toNat < p.nCell := by omega
    obtain ⟨cell, hcell, -, hkey⟩ := findCell_eq hidx
    have hmem : cell.key ∈ keysOf p := List.mem_of_getElem? hkey
    rw [searchLoop, hcell, pure_bind]
    simp only
    by_cases hzero : f cell.key = 0
    · rw [if_pos hzero]
      refine ⟨idx.toNat, idx.toNat, cell.key, ?_, hkey, by omega, by omega, by omega, ?_⟩
      · rw [hzero, Int.toNat_of_nonneg (by omega)]
      intro g hfg _ hsharp hsort _ j key hj
      rw [hfg _ hmem] at hzero
      obtain ⟨hj', hget⟩ := List.getElem?_eq_some_iff.mp hj
      obtain ⟨hi', hgeti⟩ := List.getElem?_eq_some_iff.mp hkey
      rw [List.pairwise_iff_getElem] at hsort
      have hsharp := hsharp ((hfg _ hmem).trans hzero)
      constructor
      · intro hlt
        have hbelow := hsort _ _ hj' hi' hlt
        rw [hget, hgeti] at hbelow
        rcases hsharp _ _ hbelow with hneg | hpos
        · exact hneg
        · omega
      · intro hle
        refine ⟨?_, fun hne => absurd ((hfg _ hmem).trans hzero) hne⟩
        rcases Nat.lt_or_eq_of_le hle with hlt | heq
        · have habove := hsort _ _ hi' hj' hlt
          rw [hget, hgeti] at habove
          rcases hsharp _ _ habove with hneg | hpos
          · omega
          · exact le_of_lt hpos
        · subst heq
          rw [← hget, hgeti, hzero]
    · rw [if_neg hzero]
      generalize hlwr : (if f cell.key < 0 then idx + 1 else lwr) = lwr'
      generalize hupr : (if f cell.key < 0 then upr else idx - 1) = upr'
      have hsides : (f cell.key < 0 ∧ lwr' = idx + 1 ∧ upr' = upr) ∨
          (0 < f cell.key ∧ lwr' = lwr ∧ upr' = idx - 1) := by
        split at hlwr <;> split at hupr <;> omega
      -- what is known of the other cells after the comparison
      have hbounds (g : K → ℤ) (hfg : ∀ y ∈ keysOf p, f y = g y) (hg : Follows g)
          (hsort : (keysOf p).Pairwise (· < ·))
          (hb : ∀ (j : ℕ) key, (keysOf p)[j]? = some key →
            (j < lwr → g key < 0) ∧ (upr < j → 0 < g key)) (j : ℕ) (key : K)
          (hj : (keysOf p)[j]? = some key) : (j < lwr' → g key < 0) ∧ (upr' < j → 0 < g key) := by
        obtain ⟨hj', hget⟩ := List.getElem?_eq_some_iff.mp hj
        obtain ⟨hi', hgeti⟩ := List.getElem?_eq_some_iff.mp hkey
        rw [List.pairwise_iff_getElem] at hsort
        rw [hfg _ hmem] at hsides
        rcases hsides with ⟨hneg, rfl, rfl⟩ | ⟨hpos, rfl, rfl⟩
        · refine ⟨fun hlt => ?_, (hb j key hj).2⟩
          rcases Nat.lt_or_ge j idx.toNat with hji | hji
          · have hbelow := hsort _ _ hj' hi' hji
            rw [hget, hgeti] at hbelow
            exact hg.neg (le_of_lt hbelow) hneg
          · have heq : j = idx.toNat := by omega
            subst heq
            rwa [← hget, hgeti]
        · refine ⟨(hb j key hj).1, fun hlt => ?_⟩
          rcases Nat.lt_or_ge idx.toNat j with hji | hji
          · have habove := hsort _ _ hi' hj' hji
            rw [hget, hgeti] at habove
            exact hg.pos (le_of_lt habove) hpos
          · have heq : j = idx.toNat := by omega
            subst heq
            rwa [← hget, hgeti]
      by_cases hend : lwr' > upr'
      · rw [if_pos hend]
        refine ⟨idx.toNat, lwr'.toNat, cell.key, ?_, hkey, by omega, by omega, by omega, ?_⟩
        · rw [Int.toNat_of_nonneg (by omega)]
        · intro g hfg hg _ hsort hb j key hj
          obtain ⟨hlow, hhigh⟩ := hbounds g hfg hg hsort hb j key hj
          refine ⟨fun hlt => hlow (by omega), fun hle => ?_⟩
          have hlt := hhigh (by omega)
          exact ⟨le_of_lt hlt, fun _ => hlt⟩
      · rw [if_neg hend]
        obtain ⟨i, l, x, hloop, hx, hl, hneg, hpos, hparts⟩ :=
          ih lwr' upr' ((lwr' + upr') / 2) (by omega) (by omega) (by omega) (by omega) (by omega)
        exact ⟨i, l, x, hloop, hx, hl, hneg, hpos, fun g hfg hg hsharp hsort hb =>
          hparts g hfg hg hsharp hsort (hbounds g hfg hg hsort hb)⟩

/-- The cells of a page that a search passes on its left side, and the entries below them. -/
theorem before_neg (ht : IsTree t intKey (h + 1) pgno) (hg : Follows g) {l : ℕ} {strict : Prop}
    (hl : l ≤ (pageAt t pgno).nCell) (hparts : Parts (pageAt t pgno) g l strict)
    (hy : y ∈ before (entries t h) (pageAt t pgno) l) : g y < 0 := by
  obtain ⟨i, hi, hy⟩ := List.mem_flatMap.mp hy
  have hil : i < l := by simpa using hi
  have hi' : i < (keysOf (pageAt t pgno)).length := by
    rw [keysOf_length]
    omega
  have hcell := List.getElem?_eq_getElem hi'
  have hlt := (hparts i _ hcell).1 hil
  rcases List.mem_append.mp hy with hy | hy
  · exact hg.neg ((ht.between (by omega) hy hcell).1 (Nat.le_refl i)).1 hlt
  · obtain ⟨-, hy⟩ := mem_separator hy
    exact (hparts i y hy).1 hil

theorem behind_pos (ht : IsTree t intKey (h + 1) pgno) (hg : Follows g) {l : ℕ} {strict : Prop}
    (hparts : Parts (pageAt t pgno) g l strict) (hstrict : strict ∨ (intKey = true ∧ Sharp g))
    (hy : y ∈ behind (entries t h) (pageAt t pgno) l) : 0 < g y := by
  have hkind := ht.page.2.1
  have hsep {i : ℕ} (hi : l ≤ i) (hy : y ∈ separator (pageAt t pgno) i) : 0 < g y := by
    obtain ⟨hidx, hy⟩ := mem_separator hy
    refine ((hparts i y hy).2 hi).2 (hstrict.resolve_right fun hboth => ?_)
    simp [hkind, hboth.1] at hidx
  rcases List.mem_append.mp hy with hy | hy
  · exact hsep (Nat.le_refl l) hy
  · obtain ⟨i, hi, hy⟩ := List.mem_flatMap.mp hy
    rw [List.mem_range'_1] at hi
    rcases List.mem_append.mp hy with hy | hy
    · have hi' : i - 1 < (keysOf (pageAt t pgno)).length := by
        rw [keysOf_length]
        omega
      have hcell := List.getElem?_eq_getElem hi'
      obtain ⟨hnonneg, hpos⟩ := (hparts (i - 1) _ hcell).2 (by omega)
      have hlt := (ht.between (by omega) hy hcell).2 (by omega)
      rcases hstrict with hstrict | ⟨-, hsharp⟩
      · exact hg.pos (le_of_lt hlt) (hpos hstrict)
      · exact (hsharp _ _ hlt).resolve_left (by omega)
    · exact hsep (by omega) hy

/-- A cursor that a search has left at an entry. -/
def Lands (t : BtShared K) (root depth : ℕ) (c c' : BtCursor K) (pre : List K) (x : K)
    (post : List K) : Prop :=
  ∃ stack validNKey nKey, At t root depth stack pre x post ∧ (validNKey = true → nKey = some x) ∧
    c' = { c with stack := stack, parsed := false, validNKey := validNKey, nKey := nKey }

omit [LinearOrder K] in
theorem compared_lands {p : MemPage K} {i j : ℕ} (hc : c.stack = (pgno, j) :: parents)
    (hclean : c.forget = c) (hx : (keysOf p)[i]? = some x)
    (hat : At t root depth ((pgno, i) :: parents) pre x post) :
    Lands t root depth c (c.compared p i) pre x post := by
  have hvalid : c.validNKey = false := by rw [← hclean]; rfl
  have hx' : p.cells[i]?.map Cell.key = some x := by simpa [keysOf] using hx
  have hset : c.setIdx i = { c with stack := (pgno, i) :: parents } := by rw [BtCursor.setIdx, hc]
  refine ⟨(pgno, i) :: parents, p.intKey, if p.intKey then some x else c.nKey, hat, ?_, ?_⟩
  · intro hkind
    simp [hkind]
  · cases hkind : p.intKey <;> simp [BtCursor.compared, hset, hkind, hx', hvalid]

/-- One turn of a search, after the cells of the page have been compared. -/
theorem movetoLoop_succ (hw : WellFormed t root intKey depth)
    (ha : Above t root depth h pgno parents pre post) (hpos : 0 < (pageAt t pgno).nCell) {j : ℕ}
    (hc : c.stack = (pgno, j) :: parents) (key : SearchKey K) (bias : Bool) :
    ∃ (i l : ℕ) (x : K), (keysOf (pageAt t pgno))[i]? = some x ∧ l ≤ (pageAt t pgno).nCell ∧
      (key.compare x < 0 → l = i + 1) ∧ (0 ≤ key.compare x → l = i) ∧
      (∀ g, (∀ y ∈ keysOf (pageAt t pgno), key.compare y = g y) → Follows g →
        (key.compare x = 0 → Sharp g) → Parts (pageAt t pgno) g l (key.compare x ≠ 0)) ∧
      movetoLoop t key bias (n + 1) c =
        if key.compare x = 0 ∧ ¬ ((pageAt t pgno).intKey = true ∧ (pageAt t pgno).leaf = false) then
          pure (0, c.compared (pageAt t pgno) i)
        else
          let chldPg := if (pageAt t pgno).leaf then 0 else childPgno (pageAt t pgno) l
          if chldPg = 0 then pure (key.compare x, c.compared (pageAt t pgno) i)
          else moveToChild t ((c.compared (pageAt t pgno) i).setIdx l).forget chldPg >>=
            movetoLoop t key bias n := by
  obtain ⟨-, htree, -, -⟩ := ha.facts hw
  let upr : ℤ := (pageAt t pgno).nCell - 1
  let idx : ℤ := if bias then upr else (upr + 0) / 2
  have hidx : 0 ≤ idx ∧ idx ≤ upr := by
    unfold idx upr
    split <;> omega
  obtain ⟨i, l, x, hloop, hx, hl, hneg, hnonneg, hparts⟩ := searchLoop_eq (p := pageAt t pgno)
    (f := key.compare) (n := (pageAt t pgno).nCell) 0 upr idx (Int.le_refl 0) hidx.1 hidx.2
    (by unfold upr; omega) (by unfold upr; omega)
  refine ⟨i, l, x, hx, hl, hneg, hnonneg, fun g hfg hg hsharp => ?_, ?_⟩
  · refine hparts g hfg hg hsharp htree.page.2.2.2 fun j key hj => ?_
    obtain ⟨hj', -⟩ := List.getElem?_eq_some_iff.mp hj
    rw [keysOf_length] at hj'
    exact ⟨fun hlt => by omega, fun hlt => by unfold upr at hlt; omega⟩
  · rw [movetoLoop, ha.page hw hc, pure_bind]
    simp only
    rw [hloop, pure_bind]
    simp only [Int.toNat_natCast]

/-- `g` gives what is found when the keys of the tree's pages are compared. -/
def Compares (t : BtShared K) (root depth : ℕ) (f g : K → ℤ) : Prop :=
  ∀ h pgno parents pre post, Above t root depth h pgno parents pre post →
    ∀ y ∈ keysOf (pageAt t pgno), f y = g y

omit [LinearOrder K] in
theorem At.compare_eq {stack : List (ℕ × ℕ)} {f : K → ℤ} (hat : At t root depth stack pre x post)
    (hfg : Compares t root depth f g) : f x = g x := by
  cases hat with
  | leaf hup hkeys => exact hfg _ _ _ _ _ hup x (by simp [hkeys])
  | interior hup hkind hx => exact hfg _ _ _ _ _ hup x (List.mem_of_getElem? hx)

/-- The descent of a search. When all entries outside of a page lie on their sides of the key, it
ends beside the place of the key. -/
theorem movetoLoop_eq (hw : WellFormed t root intKey depth)
    (ha : Above t root depth h pgno parents pre post) (hpos : 0 < (pageAt t pgno).nCell) {j : ℕ}
    (hc : c.stack = (pgno, j) :: parents) (hclean : c.forget = c) (hn : h < n) (key : SearchKey K)
    (bias : Bool) : ∃ c' pre' x post', movetoLoop t key bias n c = pure (key.compare x, c') ∧
      Lands t root depth c c' pre' x post' ∧ ∀ g, Compares t root depth key.compare g → Follows g →
        (intKey = true → Sharp g) → (∀ y ∈ pre, g y < 0) → (∀ y ∈ post, 0 < g y) →
        (0 < g x → ∀ y ∈ pre', g y < 0) ∧ (g x < 0 → ∀ y ∈ post', 0 < g y) := by
  induction h generalizing n pgno parents pre post c j with
  | zero =>
    obtain ⟨n, rfl⟩ : ∃ k, n = k + 1 := ⟨n - 1, by omega⟩
    obtain ⟨-, htree, -, -⟩ := ha.facts hw
    have hleaf : (pageAt t pgno).leaf = true := by simpa using htree.page.2.2.1
    obtain ⟨i, l, x, hx, hl, hneg, hnonneg, hparts, hloop⟩ :=
      movetoLoop_succ (n := n) hw ha hpos hc key bias
    obtain ⟨hi, hget⟩ := List.getElem?_eq_some_iff.mp hx
    have hkeys : keysOf (pageAt t pgno) =
        (keysOf (pageAt t pgno)).take i ++ x :: (keysOf (pageAt t pgno)).drop (i + 1) := by
      rw [← hget, List.getElem_cons_drop, List.take_append_drop]
    have hlen : ((keysOf (pageAt t pgno)).take i).length = i := by
      rw [List.length_take]
      omega
    have hat := At.leaf ha hkeys
    rw [hlen] at hat
    refine ⟨_, _, x, _, ?_, compared_lands hc hclean hx hat, fun g hfg hg _ hpre hpost => ?_⟩
    · rw [hloop]
      by_cases hzero : key.compare x = 0
      · simp [hleaf, hzero]
      · simp [hleaf, hzero]
    · have hpage := hfg _ _ _ _ _ ha
      have hgx := hpage x (List.mem_of_getElem? hx)
      rw [hgx] at hneg hnonneg hparts
      refine ⟨fun hgt y hy => ?_, fun hlt y hy => ?_⟩
      · have hparts := hparts g hpage hg fun h0 => by omega
        have hli := hnonneg (le_of_lt hgt)
        rcases List.mem_append.mp hy with hy | hy
        · exact hpre y hy
        · obtain ⟨j, hj, rfl⟩ := List.mem_take_iff_getElem.mp hy
          exact (hparts j _ (List.getElem?_eq_getElem (by omega))).1 (by omega)
      · have hparts := hparts g hpage hg fun h0 => by omega
        have hli := hneg hlt
        rcases List.mem_append.mp hy with hy | hy
        · obtain ⟨j, hj, rfl⟩ := List.mem_drop_iff_getElem.mp hy
          exact ((hparts _ _ (List.getElem?_eq_getElem (by omega))).2 (by omega)).2 (by omega)
        · exact hpost y hy
  | succ h ih =>
    obtain ⟨n, rfl⟩ : ∃ k, n = k + 1 := ⟨n - 1, by omega⟩
    obtain ⟨-, htree, -, -⟩ := ha.facts hw
    have hleaf : (pageAt t pgno).leaf = false := by simpa using htree.page.2.2.1
    obtain ⟨i, l, x, hx, hl, hneg, hnonneg, hparts, hloop⟩ :=
      movetoLoop_succ (n := n) hw ha hpos hc key bias
    rw [hloop]
    by_cases hstop : key.compare x = 0 ∧ ¬ ((pageAt t pgno).intKey = true ∧
        (pageAt t pgno).leaf = false)
    · have hkind : (pageAt t pgno).intKey = false := by
        by_contra hne
        exact hstop.2 ⟨by simpa using hne, hleaf⟩
      refine ⟨_, _, x, _, ?_, compared_lands hc hclean hx (At.interior ha hkind hx),
        fun g hfg _ _ _ _ => ?_⟩
      · rw [if_pos hstop, hstop.1]
      · have hgx := hfg _ _ _ _ _ ha x (List.mem_of_getElem? hx)
        have hzero := hstop.1
        exact ⟨fun hlt => by omega, fun hlt => by omega⟩
    · rw [if_neg hstop]
      simp only [hleaf, Bool.false_eq_true, if_false]
      have hchild := ha.child hl
      obtain ⟨-, htree', -, -⟩ := hchild.facts hw
      have hne : childPgno (pageAt t pgno) l ≠ 0 := by
        intro h0
        have hpage := htree'.page.1
        rw [h0, hw.zero] at hpage
        simp at hpage
      obtain ⟨nKey, hset⟩ : ∃ nKey, ((c.compared (pageAt t pgno) i).setIdx l).forget =
          { c with stack := (pgno, l) :: parents, nKey := nKey } := by
        have hparsed : c.parsed = false := by rw [← hclean]; rfl
        have hvalid : c.validNKey = false := by rw [← hclean]; rfl
        refine ⟨(c.compared (pageAt t pgno) i).nKey, ?_⟩
        cases hkind : (pageAt t pgno).intKey <;>
          simp [BtCursor.compared, BtCursor.setIdx, BtCursor.forget, hc, hkind, hparsed, hvalid]
      rw [if_neg hne, hset, moveToChild_eq hw ha hl rfl, pure_bind]
      let c₁ : BtCursor K := { c.forget with
        stack := (childPgno (pageAt t pgno) l, 0) :: (pgno, l) :: parents, nKey := nKey }
      obtain ⟨c', pre', y, post', hmove, hlands, hside⟩ := ih (n := n) (c := c₁) hchild
        (htree.child hl).2 rfl rfl (by omega)
      refine ⟨c', pre', y, post', hmove, ?_, fun g hfg hg hsharp hpre hpost => ?_⟩
      · obtain ⟨stack, validNKey, nKey', hat, hvalid, rfl⟩ := hlands
        exact ⟨stack, validNKey, nKey', hat, hvalid, by simp [c₁, BtCursor.forget]⟩
      · -- an equal cell is passed in a table only
        have hkind (h0 : key.compare x = 0) : intKey = true := by
          by_contra hidx
          refine hstop ⟨h0, fun hboth => hidx ?_⟩
          rw [← htree.page.2.1, hboth.1]
        have hparts := hparts g (hfg _ _ _ _ _ ha) hg fun h0 => hsharp (hkind h0)
        refine hside g hfg hg hsharp (fun z hz => ?_) fun z hz => ?_
        · rcases List.mem_append.mp hz with hz | hz
          · exact hpre z hz
          · exact before_neg htree hg hl hparts hz
        · rcases List.mem_append.mp hz with hz | hz
          · refine behind_pos htree hg hparts ?_ hz
            by_cases h0 : key.compare x = 0
            · exact .inr ⟨hkind h0, hsharp (hkind h0)⟩
            · exact .inl h0
          · exact hpost z hz

end Sqlite.BtreeCursor
