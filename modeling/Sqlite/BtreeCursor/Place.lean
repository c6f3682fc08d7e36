import Sqlite.BtreeCursor.Sane

/-! Where a cursor is after it has written to its tree. -/
namespace Sqlite.BtreeCursor

open CursorState

section
variable {α β : Type} {l₁ l₂ : List α} {a b : α}

theorem insertIdx_middle : (l₁ ++ l₂).insertIdx l₁.length a = l₁ ++ a :: l₂ := by
  induction l₁ with
  | nil => rfl
  | cons x l₁ ih => simp [ih]

theorem eraseIdx_middle : (l₁ ++ a :: l₂).eraseIdx l₁.length = l₁ ++ l₂ := by
  rw [List.eraseIdx_append_of_length_le (Nat.le_refl _), Nat.sub_self, List.eraseIdx_cons_zero]

end

variable {K : Type} {t t' : BtShared K} {root depth h pgno i : ℕ} {intKey : Bool}
  {parents : List (ℕ × ℕ)} {c c' : BtCursor K} {pre post : List K} {x key : K} {p p' : MemPage K}

theorem keysOf_middle (p : MemPage K) (l₁ l₂ : List (Cell K)) (cell : Cell K) :
    keysOf { p with cells := l₁ ++ cell :: l₂ } = l₁.map Cell.key ++ cell.key :: l₂.map Cell.key := by
  simp [keysOf]

theorem split_at (hi : i < p.nCell) :
    ∃ l₁ cell l₂, p.cells = l₁ ++ cell :: l₂ ∧ l₁.length = i := by
  have hi' : i < p.cells.length := hi
  refine ⟨p.cells.take i, p.cells[i], p.cells.drop (i + 1), ?_, ?_⟩
  · rw [List.getElem_cons_drop, List.take_append_drop]
  · rw [List.length_take]
    exact Nat.min_eq_left (Nat.le_of_lt hi')

/-- What is put in at a cell, and where. -/
theorem placeCell_middle {l₁ l₂ : List (Cell K)} {cell : Cell K} {loc : ℤ}
    (hcells : p.cells = l₁ ++ cell :: l₂) (hstack : c.stack = (pgno, l₁.length) :: parents)
    (hplace : placeCell p c key loc = pure (p', c')) :
    ∃ m₁ m₂ leftChild, p' = { p with cells := m₁ ++ ⟨leftChild, key⟩ :: m₂ } ∧
      c' = { c with stack := (pgno, m₁.length) :: parents } ∧
      (p.leaf = false → m₁ = l₁ ∧ loc = 0) ∧ (loc ≤ 0 → m₂ = l₂) := by
  have hidx : c.idx = l₁.length := by simp [BtCursor.idx, hstack]
  have hsame : { c with stack := (pgno, l₁.length) :: parents } = c := by rw [← hstack]
  unfold placeCell at hplace
  by_cases h0 : loc = 0
  · have hfind : findCell p l₁.length = pure cell := by
      have hget : p.cells[l₁.length]? = some cell := by simp [hcells]
      rw [findCell, hget]
      rfl
    rw [if_pos h0, hidx, hfind, pure_bind] at hplace
    cases hplace
    refine ⟨l₁, l₂, if p.leaf then 0 else cell.leftChild, ?_, hsame.symm, fun _ => ⟨rfl, h0⟩,
      fun _ => rfl⟩
    rw [insertCell, dropCell, hcells, eraseIdx_middle, insertIdx_middle]
  · rw [if_neg h0] at hplace
    by_cases hleaf : p.leaf = false
    · rw [if_pos hleaf] at hplace
      cases hplace
    · rw [if_neg hleaf] at hplace
      have hpos : p.nCell > 0 := by
        rw [MemPage.nCell, hcells, List.length_append, List.length_cons]
        omega
      by_cases hlt : loc < 0
      · have hset : c.setIdx (c.idx + 1) =
            { c with stack := (pgno, (l₁ ++ [cell]).length) :: parents } := by
          simp [BtCursor.setIdx, hstack, hidx]
        simp only [if_pos (And.intro hlt hpos)] at hplace
        cases hplace
        refine ⟨l₁ ++ [cell], l₂, 0, ?_, hset, fun h => absurd h hleaf, fun _ => rfl⟩
        rw [hset, insertCell, hcells, List.append_cons]
        change { p with cells := ((l₁ ++ [cell]) ++ l₂).insertIdx (l₁ ++ [cell]).length _ } = _
        rw [insertIdx_middle]
      · simp only [if_neg (fun hboth : loc < 0 ∧ p.nCell > 0 => hlt hboth.1)] at hplace
        cases hplace
        refine ⟨l₁, cell :: l₂, 0, ?_, hsame.symm, fun h => absurd h hleaf, fun h => by omega⟩
        rw [insertCell, hidx, hcells, insertIdx_middle]

section
variable [LinearOrder K]

theorem IsTree.height_unique {h' : ℕ} (ht : IsTree t intKey h pgno) (ht' : IsTree t intKey h' pgno) :
    h = h' := by
  induction h generalizing pgno h' with
  | zero =>
    have hleaf := ht.page.2.2.1
    rw [ht'.page.2.2.1] at hleaf
    simpa [eq_comm] using hleaf
  | succ h ih =>
    cases h' with
    | zero =>
      have hleaf := ht.page.2.2.1
      rw [ht'.page.2.2.1] at hleaf
      simp at hleaf
    | succ h' => rw [ih (ht.child (Nat.zero_le _)).1 (ht'.child (Nat.zero_le _)).1]

theorem IsTree.entries_ne_nil (ht : IsTree t intKey h pgno) (hpos : 0 < (pageAt t pgno).nCell) :
    entries t h pgno ≠ [] := by
  induction h generalizing pgno with
  | zero =>
    intro hnil
    have hlen := keysOf_length (pageAt t pgno)
    rw [entries] at hnil
    rw [hnil, List.length_nil] at hlen
    omega
  | succ h ih =>
    obtain ⟨htree, hchild⟩ := ht.child (Nat.zero_le _)
    rw [entries, before_split _ (Nat.zero_le _)]
    simp [ih htree hchild]

/-- Only the last child of a page has nothing behind it. -/
theorem IsTree.eq_nCell (ht : IsTree t intKey (h + 1) pgno) (hi : i ≤ (pageAt t pgno).nCell)
    (hnil : behind (entries t h) (pageAt t pgno) i = []) : i = (pageAt t pgno).nCell := by
  rcases Nat.lt_or_eq_of_le hi with hlt | heq
  · obtain ⟨htree, hchild⟩ := ht.child hlt
    rw [behind_of_lt _ hlt] at hnil
    simp [htree.entries_ne_nil hchild] at hnil
  · exact heq

/-- The pages above one are of other heights. -/
theorem Above.parent_ne (hw : WellFormed t root intKey depth)
    (ha : Above t root depth h pgno parents pre post) : ∀ q ∈ parents, q.1 ≠ pgno := by
  have hhigh : ∀ q ∈ parents, ∃ h' > h, IsTree t intKey h' q.1 := by
    induction ha with
    | root => simp
    | @child h pgno parents pre post i hup hi ih =>
      intro q hq
      rcases List.mem_cons.mp hq with rfl | hq
      · exact ⟨h + 1, Nat.lt_succ_self h, (hup.facts hw).2.1⟩
      · obtain ⟨h', hlt, htree⟩ := ih q hq
        exact ⟨h', Nat.lt_of_succ_lt hlt, htree⟩
  intro q hq heq
  obtain ⟨h', hlt, htree⟩ := hhigh q hq
  rw [heq] at htree
  have := htree.height_unique (ha.facts hw).2.1
  omega

/-- The way to a page stays when the pages above it do. -/
theorem Above.transfer (hw : WellFormed t root intKey depth)
    (ha : Above t root depth h pgno parents pre post)
    (hsame : ∀ q ∈ parents, pageAt t' q.1 = pageAt t q.1) :
    ∃ pre' post', Above t' root depth h pgno parents pre' post' ∧ (post = [] → post' = []) := by
  induction ha with
  | root hne => exact ⟨[], [], .root hne, fun _ => rfl⟩
  | @child h pgno parents pre post i hup hi ih =>
    obtain ⟨pre', post', hup', hnil⟩ := ih fun q hq => hsame q (List.mem_cons_of_mem _ hq)
    have hpage : pageAt t' pgno = pageAt t pgno := hsame (pgno, i) List.mem_cons_self
    have hchild := hup'.child (i := i) (by rw [hpage]; exact hi)
    rw [hpage] at hchild
    refine ⟨_, _, hchild, fun h0 => ?_⟩
    obtain ⟨hbehind, hpost⟩ := List.append_eq_nil_iff.mp h0
    have hlast := (hup.facts hw).2.1.eq_nCell hi hbehind
    rw [hnil hpost, hlast, behind_nCell, List.nil_append]

omit [LinearOrder K] in
theorem pageAt_put_self (t : BtShared K) (pgno : ℕ) (p : MemPage K) :
    pageAt (t.put pgno p) pgno = p := by simp [pageAt, BtShared.put]

omit [LinearOrder K] in
theorem pageAt_put_of_ne {q : ℕ} (hq : q ≠ pgno) : pageAt (t.put pgno p) q = pageAt t q := by
  simp [pageAt, BtShared.put, Function.update_of_ne hq]

/-- A cursor follows the cell that it writes. -/
theorem Placed.insert (hw : WellFormed t root intKey depth) (hp : Placed t root depth c pre x post)
    (hstack : c.stack = (pgno, i) :: parents) {loc : ℤ}
    (hplace : placeCell (pageAt t pgno) c key loc = pure (p', c'))
    (hlast : 0 < loc → c.atLast = false) :
    ∃ pre' post', Placed (t.put pgno p') root depth c'.forget pre' key post' := by
  obtain ⟨hat, -, hend⟩ := hp
  rw [hstack] at hat
  have hpages (hne : ∀ q ∈ parents, q.1 ≠ pgno) :
      ∀ q ∈ parents, pageAt (t.put pgno p') q.1 = pageAt t q.1 := fun q hq => pageAt_put_of_ne (hne q hq)
  generalize htop : (pgno, i) :: parents = stack at hat
  cases hat with
  | @leaf _ _ pre₀ post₀ l₁ l₂ x hup hkeys =>
    cases htop
    obtain ⟨m₁, m, hcells, rfl, hm⟩ := List.map_eq_append_iff.mp hkeys
    obtain ⟨cell, m₂, rfl, -, rfl⟩ := List.map_eq_cons_iff.mp hm
    rw [List.length_map] at hstack
    obtain ⟨m₁', m₂', leftChild, rfl, rfl, -, hrest⟩ := placeCell_middle hcells hstack hplace
    obtain ⟨pre', post', hup', hnil⟩ := hup.transfer hw (hpages (hup.parent_ne hw))
    have hpage := pageAt_put_self t pgno
      { pageAt t pgno with cells := m₁' ++ ⟨leftChild, key⟩ :: m₂' }
    have hkeys' := (congrArg keysOf hpage).trans (keysOf_middle _ m₁' m₂' ⟨leftChild, key⟩)
    have hat := At.leaf hup' hkeys'
    rw [List.length_map] at hat
    refine ⟨_, _, hat, by simp [BtCursor.forget], fun h => ?_⟩
    have hle : loc ≤ 0 := by
      by_contra hgt
      simp [BtCursor.forget, hlast (by omega)] at h
    obtain ⟨hl₂, hpost⟩ := List.append_eq_nil_iff.mp (hend h)
    rw [hrest hle, hl₂, hnil hpost, List.nil_append]
  | @interior h _ _ pre₀ post₀ _ x hup hidx hx =>
    cases htop
    obtain ⟨hne, htree, -, -⟩ := hup.facts hw
    have hleaf : (pageAt t pgno).leaf = false := by simpa using htree.page.2.2.1
    obtain ⟨hi, -⟩ := List.getElem?_eq_some_iff.mp hx
    rw [keysOf_length] at hi
    obtain ⟨m₁, cell, m₂, hcells, rfl⟩ := split_at hi
    obtain ⟨m₁', m₂', leftChild, rfl, rfl, hsame, -⟩ := placeCell_middle hcells hstack hplace
    obtain ⟨rfl, -⟩ := hsame hleaf
    obtain ⟨pre', post', hup', -⟩ := hup.transfer hw (hpages (hup.parent_ne hw))
    have hpage := pageAt_put_self t pgno
      { pageAt t pgno with cells := m₁' ++ ⟨leftChild, key⟩ :: m₂' }
    have hkey := At.interior (i := m₁'.length) (x := key) hup' (by rw [hpage]; exact hidx)
      (by rw [hpage]; simp [keysOf])
    refine ⟨_, _, hkey, by simp [BtCursor.forget], fun h => ?_⟩
    -- an interior cell has entries behind it
    obtain ⟨htree', hpos⟩ := htree.child hi
    have hnil := hend h
    simp [htree'.entries_ne_nil hpos] at hnil

omit [LinearOrder K] in
theorem getAndInitPage_eq (hpage : getAndInitPage t pgno = pure p) : p = pageAt t pgno := by
  unfold getAndInitPage at hpage
  cases hget : t.page pgno with
  | none => simp [hget, pure, Except.pure] at hpage
  | some q =>
    rw [hget] at hpage
    cases hpage
    simp [pageAt, hget]

omit [LinearOrder K] in
theorem placeCell_kept {loc : ℤ} (hplace : placeCell p c key loc = pure (p', c')) :
    c'.pgnoRoot = c.pgnoRoot ∧ c'.intKey = c.intKey ∧ c'.eState = c.eState ∧
      (c.stack ≠ [] → c'.stack ≠ []) := by
  unfold placeCell at hplace
  split at hplace
  · obtain ⟨oldCell, -, h⟩ := bind_eq_pure hplace
    cases h
    exact ⟨rfl, rfl, rfl, id⟩
  · split at hplace
    · cases hplace
    · cases hplace
      split
      · unfold BtCursor.setIdx
        split <;> simp_all
      · exact ⟨rfl, rfl, rfl, id⟩

/-- An insertion looks for the place of the key unless that is known. -/
theorem Upheld.seek {s : Editor K} (hu : Upheld root intKey s) {bias : Bool} {seekResult loc : ℤ}
    (hlegal : seekResult ≠ 0 → s.sought = some seekResult)
    (hseek : seekPlace s.t s.cur key bias seekResult = pure (loc, c)) :
    Upheld root intKey ⟨s.t, s.depth, c, some loc⟩ := by
  rw [seekPlace] at hseek
  by_cases h0 : seekResult = 0
  · rw [if_pos h0, btreeMoveto] at hseek
    have hstep : BtreeCursor.step ⟨s.t, s.depth, s.cur, none⟩
        (.moveto (if s.cur.intKey then .rowid key else .record (keyCompare key)) bias) =
          pure (some loc, Client.moved ⟨s.t, s.depth, s.cur, none⟩ c) := by
      rw [BtreeCursor.step, hseek, pure_bind]
    refine hu.call _ ?_ (by simp) hstep
    rw [hu.sane.kind]
    cases intKey <;> simp [Allowed]
  · rw [if_neg h0] at hseek
    cases hseek
    rw [← hlegal h0]
    exact hu

/-- A tree in which this cursor has no place yet. -/
theorem Sane.rebase (hs : Sane root intKey t depth c) {depth' : ℕ}
    (hw : WellFormed t' root intKey depth') :
    Sane root intKey t' depth' { c with eState := CURSOR_INVALID } :=
  ⟨hw, hs.pgnoRoot, hs.kind, hs.stack, by simp, by simp⟩

theorem Upheld.insert {s s' : Editor K} (hu : Upheld root intKey s) {bias : Bool} {seekResult : ℤ}
    {balanced : Option (BtShared K × ℕ × List (ℕ × ℕ))}
    (hlegal : seekResult ≠ 0 → s.sought = some seekResult)
    (hedit : edit s (.insert key bias seekResult balanced) = pure s')
    (hw : WellFormed s'.t root intKey s'.depth) : Upheld root intKey s' := by
  obtain ⟨⟨t', c'⟩, hins, h⟩ := bind_eq_pure hedit
  cases h
  refine .moved ?_
  unfold sqlite3BtreeInsert at hins
  split at hins
  · cases hins
  obtain ⟨⟨loc, c₁⟩, hseek, hins⟩ := bind_eq_pure hins
  have hu₁ := hu.seek hlegal hseek
  have hs₁ := hu₁.sane
  obtain ⟨hset, hlast⟩ := hu₁.sought loc rfl
  dsimp only at hins hs₁ hset hlast
  split at hins
  swap
  · cases hins
  split at hins
  · cases hins
  rename_i pgno i parents hstack
  obtain ⟨p, hpage, hins⟩ := bind_eq_pure hins
  obtain ⟨⟨p', c₂⟩, hplace, hins⟩ := bind_eq_pure hins
  obtain ⟨hroot₂, hkind₂, hstate₂, -⟩ := placeCell_kept hplace
  have hne : root ≠ 0 := fun h0 => by simp [hs₁.stack h0] at hstack
  have hs' := hs₁.rebase hw
  cases balanced with
  | some b =>
    cases hins
    exact hs'.invalid hroot₂ hkind₂ rfl fun h0 => absurd h0 hne
  | none =>
    cases hins
    rcases hset with ⟨hv, -⟩ | ⟨hv, pre, x, post, hp⟩
    · exact hs'.invalid hroot₂ hkind₂ (hstate₂.trans hv) fun h0 => absurd h0 hne
    · obtain rfl := getAndInitPage_eq hpage
      obtain ⟨pre', post', hp'⟩ := hp.insert hs₁.tree hstack hplace hlast
      exact hs'.sits hroot₂ hkind₂ (hstate₂.trans hv) (.inl ⟨pre', key, post', hp'⟩)

/-- A cursor at the root of another tree. -/
theorem Sane.rooted (hs : Sane root intKey t depth c) {depth' : ℕ}
    (hw : WellFormed t' root intKey depth') (hf : c.eState ≠ CURSOR_FAULT) :
    ∃ c', moveToRoot t' c = pure c' ∧ Sane root intKey t' depth' c' := by
  obtain ⟨c', hmove, hkept, hcase⟩ := moveToRoot_eq hw hs.pgnoRoot hs.kind hs.stack hf
  have hs' := hs.rebase hw
  refine ⟨c', hmove, ?_⟩
  rcases hcase with ⟨-, hv, hstack⟩ | ⟨h, pgno, parents, ha, hpos, -, hstack, hclean, hv, hlast⟩
  · exact hs'.invalid hkept.pgnoRoot hkept.intKey hv hstack
  · refine hs'.sits hkept.pgnoRoot hkept.intKey hv ?_
    have hparsed : c'.parsed = false := by rw [← hclean]; rfl
    have hvalid : c'.validNKey = false := by rw [← hclean]; rfl
    have hcell : 0 < (keysOf (pageAt t' pgno)).length := by rwa [keysOf_length]
    obtain ⟨x, l, hkeys⟩ := List.exists_cons_of_length_pos hcell
    cases h with
    | zero =>
      have hat := At.leaf ha (hkeys.trans (List.nil_append _).symm)
      exact .inl ⟨_, x, _, hstack ▸ hat, by simp [hparsed, hvalid], by simp [hlast]⟩
    | succ h =>
      cases hkind : (pageAt t' pgno).intKey with
      | false =>
        have hat := At.interior (i := 0) (x := x) ha hkind (by simp [hkeys])
        exact .inl ⟨_, x, _, hstack ▸ hat, by simp [hparsed, hvalid], by simp [hlast]⟩
      | true =>
        exact .inr ⟨hparsed, hvalid, hlast, h, pgno, 0, parents, [], [], ha, hpos, hkind, hstack⟩

theorem Upheld.delete {s s' : Editor K} (hu : Upheld root intKey s) {depth' : ℕ}
    (hedit : edit s (.delete t' depth') = pure s') (hw : WellFormed s'.t root intKey s'.depth) :
    Upheld root intKey s' := by
  obtain ⟨c', hdel, h⟩ := bind_eq_pure hedit
  cases h
  have hs := hu.sane
  obtain ⟨p, -, hdel⟩ := bind_eq_pure hdel
  split at hdel
  · cases hdel
  rename_i hthere
  have hv : s.cur.eState = CURSOR_VALID := by
    by_contra hne
    exact hthere (.inr hne)
  split at hdel
  · obtain ⟨c₁, hroot, hs₁⟩ := hs.rooted hw (by simp [hv])
    rw [hroot] at hdel
    cases hdel
    exact .moved hs₁
  · obtain ⟨r, c₁, hprev, hs₁, hf₁⟩ := hs.previous_restored (.inl hv)
    obtain ⟨c₂, hroot, hs₂⟩ := hs₁.rooted hw hf₁
    rw [hprev, pure_bind] at hdel
    cases hroot.symm.trans hdel
    exact .moved hs₂

theorem Upheld.step {s s' : Editor K} (hu : Upheld root intKey s) (e : Edit K)
    (hlegal : Legal root intKey s e) (hedit : edit s e = pure s')
    (hw : WellFormed s'.t root intKey s'.depth) : Upheld root intKey s' := by
  cases e with
  | call call =>
    obtain ⟨⟨res, s₁⟩, hstep, h⟩ := bind_eq_pure hedit
    cases h
    exact hu.call call hlegal.1 hlegal.2 hstep
  | clear =>
    cases hedit
    exact .moved (hu.sane.invalid rfl rfl rfl hu.sane.stack)
  | insert key bias seekResult balanced => exact hu.insert hlegal hedit hw
  | delete t' depth' => exact hu.delete hedit hw

theorem Upheld.history {s₀ s : Editor K} (hu : Upheld root intKey s₀)
    (hhist : History root intKey s₀ s) : Upheld root intKey s := by
  induction hhist with
  | start => exact hu
  | step _ hlegal hedit hw ih => exact ih.step _ hlegal hedit hw

end

end Sqlite.BtreeCursor
