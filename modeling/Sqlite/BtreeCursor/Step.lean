import Sqlite.BtreeCursor.Tree

/-! A step of a cursor takes it to the entry that is next to its own. -/
namespace Sqlite.BtreeCursor

open CursorState

section

/-! Where the moves of a cursor take it. -/

variable {K : Type} [LinearOrder K] {t : BtShared K} {intKey : Bool} {root depth h pgno n i : ℕ}
  {parents : List (ℕ × ℕ)} {pre post : List K} {c : BtCursor K}

omit [LinearOrder K] in
theorem findCell_eq {p : MemPage K} (hi : i < p.nCell) :
    ∃ cell, findCell p i = pure cell ∧ cell.leftChild = childPgno p i ∧
      (keysOf p)[i]? = some cell.key := by
  have hcell : p.cells[i]? = some p.cells[i] := List.getElem?_eq_getElem hi
  refine ⟨p.cells[i], by rw [findCell, hcell]; rfl, ?_, ?_⟩
  · simp [childPgno, hcell]
  · simp [keysOf, hcell]

theorem Above.getPage (hw : WellFormed t root intKey depth)
    (ha : Above t root depth h pgno parents pre post) :
    getAndInitPage t pgno = pure (pageAt t pgno) := by
  obtain ⟨-, htree, -, -⟩ := ha.facts hw
  rw [getAndInitPage, htree.page.1]
  rfl

theorem Above.page (hw : WellFormed t root intKey depth)
    (ha : Above t root depth h pgno parents pre post) (hc : c.stack = (pgno, i) :: parents) :
    c.page t = pure (pageAt t pgno) := by
  rw [BtCursor.page, hc]
  exact ha.getPage hw

theorem moveToChild_eq (hw : WellFormed t root intKey depth)
    (ha : Above t root depth (h + 1) pgno parents pre post) (hi : i ≤ (pageAt t pgno).nCell)
    (hc : c.stack = (pgno, i) :: parents) : moveToChild t c (childPgno (pageAt t pgno) i) =
      pure { c.forget with stack := (childPgno (pageAt t pgno) i, 0) :: (pgno, i) :: parents } := by
  obtain ⟨-, htree, hlen, -⟩ := ha.facts hw
  have hchild := ha.child hi
  obtain ⟨-, htree', -, -⟩ := hchild.facts hw
  have hdeep : ¬ BTCURSOR_MAX_DEPTH ≤ c.stack.length := by
    have := hw.bounded
    rw [hc, List.length_cons]
    omega
  have hcells : ¬ (pageAt t (childPgno (pageAt t pgno) i)).nCell < 1 :=
    Nat.not_lt.mpr (htree.child hi).2
  have hkind : (pageAt t (childPgno (pageAt t pgno) i)).intKey = (pageAt t pgno).intKey :=
    htree'.page.2.1.trans htree.page.2.1.symm
  rw [moveToChild, if_neg hdeep, hchild.getPage hw, pure_bind, ha.page hw hc, pure_bind,
    if_neg (by simp [hcells, hkind]), hc]

/-- Down to the first entry of a page. -/
theorem moveToLeftmost_eq (hw : WellFormed t root intKey depth)
    (ha : Above t root depth h pgno parents pre post) (hpos : 0 < (pageAt t pgno).nCell)
    (hc : c.stack = (pgno, 0) :: parents) (hclean : c.forget = c) (hn : h < n) :
    ∃ stack x rest, moveToLeftmost t n c = pure { c with stack := stack } ∧
      At t root depth stack pre x rest ∧ x :: rest = entries t h pgno ++ post := by
  induction h generalizing n pgno parents pre post c with
  | zero =>
    obtain ⟨-, htree, -, -⟩ := ha.facts hw
    have hleaf : (pageAt t pgno).leaf = true := by simpa using htree.page.2.2.1
    obtain ⟨n, rfl⟩ : ∃ k, n = k + 1 := ⟨n - 1, by omega⟩
    rw [← keysOf_length] at hpos
    obtain ⟨x, l, hkeys⟩ := List.exists_cons_of_length_pos hpos
    refine ⟨(pgno, 0) :: parents, x, l ++ post, ?_, ?_, by simp [entries, hkeys]⟩
    · rw [moveToLeftmost, ha.page hw hc, pure_bind, if_pos hleaf, ← hc]
    · simpa using At.leaf ha (hkeys.trans (List.nil_append _).symm)
  | succ h ih =>
    obtain ⟨-, htree, -, -⟩ := ha.facts hw
    have hleaf : (pageAt t pgno).leaf = false := by simpa using htree.page.2.2.1
    obtain ⟨n, rfl⟩ : ∃ k, n = k + 1 := ⟨n - 1, by omega⟩
    obtain ⟨cell, hcell, hchild, -⟩ := findCell_eq hpos
    have hidx : c.idx = 0 := by simp [BtCursor.idx, hc]
    obtain ⟨stack, x, rest, hmove, hat, hrest⟩ :=
      ih (n := n) (c := { c with stack := (childPgno (pageAt t pgno) 0, 0) :: (pgno, 0) :: parents })
        (ha.child (Nat.zero_le _)) (htree.child (Nat.zero_le _)).2 rfl (by rw [← hclean]; rfl)
        (by omega)
    refine ⟨stack, x, rest, ?_, by simpa [before] using hat, ?_⟩
    · rw [moveToLeftmost, ha.page hw hc, pure_bind, if_neg (by simp [hleaf]), hidx, hcell, pure_bind,
        hchild, moveToChild_eq hw ha (Nat.zero_le _) hc, pure_bind, hclean]
      exact hmove
    · rw [hrest, entries, before_split _ (Nat.zero_le _)]
      simp [before]

/-- Down to the last entry of a page. -/
theorem moveToRightmost_eq (hw : WellFormed t root intKey depth)
    (ha : Above t root depth h pgno parents pre post) (hpos : h = 0 → 0 < (pageAt t pgno).nCell)
    (hc : c.stack = (pgno, i) :: parents) (hn : h < n) :
    ∃ stack x rest, moveToRightmost t n c = pure { c.forget with stack := stack } ∧
      At t root depth stack rest x post ∧ rest ++ [x] = pre ++ entries t h pgno := by
  induction h generalizing n pgno i parents pre post c with
  | zero =>
    obtain ⟨-, htree, -, -⟩ := ha.facts hw
    have hleaf : (pageAt t pgno).leaf = true := by simpa using htree.page.2.2.1
    obtain ⟨n, rfl⟩ : ∃ k, n = k + 1 := ⟨n - 1, by omega⟩
    have hlen := keysOf_length (pageAt t pgno)
    have hne : keysOf (pageAt t pgno) ≠ [] := by
      have := hpos rfl
      intro hnil
      simp [hnil] at hlen
      omega
    obtain ⟨l, x, hkeys⟩ : ∃ l x, keysOf (pageAt t pgno) = l ++ [x] :=
      ⟨_, _, (List.dropLast_concat_getLast hne).symm⟩
    have hl : (pageAt t pgno).nCell - 1 = l.length := by
      rw [← hlen, hkeys]
      simp
    refine ⟨(pgno, l.length) :: parents, x, pre ++ l, ?_, ?_, by simp [entries, hkeys]⟩
    · rw [moveToRightmost, ha.page hw hc, pure_bind, if_pos hleaf, hl, BtCursor.setIdx, hc]
      rfl
    · simpa using At.leaf ha hkeys
  | succ h ih =>
    obtain ⟨-, htree, -, -⟩ := ha.facts hw
    have hleaf : (pageAt t pgno).leaf = false := by simpa using htree.page.2.2.1
    obtain ⟨n, rfl⟩ : ∃ k, n = k + 1 := ⟨n - 1, by omega⟩
    have hset : c.setIdx (pageAt t pgno).nCell =
        { c with stack := (pgno, (pageAt t pgno).nCell) :: parents } := by
      rw [BtCursor.setIdx, hc]
    have hlast := Nat.le_refl (pageAt t pgno).nCell
    obtain ⟨stack, x, rest, hmove, hat, hrest⟩ :=
      ih (n := n) (c := { c.forget with stack := (childPgno (pageAt t pgno) (pageAt t pgno).nCell, 0) ::
        (pgno, (pageAt t pgno).nCell) :: parents }) (ha.child hlast)
        (fun _ => (htree.child hlast).2) rfl (by omega)
    refine ⟨stack, x, rest, ?_, by simpa [behind_nCell] using hat, ?_⟩
    · rw [moveToRightmost, ha.page hw hc, pure_bind, if_neg (by simp [hleaf]), hset,
        ← childPgno_nCell, moveToChild_eq hw ha hlast rfl, pure_bind]
      exact hmove
    · rw [hrest, entries, before_split _ hlast, behind_nCell]
      simp

end

variable {K : Type} [LinearOrder K] {t : BtShared K} {intKey : Bool} {root depth h pgno n i : ℕ}
  {parents : List (ℕ × ℕ)} {pre post : List K} {x : K} {c : BtCursor K}

theorem restoreCursorPosition_valid (hv : c.eState = CURSOR_VALID) :
    restoreCursorPosition t c = pure c := by
  simp [restoreCursorPosition, hv]

/-- From an interior cell down to the first entry after it. -/
theorem next_interior (hw : WellFormed t root intKey depth)
    (ha : Above t root depth (h + 1) pgno parents pre post) (hi : i < (pageAt t pgno).nCell)
    (hc : c.stack = (pgno, i) :: parents) (hv : c.eState = CURSOR_VALID) (hs : c.skipNext ≤ 0) :
    ∃ stack x rest, sqlite3BtreeNext t (n + 1) c =
        pure (0, { c.forget with skipNext := 0, stack := stack }) ∧
      At t root depth stack (pre ++ before (entries t h) (pageAt t pgno) (i + 1)) x rest ∧
      x :: rest = entries t h (childPgno (pageAt t pgno) (i + 1)) ++
        (behind (entries t h) (pageAt t pgno) (i + 1) ++ post) := by
  obtain ⟨-, htree, hlen, -⟩ := ha.facts hw
  have hdepth := hw.bounded
  have hleaf : (pageAt t pgno).leaf = false := by simpa using htree.page.2.2.1
  have hroom : h < BTCURSOR_MAX_DEPTH - 1 := by omega
  let c₁ : BtCursor K := { c.forget with skipNext := 0, stack := (pgno, i + 1) :: parents }
  have hset : ({ c with skipNext := 0 }.setIdx (i + 1)).forget = c₁ := by
    rw [BtCursor.setIdx, hc]
    rfl
  have hidx : c.idx = i := by simp [BtCursor.idx, hc]
  let c₂ : BtCursor K := { c₁ with
    stack := (childPgno (pageAt t pgno) (i + 1), 0) :: (pgno, i + 1) :: parents }
  have hdown : moveToChild t c₁ (childPgno (pageAt t pgno) (i + 1)) = pure c₂ :=
    moveToChild_eq hw ha hi rfl
  have hfirst {n : ℕ} (hn : h < n) : ∃ stack x rest,
      moveToLeftmost t n c₂ = pure { c₁ with stack := stack } ∧
      At t root depth stack (pre ++ before (entries t h) (pageAt t pgno) (i + 1)) x rest ∧
      x :: rest = entries t h (childPgno (pageAt t pgno) (i + 1)) ++
        (behind (entries t h) (pageAt t pgno) (i + 1) ++ post) :=
    moveToLeftmost_eq hw (ha.child hi) (htree.child hi).2 rfl rfl hn
  rw [sqlite3BtreeNext, restoreCursorPosition_valid hv, pure_bind, if_neg (by simp [hv]),
    if_neg (by omega), ha.page hw hc, pure_bind]
  simp only [hidx, hset, hleaf, if_true, Bool.false_eq_true, if_false]
  by_cases hlast : i + 1 ≥ (pageAt t pgno).nCell
  · have heq : i + 1 = (pageAt t pgno).nCell := by omega
    obtain ⟨stack, x, rest, hmove, hat, hrest⟩ := hfirst (n := BTCURSOR_MAX_DEPTH) (by omega)
    refine ⟨stack, x, rest, ?_, hat, hrest⟩
    rw [if_pos hlast, ← childPgno_nCell, ← heq, hdown, pure_bind, hmove, pure_bind]
  · obtain ⟨stack, x, rest, hmove, hat, hrest⟩ := hfirst hroom
    obtain ⟨cell, hcell, hleft, -⟩ := findCell_eq (p := pageAt t pgno) (i := i + 1) (by omega)
    refine ⟨stack, x, rest, ?_, hat, hrest⟩
    have hidx₁ : c₁.idx = i + 1 := rfl
    have hpage₁ : c₁.page t = pure (pageAt t pgno) := ha.page hw rfl
    have hone : moveToLeftmost t BTCURSOR_MAX_DEPTH c₁ =
        moveToLeftmost t (BTCURSOR_MAX_DEPTH - 1) c₂ := by
      rw [BTCURSOR_MAX_DEPTH, moveToLeftmost, hpage₁, pure_bind, if_neg (by simp [hleaf]), hidx₁,
        hcell, pure_bind, hleft, hdown, pure_bind]
    rw [if_neg hlast, hone, hmove, pure_bind]

/-- The climb after the last entry of a page: past all entries, or to the cell after the page. -/
theorem nextLoop_eq (hw : WellFormed t root intKey depth)
    (ha : Above t root depth h pgno parents pre post) (j : ℕ) :
    (∃ stack, nextLoop t ((pgno, j) :: parents) = pure (true, stack) ∧ post = []) ∨
      ∃ h' pgno' parents' pre' post' i,
        nextLoop t ((pgno, j) :: parents) = pure (false, (pgno', i) :: parents') ∧
        Above t root depth (h' + 1) pgno' parents' pre' post' ∧ i < (pageAt t pgno').nCell ∧
        pre ++ entries t h pgno = pre' ++ before (entries t h') (pageAt t pgno') i ++
          entries t h' (childPgno (pageAt t pgno') i) ∧
        post = behind (entries t h') (pageAt t pgno') i ++ post' := by
  induction ha generalizing j with
  | root hne => exact .inl ⟨_, rfl, rfl⟩
  | @child h pgno parents pre post i hup hi ih =>
    by_cases hlast : i ≥ (pageAt t pgno).nCell
    · have heq : i = (pageAt t pgno).nCell := by omega
      have hclimb : nextLoop t ((childPgno (pageAt t pgno) i, j) :: (pgno, i) :: parents) =
          nextLoop t ((pgno, i) :: parents) := by
        rw [nextLoop, hup.getPage hw, pure_bind, if_pos hlast]
      have hall : pre ++ before (entries t h) (pageAt t pgno) i ++
          entries t h (childPgno (pageAt t pgno) i) = pre ++ entries t (h + 1) pgno := by
        rw [entries, before_split _ hi, heq, behind_nCell]
        simp
      have hpost : behind (entries t h) (pageAt t pgno) i ++ post = post := by
        rw [heq, behind_nCell, List.nil_append]
      rw [hclimb, hpost, hall]
      exact ih i
    · refine .inr ⟨h, pgno, parents, pre, post, i, ?_, hup, by omega, rfl, rfl⟩
      rw [nextLoop, hup.getPage hw, pure_bind, if_neg hlast]

/-- `sqlite3BtreeNext` moves a valid cursor to the entry after its own. -/
theorem next_eq (hw : WellFormed t root intKey depth) {stack : List (ℕ × ℕ)}
    (hat : At t root depth stack pre x post) (hstack : c.stack = stack)
    (hv : c.eState = CURSOR_VALID) (hs : c.skipNext ≤ 0) :
    (post = [] ∧ ∃ stack, sqlite3BtreeNext t (n + 2) c =
      pure (1, { c.forget with skipNext := 0, stack := stack, eState := CURSOR_INVALID })) ∨
    ∃ y rest stack, post = y :: rest ∧ sqlite3BtreeNext t (n + 2) c =
        pure (0, { c.forget with skipNext := 0, stack := stack }) ∧
      At t root depth stack (pre ++ [x]) y rest := by
  cases hat with
  | @leaf pgno parents pre post l₁ l₂ x hup hkeys =>
    obtain ⟨-, htree, -, -⟩ := hup.facts hw
    have hleaf : (pageAt t pgno).leaf = true := by simpa using htree.page.2.2.1
    have hidx : c.idx = l₁.length := by simp [BtCursor.idx, hstack]
    let c₁ : BtCursor K :=
      { c.forget with skipNext := 0, stack := (pgno, l₁.length + 1) :: parents }
    have hset : ({ c with skipNext := 0 }.setIdx (l₁.length + 1)).forget = c₁ := by
      rw [BtCursor.setIdx, hstack]
      rfl
    have hlen : (pageAt t pgno).nCell = l₁.length + (l₂.length + 1) := by
      rw [← keysOf_length, hkeys]
      simp
    rw [sqlite3BtreeNext, restoreCursorPosition_valid hv, pure_bind, if_neg (by simp [hv]),
      if_neg (by omega), hup.page hw hstack, pure_bind]
    simp only [hidx, hset, hleaf, if_true, Bool.true_eq_false, if_false]
    cases l₂ with
    | cons y l₂ =>
      -- the next entry is on the same page
      rw [List.length_cons] at hlen
      rw [if_neg (by omega)]
      refine .inr ⟨y, l₂ ++ post, c₁.stack, rfl, rfl, ?_⟩
      have hkeys' : keysOf (pageAt t pgno) = (l₁ ++ [x]) ++ y :: l₂ := by simp [hkeys]
      simpa using At.leaf hup hkeys'
    | nil =>
      rw [List.length_nil] at hlen
      rw [if_pos (by omega)]
      rcases nextLoop_eq hw hup (l₁.length + 1) with ⟨stack, hloop, hpost⟩ |
        ⟨h', pgno', parents', pre', post', i, hloop, hup', hi, hpre, hpost⟩
      · refine .inl ⟨by simp [hpost], stack, ?_⟩
        rw [hloop, pure_bind]
        rfl
      · have hpre₁ : pre ++ l₁ ++ [x] = pre' ++ before (entries t h') (pageAt t pgno') i ++
            entries t h' (childPgno (pageAt t pgno') i) := by
          rw [← hpre, entries, hkeys]
          simp
        let c₂ : BtCursor K := { c₁ with stack := (pgno', i) :: parents' }
        have hpage₂ : c₂.page t = pure (pageAt t pgno') := hup'.page hw rfl
        obtain ⟨-, htree', -, -⟩ := hup'.facts hw
        right
        rw [hloop, pure_bind, if_neg Bool.false_ne_true, hpage₂, pure_bind, hpre₁, hpost,
          List.nil_append]
        cases hkind : (pageAt t pgno').intKey with
        | false =>
          obtain ⟨cell, -, -, hkey⟩ := findCell_eq hi
          have hsep : separator (pageAt t pgno') i = [cell.key] := by simp [separator, hkind, hkey]
          refine ⟨cell.key, _, c₂.stack, ?_, rfl, At.interior hup' hkind hkey⟩
          rw [behind_of_lt _ hi, hsep]
          simp
        | true =>
          have hsep : separator (pageAt t pgno') i = [] := by simp [separator, hkind]
          obtain ⟨stack, y, rest, hnext, hat, hrest⟩ :=
            next_interior (n := n) (c := c₂) hw hup' hi rfl hv (Int.le_refl 0)
          refine ⟨y, rest, stack, ?_, hnext, ?_⟩
          · rw [behind_of_lt _ hi, hsep, hrest]
            simp
          · rw [before_succ, hsep, List.append_nil, ← List.append_assoc] at hat
            exact hat
  | @interior h pgno parents pre post i x hup hidx hx =>
    obtain ⟨hi, hget⟩ := List.getElem?_eq_some_iff.mp hx
    rw [keysOf_length] at hi
    obtain ⟨stack, y, rest, hnext, hat, hrest⟩ := next_interior (n := n + 1) hw hup hi hstack hv hs
    have hsep : separator (pageAt t pgno) i = [x] := by simp [separator, hidx, hx]
    refine .inr ⟨y, rest, stack, by rw [List.append_assoc, hrest], hnext, ?_⟩
    simpa [before_succ, hsep] using hat

/-- From an interior cell down to the last entry before it. -/
theorem previous_interior (hw : WellFormed t root intKey depth)
    (ha : Above t root depth (h + 1) pgno parents pre post) (hi : i < (pageAt t pgno).nCell)
    (hc : c.stack = (pgno, i) :: parents) (hv : c.eState = CURSOR_VALID) (hs : 0 ≤ c.skipNext) :
    ∃ stack x rest, sqlite3BtreePrevious t (n + 1) c =
        pure (0, { c.forget with atLast := false, skipNext := 0, stack := stack }) ∧
      At t root depth stack rest x (behind (entries t h) (pageAt t pgno) i ++ post) ∧
      rest ++ [x] = pre ++ before (entries t h) (pageAt t pgno) i ++
        entries t h (childPgno (pageAt t pgno) i) := by
  obtain ⟨-, htree, hlen, -⟩ := ha.facts hw
  have hdepth := hw.bounded
  have hleaf : (pageAt t pgno).leaf = false := by simpa using htree.page.2.2.1
  obtain ⟨cell, hcell, hleft, -⟩ := findCell_eq hi
  have hidx : c.idx = i := by simp [BtCursor.idx, hc]
  have hi' := Nat.le_of_lt hi
  let c₁ : BtCursor K := { c with atLast := false, skipNext := 0 }
  have hpage : c₁.page t = pure (pageAt t pgno) := ha.page hw hc
  let c₂ : BtCursor K := { c₁.forget with
    stack := (childPgno (pageAt t pgno) i, 0) :: (pgno, i) :: parents }
  have hdown : moveToChild t c₁ (childPgno (pageAt t pgno) i) = pure c₂ := moveToChild_eq hw ha hi' hc
  obtain ⟨stack, x, rest, hmove, hat, hrest⟩ := moveToRightmost_eq (n := BTCURSOR_MAX_DEPTH) (c := c₂)
    hw (ha.child hi') (fun _ => (htree.child hi').2) rfl (by omega)
  refine ⟨stack, x, rest, ?_, hat, hrest⟩
  rw [sqlite3BtreePrevious, restoreCursorPosition_valid hv, pure_bind]
  simp only
  rw [if_neg (by simp [hv]), if_neg (by omega), hpage, pure_bind, if_pos hleaf]
  have hidx₁ : c₁.idx = i := hidx
  rw [hidx₁, hcell, pure_bind, hleft, hdown, pure_bind, hmove, pure_bind]
  rfl

omit [LinearOrder K] in
/-- The climb before the first entry of a page: past all entries, or to the cell before the page. -/
theorem previousLoop_eq (ha : Above t root depth h pgno parents pre post) :
    (∃ stack, previousLoop ((pgno, 0) :: parents) = pure (true, stack) ∧ pre = []) ∨
      ∃ h' pgno' parents' pre' post' i,
        previousLoop ((pgno, 0) :: parents) = pure (false, (pgno', i + 1) :: parents') ∧
        Above t root depth (h' + 1) pgno' parents' pre' post' ∧ i < (pageAt t pgno').nCell ∧
        pre = pre' ++ before (entries t h') (pageAt t pgno') (i + 1) ∧
        entries t h pgno ++ post = entries t h' (childPgno (pageAt t pgno') (i + 1)) ++
          (behind (entries t h') (pageAt t pgno') (i + 1) ++ post') := by
  induction ha with
  | root hne => exact .inl ⟨_, rfl, rfl⟩
  | @child h pgno parents pre post i hup hi ih =>
    cases i with
    | succ i => exact .inr ⟨h, pgno, parents, pre, post, i, rfl, hup, hi, rfl, rfl⟩
    | zero =>
      have hall : entries t h (childPgno (pageAt t pgno) 0) ++
          (behind (entries t h) (pageAt t pgno) 0 ++ post) = entries t (h + 1) pgno ++ post := by
        rw [entries, before_split _ hi]
        simp [before]
      have hpre : pre ++ before (entries t h) (pageAt t pgno) 0 = pre := by simp [before]
      rw [hall, hpre, previousLoop]
      exact ih

/-- `sqlite3BtreePrevious` moves a valid cursor to the entry before its own. -/
theorem previous_eq (hw : WellFormed t root intKey depth) {stack : List (ℕ × ℕ)}
    (hat : At t root depth stack pre x post) (hstack : c.stack = stack)
    (hv : c.eState = CURSOR_VALID) (hs : 0 ≤ c.skipNext) :
    (pre = [] ∧ ∃ stack, sqlite3BtreePrevious t (n + 2) c = pure (1, { c with
      atLast := false, skipNext := 0, stack := stack, eState := CURSOR_INVALID })) ∨
    ∃ y rest stack, pre = rest ++ [y] ∧ sqlite3BtreePrevious t (n + 2) c =
        pure (0, { c.forget with atLast := false, skipNext := 0, stack := stack }) ∧
      At t root depth stack rest y (x :: post) := by
  cases hat with
  | @leaf pgno parents pre post l₁ l₂ x hup hkeys =>
    obtain ⟨-, htree, -, -⟩ := hup.facts hw
    have hleaf : (pageAt t pgno).leaf = true := by simpa using htree.page.2.2.1
    let c₁ : BtCursor K := { c with atLast := false, skipNext := 0 }
    have hpage : c₁.page t = pure (pageAt t pgno) := hup.page hw hstack
    rw [sqlite3BtreePrevious, restoreCursorPosition_valid hv, pure_bind]
    simp only
    rw [if_neg (by simp [hv]), if_neg (by omega), hpage, pure_bind, if_neg (by simp [hleaf]), hstack]
    rcases List.eq_nil_or_concat l₁ with rfl | ⟨l₁, y, rfl⟩
    · rcases previousLoop_eq hup with ⟨stack, hloop, hpre⟩ |
        ⟨h', pgno', parents', pre', post', i, hloop, hup', hi, hpre, hpost⟩
      · refine .inl ⟨by simp [hpre], stack, ?_⟩
        rw [List.length_nil, hloop, pure_bind]
        rfl
      · have hpost₁ : x :: (l₂ ++ post) = entries t h' (childPgno (pageAt t pgno') (i + 1)) ++
            (behind (entries t h') (pageAt t pgno') (i + 1) ++ post') := by
          rw [← hpost, entries, hkeys]
          simp
        let c₂ : BtCursor K := { c₁.forget with stack := (pgno', i) :: parents' }
        have hpage₂ : c₂.page t = pure (pageAt t pgno') := hup'.page hw rfl
        obtain ⟨-, htree', -, -⟩ := hup'.facts hw
        have hleaf' : (pageAt t pgno').leaf = false := by simpa using htree'.page.2.2.1
        right
        rw [List.length_nil, hloop, pure_bind, if_neg Bool.false_ne_true]
        change ∃ y rest stack, _ ∧ (c₂.page t >>= fun _ => _) = _ ∧ _
        rw [hpage₂, pure_bind, hpost₁, List.append_nil, hpre, before_succ]
        cases hkind : (pageAt t pgno').intKey with
        | false =>
          obtain ⟨cell, -, -, hkey⟩ := findCell_eq hi
          have hsep : separator (pageAt t pgno') i = [cell.key] := by simp [separator, hkind, hkey]
          refine ⟨cell.key, pre' ++ before (entries t h') (pageAt t pgno') i ++
            entries t h' (childPgno (pageAt t pgno') i), c₂.stack, by simp [hsep], rfl, ?_⟩
          simpa using At.interior hup' hkind hkey
        | true =>
          have hsep : separator (pageAt t pgno') i = [] := by simp [separator, hkind]
          obtain ⟨stack, y, rest, hprev, hat, hrest⟩ :=
            previous_interior (n := n) (c := c₂) hw hup' hi rfl hv (Int.le_refl 0)
          refine ⟨y, rest, stack, by simp [hsep, hrest], ?_, ?_⟩
          · rw [if_pos ⟨rfl, hleaf'⟩]
            change (sqlite3BtreePrevious t (n + 1) c₂ >>= fun r => pure (0, r.2)) = _
            rw [hprev, pure_bind]
            rfl
          · rw [behind_of_lt _ hi, hsep, List.nil_append, List.append_assoc] at hat
            exact hat
    · -- the entry before is on the same page
      let c₂ : BtCursor K := { c₁.forget with stack := (pgno, l₁.length) :: parents }
      have hpage₂ : c₂.page t = pure (pageAt t pgno) := hup.page hw rfl
      refine .inr ⟨y, pre ++ l₁, c₂.stack, by simp, ?_, ?_⟩
      · rw [List.length_concat, previousLoop, pure_bind,
          if_neg Bool.false_ne_true]
        change (c₂.page t >>= fun _ => _) = _
        rw [hpage₂, pure_bind, if_neg (by simp [hleaf])]
        rfl
      · have hkeys' : keysOf (pageAt t pgno) = l₁ ++ y :: (x :: l₂) := by simp [hkeys]
        simpa using At.leaf hup hkeys'
  | @interior h pgno parents pre post i x hup hidx hx =>
    obtain ⟨hi, hget⟩ := List.getElem?_eq_some_iff.mp hx
    rw [keysOf_length] at hi
    obtain ⟨stack, y, rest, hnext, hat, hrest⟩ :=
      previous_interior (n := n + 1) hw hup hi hstack hv hs
    have hsep : separator (pageAt t pgno) i = [x] := by simp [separator, hidx, hx]
    refine .inr ⟨y, rest, stack, hrest.symm, hnext, ?_⟩
    simpa [behind_of_lt _ hi, hsep] using hat

end Sqlite.BtreeCursor
