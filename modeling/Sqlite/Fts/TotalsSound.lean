import Sqlite.Fts.TotalsRun

/-! The totals of a full-text table, in every run of calls. -/
namespace Sqlite.Fts

variable {p : Fts3Table} {s : State}

/-- The rowids that are deleted before the new row is there. -/
def gone (p : Fts3Table) (c : Call) (new : New) : List ℤ :=
  match conflictRowid p c new with
  | none => c.old.toList
  | some r => if c.replace then r :: c.old.toList else []

/-- When a call keeps the totals right: some row stays while others are deleted, a row that is
replaced has no tokens when the updated row is deleted too, the language of the new row counts as
the language it is read with, and no sum reaches the word size. -/
structure Keeps (p : Fts3Table) (s : State) (c : Call) (new : New) : Prop where
  remains : gone p c new ≠ [] → ∃ row ∈ s.content, row.docid ∉ gone p c new
  replaced : ∀ r o, conflictRowid p c new = some r → c.replace = true → c.old = some o →
    (∃ row ∈ s.content, row.docid = o) → ∀ row ∈ s.content, row.docid = r →
    ∀ j < p.nColumn, docSize p row j = 0
  language : ∀ v ∈ new.values,
    tokenCount p new.langid v = tokenCount p (langidFromSelect p ⟨0, new.values, new.langid⟩) v
  wrap : ∀ j ≤ p.nColumn,
    total p s.content j + docSize p ⟨0, new.values, new.langid⟩ j < 2 ^ 32

def Call.Keeps (p : Fts3Table) (s : State) (c : Call) : Prop :=
  ∀ new, c.new = some new → Fts.Keeps p s c new

/-- The states of a table, each after a call that keeps the totals right. -/
inductive Reach (p : Fts3Table) : State → Prop
  | init : Reach p ⟨[], none⟩
  | step {s s' : State} (c : Call) : Reach p s → c.Keeps p s →
      sqlite3Fts3UpdateMethod p s c = some s' → Small p s'.content → Reach p s'

theorem docSize_docid (d : ℤ) (values : List Value) (langid : ℤ) (j : ℕ) :
    docSize p ⟨d, values, langid⟩ j = docSize p ⟨0, values, langid⟩ j := rfl

/-- The sizes that a new row is counted with. -/
theorem insertTerms_docSize {new : New} {aSzIns : ℕ → ℕ}
    (hlen : new.values.length = p.nColumn)
    (hlang : ∀ v ∈ new.values,
      tokenCount p new.langid v = tokenCount p (langidFromSelect p ⟨0, new.values, new.langid⟩) v)
    (hsmall : docSize p ⟨0, new.values, new.langid⟩ p.nColumn < 2 ^ 32)
    (h : fts3InsertTerms p new.langid new.values (fun _ => 0) = some aSzIns) :
    ∀ j ≤ p.nColumn, aSzIns j = docSize p ⟨0, new.values, new.langid⟩ j := by
  rw [docSize_bytes] at hsmall
  obtain ⟨-, hmid, hsum⟩ := termsLoop_spec (by omega) h (by simpa using hsmall)
  intro j hj
  rcases Nat.lt_or_eq_of_le hj with hlt | rfl
  · have hmem : new.values.getD j none ∈ new.values := by
      rw [List.getD_eq_getElem?_getD, List.getElem?_eq_getElem (by omega)]
      exact List.getElem_mem _
    rw [hmid j (Nat.zero_le j) hlt, docSize_tokens hlt, Nat.sub_zero, hlang _ hmem]
  · rw [hsum, docSize_bytes, Nat.zero_add]

theorem insertRow_spec {new : New} {d : ℤ} {s' : State} {d' : ℤ}
    (h : insertRow s new d = some (s', d')) :
    s' = { s with content := ⟨d, new.values, new.langid⟩ :: s.content } ∧
      ∀ row ∈ s.content, row.docid ≠ d := by
  unfold insertRow at h
  split_ifs at h with hany
  cases h
  refine ⟨rfl, ?_⟩
  simpa using hany

theorem insertData_spec (hown : p.zContentTbl = false) {c : Call} {new : New} {s' : State} {d' : ℤ}
    (h : fts3InsertData p s c new = some (s', d')) : ∃ d,
      s' = { s with content := ⟨d, new.values, new.langid⟩ :: s.content } ∧
      (∀ r, conflictRowid p c new = some r → d = r) ∧ ∀ row ∈ s.content, row.docid ≠ d := by
  rw [fts3InsertData, hown] at h
  simp only [Bool.false_eq_true, if_false] at h
  split_ifs at h with hboth
  obtain ⟨h1, h2⟩ := insertRow_spec h
  refine ⟨_, h1, ?_, h2⟩
  intro r hr
  simp only [conflictRowid, hown, Bool.false_eq_true, if_false, Option.filter_eq_some_iff] at hr
  rw [hr.1]
  rfl

theorem Rows.insert {content : List Row} (h : Rows p content) {row : Row}
    (hlen : row.values.length = p.nColumn) (hnew : ∀ r ∈ content, r.docid ≠ row.docid) :
    Rows p (row :: content) := by
  constructor
  · intro r hr
    rcases List.mem_cons.mp hr with rfl | hr
    · exact hlen
    · exact h.width r hr
  · rw [List.map_cons, List.nodup_cons]
    refine ⟨?_, h.distinct⟩
    intro hmem
    obtain ⟨r, hr, hd⟩ := List.mem_map.mp hmem
    exact hnew r hr hd

/-- What the rows and the changes are before the totals are written. -/
structure Changed (p : Fts3Table) (s : State) (new : New) (s' : State) (nChng : ℤ)
    (aSzDel : ℕ → ℕ) : Prop where
  stat : s'.stat = s.stat
  rows : Rows p s'.content
  count : (s'.content.length : ℤ) = s.content.length + (nChng + 1)
  size : ∀ j ≤ p.nColumn, total p s'.content j + aSzDel j =
    total p s.content j + docSize p ⟨0, new.values, new.langid⟩ j

/-- The new row is inserted last. -/
theorem Left.insert {s₁ s' : State} {nChng : ℤ} {aSzDel : ℕ → ℕ}
    (h : Left p s.stat s.content s₁ nChng aSzDel) (hown : p.zContentTbl = false) {c : Call}
    {new : New} (hlen : new.values.length = p.nColumn) {d' : ℤ}
    (hrun : fts3InsertData p s₁ c new = some (s', d')) : Changed p s new s' nChng aSzDel := by
  obtain ⟨d, rfl, -, hnew⟩ := insertData_spec hown hrun
  refine ⟨h.stat, h.rows.insert hlen hnew, ?_, ?_⟩
  · have hcount := h.count
    simp only [List.length_cons]
    omega
  · intro j hj
    have hsize := h.size j hj
    rw [total_cons, docSize_docid]
    omega

/-- The new row is inserted first, and the old row may be deleted then. -/
theorem insertFirst {c : Call} {new : New} {s₁ s' : State} {nChng : ℤ} {aSzDel : ℕ → ℕ}
    (hown : p.zContentTbl = false) (hrows : Rows p s.content)
    (hlen : new.values.length = p.nColumn)
    (hwrap : ∀ j ≤ p.nColumn, total p s.content j + docSize p ⟨0, new.values, new.langid⟩ j < 2 ^ 32)
    {r d' : ℤ} (hr : conflictRowid p c new = some r)
    (hins : fts3InsertData p s c new = some (s₁, d'))
    (hold : removeOld p s₁ c.old 0 (fun _ => 0) = some (s', nChng, aSzDel)) :
    Changed p s new s' nChng aSzDel := by
  obtain ⟨d, hs₁, hd, hnew⟩ := insertData_spec hown hins
  have hbase : Rows p s₁.content := by
    rw [hs₁]
    exact hrows.insert hlen hnew
  have htotal : ∀ j, total p s₁.content j =
      total p s.content j + docSize p ⟨0, new.values, new.langid⟩ j := by
    intro j
    rw [hs₁, total_cons, docSize_docid, add_comm]
  have hleft : Left p s₁.stat s₁.content s' nChng aSzDel := by
    cases hc : c.old with
    | none =>
      rw [hc] at hold
      cases hold
      exact Left.start hbase
    | some o =>
      rw [hc] at hold
      have hne : d ≠ o := by
        have hro := hr
        simp only [conflictRowid, hown, Bool.false_eq_true, if_false,
          Option.filter_eq_some_iff] at hro
        rw [hd r hr]
        rintro rfl
        exact of_decide_eq_true hro.2 hc
      have hmem : (⟨d, new.values, new.langid⟩ : Row) ∈ s₁.content := by
        rw [hs₁]
        exact List.mem_cons_self
      refine ((Left.start hbase).delete hown ?_ ⟨_, hmem, hne⟩ (fun _ _ _ => rfl) hold).1
      intro j hj
      rw [htotal]
      exact hwrap j hj
  refine ⟨?_, hleft.rows, ?_, ?_⟩
  · rw [hleft.stat, hs₁]
  · have hcount := hleft.count
    simp only [hs₁, List.length_cons] at hcount
    push_cast at hcount
    omega
  · intro j hj
    rw [hleft.size j hj, htotal]

/-- The deletions before the new row is inserted, when there are two of them or one. -/
theorem deleteFirst {c : Call} {new : New} {s₁ s₂ : State} {n₁ n₂ : ℤ} {del₁ del₂ : ℕ → ℕ}
    (hown : p.zContentTbl = false) (hrows : Rows p s.content) (hsmall : Small p s.content)
    (hk : Keeps p s c new) (hconf : handleConflict p s c new = some (s₁, n₁, del₁, false))
    (hold : removeOld p s₁ c.old n₁ del₁ = some (s₂, n₂, del₂)) :
    Left p s.stat s.content s₂ n₂ del₂ := by
  cases hr : conflictRowid p c new with
  | none =>
    simp only [handleConflict, hr] at hconf
    cases hconf
    cases hc : c.old with
    | none =>
      rw [hc] at hold
      cases hold
      exact Left.start hrows
    | some o =>
      rw [hc] at hold
      obtain ⟨row, hrow, hne⟩ := hk.remains (by simp [gone, hr, hc])
      simp only [gone, hr, hc, Option.toList_some, List.mem_singleton] at hne
      exact ((Left.start hrows).delete hown hsmall.2 ⟨row, hrow, hne⟩ (fun _ _ _ => rfl) hold).1
  | some r =>
    simp only [handleConflict, hr] at hconf
    split_ifs at hconf with hrep
    · cases hdel : fts3DeleteByRowid p s r 0 (fun _ => 0) with
      | none => simp [hdel] at hconf
      | some x =>
        obtain ⟨s₁', n₁', del₁'⟩ := x
        simp only [hdel, Option.bind_eq_bind, Option.bind_some] at hconf
        cases hconf
        obtain ⟨row, hrow, hne⟩ := hk.remains (by simp [gone, hr, hrep])
        simp only [gone, hr, hrep, if_true, List.mem_cons, not_or] at hne
        obtain ⟨hleft, hcontent, hfound⟩ := (Left.start hrows).delete hown hsmall.2
          ⟨row, hrow, hne.1⟩ (fun _ _ _ => rfl) hdel
        cases hc : c.old with
        | none =>
          rw [hc] at hold
          cases hold
          exact hleft
        | some o =>
          rw [hc] at hold
          have hrow₁ : row ∈ s₁.content := by
            rw [hcontent, List.mem_filter]
            exact ⟨hrow, by simpa using hne.1⟩
          have hno : row.docid ≠ o := by simpa [hc] using hne.2
          refine (hleft.delete hown hsmall.2 ⟨row, hrow₁, hno⟩ ?_ hold).1
          rintro ⟨row', hrow', hdoc⟩ j hj
          rw [hcontent, List.mem_filter] at hrow'
          rcases hfound with ⟨first, hfirst, hfdoc, hsize⟩ | ⟨-, hsame⟩
          · rw [hsize j hj]
            exact hk.replaced r o hr hrep hc ⟨row', hrow'.1, hdoc⟩ first hfirst hfdoc j hj
          · rw [hsame]
    · cases hins : fts3InsertData p s c new with
      | none => simp [hins] at hconf
      | some x => simp [hins] at hconf

theorem right_created (p : Fts3Table) : Right p ⟨[], none⟩ := by
  have hzero : (List.range (p.nColumn + 1)).map (total p []) = List.replicate (p.nColumn + 1) 0 := by
    rw [List.eq_replicate_iff]
    simp
  rw [Right, totalsOf, hzero]
  rfl

theorem updateDocTotals_content {aSzIns aSzDel : ℕ → ℕ} {nChng : ℤ} {s' : State}
    (h : fts3UpdateDocTotals p s aSzIns aSzDel nChng = some s') : s'.content = s.content := by
  unfold fts3UpdateDocTotals at h
  cases hread : readTotals p s with
  | none => simp [hread] at h
  | some a =>
    simp only [hread, Option.bind_eq_bind, Option.bind_some] at h
    cases h
    rfl

theorem updateMethod_delete (hrows : Rows p s.content) (hsmall : Small p s.content)
    (hright : Right p s) (hown : p.zContentTbl = false) {c : Call} (hnew : c.new = none) {s' : State}
    (hrun : sqlite3Fts3UpdateMethod p s c = some s') (hsmall' : Small p s'.content) :
    Rows p s'.content ∧ Right p s' ∧ s'.stat ≠ none := by
  simp only [sqlite3Fts3UpdateMethod, hnew] at hrun
  cases hold : removeOld p s c.old 0 (fun _ => 0) with
  | none => simp [hold] at hrun
  | some x =>
    obtain ⟨s₁, nChng, aSzDel⟩ := x
    simp only [hold, Option.bind_eq_bind, Option.bind_some] at hrun
    rw [updateDocTotals_content hrun] at hsmall' ⊢
    by_cases hempty : ∃ r, c.old = some r ∧ fts3IsEmpty p s r = true
    · -- the last row: the totals are written again from nothing
      obtain ⟨r, hc, he⟩ := hempty
      simp only [removeOld, hc, fts3DeleteByRowid, he, if_true] at hold
      cases hold
      have hzero : fts3UpdateDocTotals p fts3DeleteAll (fun _ => 0) (fun _ => 0) 0 = some s' := hrun
      obtain ⟨h1, -, h3⟩ := updateDocTotals_right _ (right_created p) rfl rfl
        (fun j _ => rfl) (fun j _ => by simp) hsmall' hzero
      exact ⟨⟨fun row hr => absurd hr List.not_mem_nil, List.nodup_nil⟩, h1, h3⟩
    · have hleft : Left p s.stat s.content s₁ nChng aSzDel := by
        cases hc : c.old with
        | none =>
          rw [hc] at hold
          cases hold
          exact Left.start hrows
        | some r =>
          rw [hc] at hold
          have hrest : ∃ row ∈ s.content, row.docid ≠ r := by
            by_contra hno
            refine hempty ⟨r, hc, ?_⟩
            simpa [fts3IsEmpty, hown] using hno
          exact ((Left.start hrows).delete hown hsmall.2 hrest (fun _ _ _ => rfl) hold).1
      obtain ⟨h1, -, h3⟩ := updateDocTotals_right s.content hright hleft.stat hleft.count
        hleft.size hsmall.2 hsmall' hrun
      exact ⟨hleft.rows, h1, h3⟩

theorem handleConflict_done {c : Call} {new : New} {s₁ : State} {n₁ : ℤ} {del₁ : ℕ → ℕ}
    (h : handleConflict p s c new = some (s₁, n₁, del₁, true)) : ∃ r d',
      conflictRowid p c new = some r ∧ fts3InsertData p s c new = some (s₁, d') ∧ n₁ = 0 ∧
        del₁ = fun _ => 0 := by
  cases hr : conflictRowid p c new with
  | none => simp [handleConflict, hr] at h
  | some r =>
    simp only [handleConflict, hr] at h
    split_ifs at h
    · cases hdel : fts3DeleteByRowid p s r 0 (fun _ => 0) with
      | none => simp [hdel] at h
      | some x => simp [hdel] at h
    · cases hins : fts3InsertData p s c new with
      | none => simp [hins] at h
      | some x =>
        obtain ⟨s₂, d'⟩ := x
        simp only [hins, Option.bind_eq_bind, Option.bind_some] at h
        cases h
        exact ⟨r, d', rfl, rfl, rfl, rfl⟩

/-- The sizes of the new row are added when all else is done. -/
theorem Changed.finish {c : Call} {new : New} {s₁ : State} {nChng : ℤ} {aSzDel : ℕ → ℕ}
    (h : Changed p s new s₁ nChng aSzDel) (hright : Right p s) (hk : Keeps p s c new)
    (hlen : new.values.length = p.nColumn) {s' : State} (hsmall' : Small p s'.content)
    (hrun : (fts3InsertTerms p new.langid new.values fun _ => 0).bind
      (fun aSzIns => fts3UpdateDocTotals p s₁ aSzIns aSzDel (nChng + 1)) = some s') :
    Rows p s'.content ∧ Right p s' ∧ s'.stat ≠ none := by
  cases hterms : fts3InsertTerms p new.langid new.values (fun _ => 0) with
  | none => simp [hterms] at hrun
  | some aSzIns =>
    simp only [hterms, Option.bind_some] at hrun
    rw [updateDocTotals_content hrun] at hsmall' ⊢
    have hsz := insertTerms_docSize hlen hk.language
      (lt_of_le_of_lt (Nat.le_add_left _ _) (hk.wrap p.nColumn le_rfl)) hterms
    obtain ⟨h1, -, h3⟩ := updateDocTotals_right s.content hright h.stat h.count
      (fun j hj => by rw [hsz j hj]; exact h.size j hj)
      (fun j hj => by rw [hsz j hj]; exact hk.wrap j hj) hsmall' hrun
    exact ⟨h.rows, h1, h3⟩

theorem updateMethod_write (hrows : Rows p s.content) (hsmall : Small p s.content)
    (hright : Right p s) (hown : p.zContentTbl = false) {c : Call} {new : New}
    (hnew : c.new = some new) (hk : Keeps p s c new) {s' : State}
    (hrun : sqlite3Fts3UpdateMethod p s c = some s') (hsmall' : Small p s'.content) :
    Rows p s'.content ∧ Right p s' ∧ s'.stat ≠ none := by
  simp only [sqlite3Fts3UpdateMethod, hnew, guard] at hrun
  split_ifs at hrun with hlen hlang
  · cases hconf : handleConflict p s c new with
    | none => simp [hconf] at hrun
    | some x =>
      obtain ⟨s₁, n₁, del₁, done⟩ := x
      cases hold : removeOld p s₁ c.old n₁ del₁ with
      | none => simp [hconf, hold] at hrun
      | some y =>
        obtain ⟨s₂, n₂, del₂⟩ := y
        simp only [hconf, hold, pure_bind, Option.bind_eq_bind, Option.bind_some] at hrun
        cases done with
        | true =>
          obtain ⟨r, d', hr, hins, rfl, rfl⟩ := handleConflict_done hconf
          exact (insertFirst hown hrows hlen hk.wrap hr hins hold).finish hright hk hlen hsmall' hrun
        | false =>
          have hleft := deleteFirst hown hrows hsmall hk hconf hold
          cases hins : fts3InsertData p s₂ c new with
          | none => simp [hins] at hrun
          | some z =>
            obtain ⟨s₃, d⟩ := z
            simp only [hins, Bool.false_eq_true, if_false, Option.map_some, Option.bind_some] at hrun
            exact (hleft.insert hown hlen hins).finish hright hk hlen hsmall' hrun
  all_goals simp at hrun

/-- After each call of a run, row 0 of `%_stat` holds the number of rows, the sum of the tokens of
each column and the sum of the bytes. -/
theorem fts4_totals_sound (hown : p.zContentTbl = false) (hr : Reach p s) :
    s = ⟨[], none⟩ ∨ ∃ blob, s.stat = some blob ∧ fts3DecodeIntArray (p.nColumn + 2) blob =
      some (s.content.length :: (List.range (p.nColumn + 1)).map (total p s.content)) := by
  have hall : Rows p s.content ∧ Right p s ∧ Small p s.content ∧ (s = ⟨[], none⟩ ∨ s.stat ≠ none) := by
    induction hr with
    | init =>
      refine ⟨⟨fun row hr => absurd hr List.not_mem_nil, List.nodup_nil⟩, right_created p, ?_,
        Or.inl rfl⟩
      exact ⟨by simp, fun j _ => by simp⟩
    | step c _ hk hrun hsmall' ih =>
      obtain ⟨hrows, hright, hsmall, -⟩ := ih
      cases hnew : c.new with
      | none =>
        obtain ⟨h1, h2, h3⟩ := updateMethod_delete hrows hsmall hright hown hnew hrun hsmall'
        exact ⟨h1, h2, hsmall', Or.inr h3⟩
      | some new =>
        obtain ⟨h1, h2, h3⟩ :=
          updateMethod_write hrows hsmall hright hown hnew (hk new hnew) hrun hsmall'
        exact ⟨h1, h2, hsmall', Or.inr h3⟩
  obtain ⟨-, hright, -, hstat⟩ := hall
  refine hstat.imp_right fun hne => ?_
  obtain ⟨blob, hblob⟩ := Option.ne_none_iff_exists'.mp hne
  refine ⟨blob, hblob, ?_⟩
  rw [Right, readTotals, hblob] at hright
  exact hright

/-- A table with one column, each text of which is one token. -/
def oneToken : Fts3Table := ⟨1, false, false, fun _ _ => some [⟨1, 0⟩]⟩

/-- Writes the text `a` to row 1. -/
def writeOne (old : Option ℤ) : Call := ⟨old, some ⟨some 1, [some [97]], none, 0⟩, false, 1⟩

/-- Writes a text to a row, in the place of an old one if there is one. -/
def writeRow (old : Option ℤ) (rowid : ℤ) (text : List ℕ) : Call :=
  ⟨old, some ⟨some rowid, [some text], none, 0⟩, false, 1⟩

def deleteRow (rowid : ℤ) : Call := ⟨some rowid, none, false, 1⟩

theorem writeRow_keeps {s : State} {old : Option ℤ} {rowid : ℤ} {text : List ℕ}
    (hold : ∀ o, old = some o → ∃ row ∈ s.content, row.docid ≠ o)
    (hsmall : ∀ j ≤ 1, total oneToken s.content j + docSize oneToken ⟨0, [some text], 0⟩ j < 2 ^ 32) :
    (writeRow old rowid text).Keeps oneToken s := by
  intro new hnew
  cases hnew
  refine ⟨fun hgone => ?_, ?_, ?_, hsmall⟩
  · cases old with
    | none =>
      unfold gone at hgone
      split at hgone <;> exact absurd rfl hgone
    | some o =>
      obtain ⟨row, hrow, hne⟩ := hold o rfl
      refine ⟨row, hrow, fun hmem => ?_⟩
      unfold gone at hmem
      split at hmem
      · exact hne (List.mem_singleton.mp hmem)
      · exact absurd hmem List.not_mem_nil
  · intro r o _ hrep
    cases hrep
  · intro v _
    rfl

/-- Two rows are inserted, the first is updated, and the second is deleted. -/
theorem fts4_totals_sound_update : ∃ s, Reach oneToken s ∧
    s.content = [⟨1, [some [97, 98, 99]], 0⟩] ∧ ∃ blob, s.stat = some blob ∧
      fts3DecodeIntArray 3 blob = some [1, 1, 3] := by
  have h₁ : Reach oneToken ⟨[⟨1, [some [97]], 0⟩], some [1, 1, 1]⟩ :=
    Reach.init.step (writeRow none 1 [97]) (writeRow_keeps nofun (by decide)) rfl
      ⟨by decide, by decide⟩
  have h₂ : Reach oneToken ⟨[⟨2, [some [97, 98]], 0⟩, ⟨1, [some [97]], 0⟩], some [2, 2, 3]⟩ :=
    h₁.step (writeRow none 2 [97, 98]) (writeRow_keeps nofun (by decide)) rfl ⟨by decide, by decide⟩
  have h₃ : Reach oneToken
      ⟨[⟨1, [some [97, 98, 99]], 0⟩, ⟨2, [some [97, 98]], 0⟩], some [2, 2, 5]⟩ :=
    h₂.step (writeRow (some 1) 1 [97, 98, 99])
      (writeRow_keeps (fun o ho => ⟨_, List.mem_cons_self, by cases ho; decide⟩) (by decide)) rfl
      ⟨by decide, by decide⟩
  have h₄ : Reach oneToken ⟨[⟨1, [some [97, 98, 99]], 0⟩], some [1, 1, 3]⟩ :=
    h₃.step (deleteRow 2) nofun rfl ⟨by decide, by decide⟩
  rcases fts4_totals_sound rfl h₄ with hc | ⟨blob, hblob, hdec⟩
  · cases hc
  · exact ⟨_, h₄, rfl, blob, hblob, hdec⟩

/-- An update of the only row wipes the totals, and leaves a count of zero rows. -/
theorem fts4_totals_only_row : ∃ s₁ s₂, sqlite3Fts3UpdateMethod oneToken ⟨[], none⟩ (writeOne none) =
      some s₁ ∧ sqlite3Fts3UpdateMethod oneToken s₁ (writeOne (some 1)) = some s₂ ∧
    s₂.content.length = 1 ∧ ∃ blob, s₂.stat = some blob ∧
      fts3DecodeIntArray 3 blob = some [0, 1, 1] :=
  ⟨_, _, rfl, rfl, rfl, _, rfl, rfl⟩

end Sqlite.Fts
