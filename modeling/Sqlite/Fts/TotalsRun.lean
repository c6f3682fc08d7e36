import Mathlib.Algebra.Order.BigOperators.Group.List
import Sqlite.Fts.Totals

/-! The totals stay right in runs that keep away from three slips: the row with the totals is wiped
with the last row, sizes of a second deletion replace those of the first, and sums wrap. -/
namespace Sqlite.Fts


section

/-! The sizes of rows, what the loops over columns make of them, and how deletions count them off. -/

variable {p : Fts3Table} {s : State}

/-- The number of tokens of a value, as they are counted when it is written or deleted. -/
def tokenCount (p : Fts3Table) (iLangid : ℤ) (v : Value) : ℕ :=
  (fts3PendingTermsAdd p iLangid v).getD 0

/-- The number of tokens of each column of a row, and after them the number of its bytes. -/
def docSize (p : Fts3Table) (row : Row) (j : ℕ) : ℕ :=
  if j < p.nColumn then tokenCount p (langidFromSelect p row) (row.values.getD j none)
  else (row.values.map bytesOf).sum

/-- The sum of the sizes of some rows. -/
def total (p : Fts3Table) (content : List Row) (j : ℕ) : ℕ := (content.map fun row => docSize p row j).sum

theorem docSize_tokens {row : Row} {j : ℕ} (hj : j < p.nColumn) :
    docSize p row j = tokenCount p (langidFromSelect p row) (row.values.getD j none) := if_pos hj

theorem docSize_bytes (row : Row) : docSize p row p.nColumn = (row.values.map bytesOf).sum :=
  if_neg (lt_irrefl _)

@[simp] theorem total_nil (j : ℕ) : total p [] j = 0 := rfl

@[simp] theorem total_cons (row : Row) (l : List Row) (j : ℕ) :
    total p (row :: l) j = docSize p row j + total p l j := by
  simp [total]

theorem termsLoop_spec {iLangid : ℤ} {values : List Value} {aSz r : ℕ → ℕ} {i : ℕ}
    (hi : i + values.length = p.nColumn) (h : termsLoop p iLangid aSz i values = some r)
    (hsmall : aSz p.nColumn + (values.map bytesOf).sum < 2 ^ 32) :
    (∀ j < i, r j = aSz j) ∧
    (∀ j, i ≤ j → j < p.nColumn → r j = tokenCount p iLangid (values.getD (j - i) none)) ∧
    r p.nColumn = aSz p.nColumn + (values.map bytesOf).sum := by
  induction values generalizing aSz i with
  | nil =>
    cases h
    refine ⟨fun j _ => rfl, fun j h1 h2 => ?_, rfl⟩
    simp at hi
    omega
  | cons v l ih =>
    simp only [List.length_cons] at hi
    simp only [List.map_cons, List.sum_cons] at hsmall ⊢
    unfold termsLoop at h
    cases hn : fts3PendingTermsAdd p iLangid v with
    | none => simp [hn] at h
    | some nWord =>
      simp only [hn, Option.bind_eq_bind, Option.bind_some] at h
      have hne : p.nColumn ≠ i := by omega
      have hbytes : (Function.update aSz i nWord p.nColumn + bytesOf v) % 2 ^ 32 =
          aSz p.nColumn + bytesOf v := by
        rw [Function.update_of_ne hne, Nat.mod_eq_of_lt (by omega)]
      rw [hbytes] at h
      obtain ⟨hlow, hmid, hsum⟩ := ih (by omega) h (by
        rw [Function.update_self]
        omega)
      refine ⟨?_, ?_, ?_⟩
      · intro j hj
        rw [hlow j (by omega), Function.update_of_ne (by omega), Function.update_of_ne (by omega)]
      · intro j h1 h2
        by_cases hj : j = i
        · subst hj
          rw [hlow j (by omega), Function.update_of_ne (by omega), Function.update_self]
          simp [tokenCount, hn]
        · rw [hmid j (by omega) h2]
          have hj' : j - i = (j - (i + 1)) + 1 := by omega
          rw [hj', List.getD_cons_succ]
      · rw [hsum, Function.update_self]
        omega

/-- The sizes of a row, written or deleted, are those it counts with. -/
theorem termsLoop_docSize {row : Row} {aSz r : ℕ → ℕ} (hlen : row.values.length = p.nColumn)
    (h : termsLoop p (langidFromSelect p row) aSz 0 row.values = some r)
    (hsmall : aSz p.nColumn + docSize p row p.nColumn < 2 ^ 32) :
    (∀ j < p.nColumn, r j = docSize p row j) ∧
    r p.nColumn = aSz p.nColumn + docSize p row p.nColumn := by
  rw [docSize_bytes] at hsmall ⊢
  obtain ⟨-, hmid, hsum⟩ := termsLoop_spec (by omega) h hsmall
  refine ⟨fun j hj => ?_, hsum⟩
  rw [hmid j (Nat.zero_le j) hj, docSize_tokens hj, Nat.sub_zero]

theorem total_filter {content : List Row} (hd : (content.map Row.docid).Nodup) {row : Row}
    (hr : row ∈ content) (j : ℕ) :
    total p (content.filter fun r => r.docid ≠ row.docid) j + docSize p row j = total p content j ∧
    (content.filter fun r => r.docid ≠ row.docid).length + 1 = content.length := by
  induction content with
  | nil => cases hr
  | cons a l ih =>
    rw [List.map_cons, List.nodup_cons] at hd
    rcases List.mem_cons.mp hr with rfl | hr
    · have hall : l.filter (fun r => r.docid ≠ row.docid) = l := by
        rw [List.filter_eq_self]
        intro r hrl
        have hne : r.docid ≠ row.docid := fun hc => hd.1 (hc ▸ List.mem_map_of_mem hrl)
        simpa using hne
      rw [List.filter_cons_of_neg (by simp), hall, total_cons, List.length_cons]
      omega
    · have hne : a.docid ≠ row.docid := fun hc => hd.1 (hc ▸ List.mem_map_of_mem hr)
      obtain ⟨h1, h2⟩ := ih hd.2 hr
      rw [List.filter_cons_of_pos (by simpa using hne), total_cons, total_cons, List.length_cons,
        List.length_cons]
      omega

/-- The rows of a table: each has a value for each column, and a rowid of its own. -/
structure Rows (p : Fts3Table) (content : List Row) : Prop where
  width : ∀ row ∈ content, row.values.length = p.nColumn
  distinct : (content.map Row.docid).Nodup

theorem Rows.filter (h : Rows p s.content) (f : Row → Bool) : Rows p (s.content.filter f) :=
  ⟨fun row hr => h.width row (List.mem_filter.mp hr).1,
    h.distinct.sublist (List.Sublist.map Row.docid List.filter_sublist)⟩

theorem docSize_le_total {content : List Row} {row : Row} (hr : row ∈ content) (j : ℕ) :
    docSize p row j ≤ total p content j :=
  List.le_sum_of_mem (List.mem_map_of_mem hr)

end

variable {p : Fts3Table} {s : State}

/-- The totals of some rows, as they are stored. -/
def totalsOf (p : Fts3Table) (content : List Row) : List ℕ :=
  content.length :: (List.range (p.nColumn + 1)).map (total p content)

def Right (p : Fts3Table) (s : State) : Prop := readTotals p s = some (totalsOf p s.content)

def Small (p : Fts3Table) (content : List Row) : Prop :=
  content.length < 2 ^ 32 ∧ ∀ j ≤ p.nColumn, total p content j < 2 ^ 32

theorem decode_encode {a : List ℕ} (ha : ∀ x ∈ a, x < 2 ^ 32) :
    fts3DecodeIntArray a.length (fts3EncodeIntArray a) = some a := by
  induction a with
  | nil => rfl
  | cons x l ih =>
    have hx := ha x List.mem_cons_self
    have hl := ih fun y hy => ha y (List.mem_cons_of_mem x hy)
    have hget := getVarint_putVarint (lt_trans hx (by decide)) (fts3EncodeIntArray l)
    rw [List.length_cons, fts3DecodeIntArray, fts3EncodeIntArray, List.flatMap_cons,
      ← fts3EncodeIntArray, hget]
    simpa [hl] using hx

/-- What is left of the rows `base` after some deletions, of which the changes are known. -/
structure Left (p : Fts3Table) (stat : Option (List ℕ)) (base : List Row) (s : State) (nChng : ℤ)
    (aSzDel : ℕ → ℕ) : Prop where
  stat : s.stat = stat
  rows : Rows p s.content
  count : (s.content.length : ℤ) = base.length + nChng
  size : ∀ j ≤ p.nColumn, total p s.content j + aSzDel j = total p base j

theorem Left.start (h : Rows p s.content) : Left p s.stat s.content s 0 fun _ => 0 :=
  ⟨rfl, h, by simp, fun _ _ => rfl⟩

/-- A deletion that leaves rows, after one that found none or had only empty columns. -/
theorem Left.delete {stat : Option (List ℕ)} {base : List Row} {nChng : ℤ} {aSzDel : ℕ → ℕ}
    (h : Left p stat base s nChng aSzDel) (hown : p.zContentTbl = false)
    (hsmall : ∀ j ≤ p.nColumn, total p base j < 2 ^ 32) {r : ℤ}
    (hrest : ∃ row ∈ s.content, row.docid ≠ r)
    (hover : (∃ row ∈ s.content, row.docid = r) → ∀ j < p.nColumn, aSzDel j = 0)
    {s' : State} {nChng' : ℤ} {aSzDel' : ℕ → ℕ}
    (hrun : fts3DeleteByRowid p s r nChng aSzDel = some (s', nChng', aSzDel')) :
    Left p stat base s' nChng' aSzDel' ∧ s'.content = s.content.filter (fun row => row.docid ≠ r) ∧
      ((∃ row ∈ s.content, row.docid = r ∧ ∀ j < p.nColumn, aSzDel' j = docSize p row j) ∨
        (∀ row ∈ s.content, row.docid ≠ r) ∧ aSzDel' = aSzDel) := by
  have hempty : fts3IsEmpty p s r = false := by
    obtain ⟨row, hrow, hne⟩ := hrest
    simp only [fts3IsEmpty, hown, Bool.false_eq_true, if_false, List.all_eq_false]
    exact ⟨row, hrow, by simpa using hne⟩
  rw [fts3DeleteByRowid, hempty] at hrun
  simp only [Bool.false_eq_true, if_false, hown] at hrun
  cases hfind : s.content.find? (fun row => row.docid = r) with
  | none =>
    have hnot : ∀ row ∈ s.content, row.docid ≠ r := by
      intro row hrow
      simpa using List.find?_eq_none.mp hfind row hrow
    have hany : s.content.any (fun row => row.docid = r) = false := by
      rw [List.any_eq_false]
      intro row hrow
      simpa using hnot row hrow
    have hfilter : s.content.filter (fun row => row.docid ≠ r) = s.content := by
      rw [List.filter_eq_self]
      intro row hrow
      simpa using hnot row hrow
    simp only [fts3DeleteTerms, hfind, hany, hfilter, Option.bind_eq_bind, Option.bind_some,
      Bool.false_eq_true, if_false] at hrun
    cases hrun
    exact ⟨⟨h.stat, h.rows, h.count, h.size⟩, hfilter.symm, Or.inr ⟨hnot, rfl⟩⟩
  | some row =>
    have hrow : row ∈ s.content := List.mem_of_find?_eq_some hfind
    have hdoc : row.docid = r := by simpa using List.find?_some hfind
    have hany : s.content.any (fun row => row.docid = r) = true := by
      rw [List.any_eq_true]
      exact ⟨row, hrow, by simpa using hdoc⟩
    simp only [fts3DeleteTerms, hfind, hany, if_true] at hrun
    cases hterms : termsLoop p (langidFromSelect p row) aSzDel 0 row.values with
    | none => simp [hterms] at hrun
    | some aSz =>
      simp only [hterms, Option.bind_eq_bind, Option.bind_some] at hrun
      cases hrun
      subst hdoc
      have hle := docSize_le_total (p := p) hrow p.nColumn
      have hsum := h.size p.nColumn le_rfl
      have hlt := hsmall p.nColumn le_rfl
      obtain ⟨htok, hbytes⟩ := termsLoop_docSize (h.rows.width row hrow) hterms (by omega)
      have hcut := total_filter (p := p) h.rows.distinct hrow
      refine ⟨⟨h.stat, h.rows.filter _, ?_, ?_⟩, rfl, Or.inl ⟨row, hrow, rfl, htok⟩⟩
      · have hlen := (hcut 0).2
        have hcount := h.count
        dsimp only
        omega
      · intro j hj
        have hj' := h.size j hj
        have hc := (hcut j).1
        dsimp only
        rcases Nat.lt_or_eq_of_le hj with hlt' | rfl
        · have hzero := hover ⟨row, hrow, rfl⟩ j hlt'
          rw [htok j hlt']
          omega
        · rw [hbytes]
          omega

/-- The totals are right again when the changes are added to totals that were right. -/
theorem updateDocTotals_right {stat : Option (List ℕ)} (base : List Row) {nChng : ℤ}
    {aSzIns aSzDel : ℕ → ℕ} (hright : Right p ⟨base, stat⟩) (hstat : s.stat = stat)
    (hcount : (s.content.length : ℤ) = base.length + nChng)
    (hsize : ∀ j ≤ p.nColumn, total p s.content j + aSzDel j = total p base j + aSzIns j)
    (hwrap : ∀ j ≤ p.nColumn, total p base j + aSzIns j < 2 ^ 32) (hsmall : Small p s.content)
    {s' : State} (hrun : fts3UpdateDocTotals p s aSzIns aSzDel nChng = some s') :
    Right p s' ∧ s'.content = s.content ∧ s'.stat ≠ none := by
  subst hstat
  have hread : readTotals p s = some (totalsOf p base) := hright
  simp only [fts3UpdateDocTotals, hread, Option.bind_eq_bind, Option.bind_some] at hrun
  cases hrun
  refine ⟨?_, rfl, Option.some_ne_none _⟩
  have hhead : newCount ((totalsOf p base).getD 0 0) nChng = s.content.length := by
    have hlt := hsmall.1
    simp only [totalsOf, List.getD_cons_zero, newCount]
    rw [if_neg (by omega)]
    omega
  have htail : (List.range (p.nColumn + 1)).map (fun i =>
      newSize ((totalsOf p base).getD (i + 1) 0) (aSzIns i) (aSzDel i)) =
      (List.range (p.nColumn + 1)).map (total p s.content) := by
    refine List.map_congr_left fun i hi => ?_
    have hi' : i ≤ p.nColumn := Nat.lt_succ_iff.mp (List.mem_range.mp hi)
    have hget : (totalsOf p base).getD (i + 1) 0 = total p base i := by
      simp [totalsOf, List.getD_eq_getElem?_getD, List.mem_range.mp hi]
    have h1 := hsize i hi'
    have h2 := hwrap i hi'
    have h3 := hsmall.2 i hi'
    rw [hget, newSize, Nat.mod_eq_of_lt h2, if_neg (by omega)]
    omega
  rw [hhead, htail]
  have hlen : (totalsOf p s.content).length = p.nColumn + 2 := by
    simp [totalsOf]
  change fts3DecodeIntArray (p.nColumn + 2) (fts3EncodeIntArray (totalsOf p s.content)) = _
  rw [← hlen, decode_encode]
  intro x hx
  rcases List.mem_cons.mp hx with rfl | hx
  · exact hsmall.1
  · obtain ⟨j, hj, rfl⟩ := List.mem_map.mp hx
    exact hsmall.2 j (Nat.lt_succ_iff.mp (List.mem_range.mp hj))

end Sqlite.Fts
