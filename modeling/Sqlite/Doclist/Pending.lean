import Mathlib.Data.List.Basic
import Sqlite.Doclist.Poslists

/-! The position lists of deferred tokens in one row (`sqlite3Fts3CacheDeferredDoclists`). -/
namespace Sqlite.Doclist

open Fts (sqlite3Fts3PutVarint sqlite3Fts3GetVarint)

structure PendingList where
  aData : List ℕ
  iLastDocid : ℤ
  iLastCol : ℤ
  iLastPos : ℤ

/-- A varint at the end of the list, which is made larger as needed. -/
def fts3PendingListAppendVarint (p : PendingList) (i : ℤ) : PendingList :=
  { p with aData := p.aData ++ sqlite3Fts3PutVarint (u64 i) }

/-- The list with the entry for a row: a null pointer is a list of no rows yet, and the byte 0 after the
data ends the row before. -/
def pendingRow (pp : Option PendingList) (iDocid : ℤ) : PendingList :=
  let new (aData : List ℕ) (iLastDocid : ℤ) : PendingList :=
    { aData := aData ++ sqlite3Fts3PutVarint (u64 (iDocid - iLastDocid)), iLastDocid := iDocid,
      iLastCol := -1, iLastPos := 0 }
  match pp with
  | none => new [] 0
  | some p => if p.iLastDocid ≠ iDocid then new (p.aData ++ [0]) p.iLastDocid else p

def fts3PendingListAppend (pp : Option PendingList) (iDocid iCol iPos : ℤ) : PendingList :=
  let p := pendingRow pp iDocid
  let p :=
    if iCol > 0 ∧ p.iLastCol ≠ iCol then
      { fts3PendingListAppendVarint (fts3PendingListAppendVarint p 1) iCol with
        iLastCol := iCol, iLastPos := 0 }
    else p
  if iCol ≥ 0 then { fts3PendingListAppendVarint p (2 + iPos - p.iLastPos) with iLastPos := iPos } else p

/-- A token of a phrase. `pDeferred` is its place on the list of deferred tokens, if it is deferred. -/
structure Fts3PhraseToken where
  z : List ℕ
  isPrefix : Bool
  bFirst : Bool
  pDeferred : Option ℕ

structure Fts3DeferredToken where
  pToken : Fts3PhraseToken
  iCol : ℕ
  pList : Option PendingList

/-- The token at position `iPos` of column `i` is one that `pDef` is about. -/
def deferredMatch (nColumn : ℕ) (pDef : Fts3DeferredToken) (i : ℕ) (zToken : List ℕ) (iPos : ℕ) : Bool :=
  let pPT := pDef.pToken
  decide ((pDef.iCol ≥ nColumn ∨ pDef.iCol = i) ∧ (pPT.bFirst = false ∨ iPos = 0) ∧
    (pPT.z.length = zToken.length ∨ (pPT.isPrefix ∧ pPT.z.length < zToken.length)) ∧
    zToken.take pPT.z.length = pPT.z)

/-- The loop over the deferred tokens, for a token of the text. -/
def cacheToken (nColumn : ℕ) (iDocid : ℤ) (i : ℕ) (pDeferred : List Fts3DeferredToken)
    (t : List ℕ × ℕ) : List Fts3DeferredToken :=
  pDeferred.map fun pDef =>
    if deferredMatch nColumn pDef i t.1 t.2 then
      { pDef with pList := some (fts3PendingListAppend pDef.pList iDocid i t.2) }
    else pDef

/-- The loop over the columns from `i` on. The text of a column is what the tokenizer makes of it: its
tokens, each with its position. -/
def cacheColumns (nColumn : ℕ) (iDocid : ℤ) : ℕ → List (List (List ℕ × ℕ)) → List Fts3DeferredToken →
    List Fts3DeferredToken
  | _, [], pDeferred => pDeferred
  | i, zText :: rest, pDeferred =>
    cacheColumns nColumn iDocid (i + 1) rest (zText.foldl (cacheToken nColumn iDocid i) pDeferred)

def sqlite3Fts3CacheDeferredDoclists (iDocid : ℤ) (row : List (List (List ℕ × ℕ)))
    (pDeferred : List Fts3DeferredToken) : List Fts3DeferredToken :=
  (cacheColumns row.length iDocid 0 row pDeferred).map fun pDef =>
    { pDef with pList := pDef.pList.map fun p => fts3PendingListAppendVarint p 0 }

/-- The position list of a deferred token; the outer `Option` is of the varint that is skipped. -/
def sqlite3Fts3DeferredTokenList (p : Fts3DeferredToken) : Option (Option (List ℕ)) :=
  match p.pList with
  | none => some none
  | some l => do
    let (_, pRet) ← sqlite3Fts3GetVarint l.aData
    return some pRet

/-! What the lists are. -/

/-- The positions of column `i` that have the token. -/
def columnOcc (nColumn : ℕ) (pDef : Fts3DeferredToken) (i : ℕ) (zText : List (List ℕ × ℕ)) : List ℕ :=
  (zText.filter fun t => deferredMatch nColumn pDef i t.1 t.2).map (·.2)

/-- The positions of the token in the columns from `i` on. -/
def occFrom (nColumn : ℕ) (pDef : Fts3DeferredToken) : ℕ → List (List (List ℕ × ℕ)) → Poslist
  | _, [] => []
  | i, zText :: rest =>
    let l := columnOcc nColumn pDef i zText
    if l = [] then occFrom nColumn pDef (i + 1) rest
    else (i, l) :: occFrom nColumn pDef (i + 1) rest

/-- The positions of the token in the row. -/
def occ (pDef : Fts3DeferredToken) (row : List (List (List ℕ × ℕ))) : Poslist :=
  occFrom row.length pDef 0 row

/-- The text of a row: positions ascend in each column. -/
structure IsText (row : List (List (List ℕ × ℕ))) : Prop where
  columns : row.length < 2 ^ 31 - 1
  ascend : ∀ zText ∈ row, zText.Pairwise (·.2 < ·.2)
  position_lt : ∀ zText ∈ row, ∀ t ∈ zText, t.2 < 2 ^ 31

variable {nColumn i q : ℕ} {iDocid : ℤ} {pDef : Fts3DeferredToken} {l : Poslist} {p : Option PendingList}
  {ps : List ℕ} {zText : List (List ℕ × ℕ)} {row : List (List (List ℕ × ℕ))}

theorem posBytes_append (prev : ℕ) (l l' : List ℕ) :
    posBytes prev (l ++ l') = posBytes prev l ++ posBytes (l.getLastD prev) l' := by
  induction l generalizing prev with
  | nil => rfl
  | cons a l ih =>
    rw [List.cons_append, posBytes, posBytes, ih, List.append_assoc]
    cases l <;> rfl

/-- The pending list has the positions `l`, and knows the last of them. -/
def Holds (iDocid : ℤ) (l : Poslist) : Option PendingList → Prop
  | none => l = []
  | some p => p.iLastDocid = iDocid ∧ p.aData = sqlite3Fts3PutVarint (u64 iDocid) ++ columnsBytes l ∧
      ∃ (init : Poslist) (c : ℕ) (ps : List ℕ) (q : ℕ), l = init ++ [(c, ps ++ [q])] ∧ p.iLastPos = q ∧
        p.iLastCol = if c = 0 then -1 else (c : ℤ)

theorem append_position {x : PendingList} {prev : ℕ} (hx : x.iLastPos = prev) (hq : prev ≤ q)
    (hlt : q < 2 ^ 31) : (fts3PendingListAppendVarint x (2 + q - x.iLastPos)).aData =
      x.aData ++ posBytes prev [q] := by
  rw [fts3PendingListAppendVarint, hx, u64_eq (n := q - prev + 2) (by omega) (by omega), posBytes, posBytes,
    List.append_nil]

theorem append_header {x : PendingList} (hi : i < 2 ^ 31) (h0 : 0 < i) :
    (fts3PendingListAppendVarint (fts3PendingListAppendVarint x 1) i).aData = x.aData ++ headerBytes i := by
  have hone : sqlite3Fts3PutVarint (u64 1) = [1] := putVarint_small (by decide)
  rw [fts3PendingListAppendVarint, fts3PendingListAppendVarint, u64_cast i (by omega), hone, headerBytes,
    if_neg (by omega), POS_COLUMN, List.append_assoc, List.singleton_append]

/-- The first position of a column. -/
theorem Holds.new_column (h : Holds iDocid l p) (hl : ∀ c ∈ l, c.1 < i) (hi : i < 2 ^ 31)
    (hlt : q < 2 ^ 31) : Holds iDocid (l ++ [(i, [q])]) (some (fts3PendingListAppend p iDocid i q)) := by
  have hbytes : columnsBytes (l ++ [(i, [q])]) = columnsBytes l ++ headerBytes i ++ posBytes 0 [q] := by
    simp [columnsBytes, columnBytes]
  have hrow : (pendingRow p iDocid).iLastDocid = iDocid ∧
      (pendingRow p iDocid).aData = sqlite3Fts3PutVarint (u64 iDocid) ++ columnsBytes l ∧
      (i = 0 → (pendingRow p iDocid).iLastPos = 0 ∧ (pendingRow p iDocid).iLastCol = -1) ∧
      (pendingRow p iDocid).iLastCol < i := by
    cases p with
    | none =>
      obtain rfl : l = [] := h
      refine ⟨rfl, ?_, fun _ => ⟨rfl, rfl⟩, ?_⟩
      · simp [pendingRow, columnsBytes]
      · change (-1 : ℤ) < i
        omega
    | some p =>
      obtain ⟨hdocid, hdata, init, c, ps, q', rfl, -, hcol⟩ := h
      have hc := hl (c, ps ++ [q']) (by simp)
      have hsame : pendingRow (some p) iDocid = p := by
        rw [pendingRow]
        exact if_neg (not_not.mpr hdocid)
      rw [hsame]
      refine ⟨hdocid, hdata, fun h0 => by omega, ?_⟩
      rw [hcol]
      split <;> omega
  obtain ⟨hdocid, hdata, hpos, hcol⟩ := hrow
  rw [fts3PendingListAppend]
  generalize pendingRow p iDocid = x at hdocid hdata hpos hcol
  have hge : (i : ℤ) ≥ 0 := by omega
  by_cases h0 : i = 0
  · have hno : ¬((i : ℤ) > 0 ∧ x.iLastCol ≠ i) := by omega
    simp only [if_neg hno, if_pos hge]
    refine ⟨hdocid, ?_, l, i, [], q, rfl, rfl, ?_⟩
    · rw [hbytes, headerBytes, if_pos h0, List.append_nil, ← List.append_assoc, ← hdata]
      exact append_position (hpos h0).1 (Nat.zero_le q) hlt
    · rw [if_pos h0]
      exact (hpos h0).2
  · have hyes : (i : ℤ) > 0 ∧ x.iLastCol ≠ i := by omega
    simp only [if_pos hyes, if_pos hge]
    refine ⟨hdocid, ?_, l, i, [], q, rfl, rfl, ?_⟩
    · rw [hbytes, ← List.append_assoc, ← List.append_assoc, ← hdata, ← append_header hi (by omega)]
      exact append_position (x := { fts3PendingListAppendVarint (fts3PendingListAppendVarint x 1) i with
        iLastCol := i, iLastPos := 0 }) rfl (Nat.zero_le q) hlt
    · exact (if_neg h0).symm

/-- Another position of the same column. -/
theorem Holds.same_column {prev : ℕ} (h : Holds iDocid (l ++ [(i, ps ++ [prev])]) p) (hq : prev < q)
    (hlt : q < 2 ^ 31) :
    Holds iDocid (l ++ [(i, ps ++ [prev] ++ [q])]) (some (fts3PendingListAppend p iDocid i q)) := by
  cases p with
  | none => simp [Holds] at h
  | some p =>
    obtain ⟨hdocid, hdata, init, c, ps', q', heq, hpos, hcol⟩ := h
    obtain ⟨rfl, hlast⟩ := List.append_inj' heq rfl
    simp only [List.cons.injEq, Prod.mk.injEq, and_true] at hlast
    obtain ⟨rfl, hlast⟩ := hlast
    obtain ⟨rfl, hlast⟩ := List.append_inj' hlast rfl
    obtain rfl : prev = q' := by simpa using hlast
    have hsame : pendingRow (some p) iDocid = p := by
      rw [pendingRow]
      exact if_neg (not_not.mpr hdocid)
    have hno : ¬((i : ℤ) > 0 ∧ p.iLastCol ≠ i) := by
      rw [hcol]
      split <;> omega
    have hge : (i : ℤ) ≥ 0 := by omega
    have hcolumn : columnBytes (i, ps ++ [prev] ++ [q]) =
        columnBytes (i, ps ++ [prev]) ++ posBytes prev [q] := by
      rw [columnBytes, columnBytes, posBytes_append, List.getLastD_concat]
      exact (List.append_assoc _ _ _).symm
    have hbytes : columnsBytes (l ++ [(i, ps ++ [prev] ++ [q])]) =
        columnsBytes (l ++ [(i, ps ++ [prev])]) ++ posBytes prev [q] := by
      simp only [columnsBytes, List.flatMap_append, List.flatMap_cons, List.flatMap_nil, List.append_nil,
        hcolumn]
      exact (List.append_assoc _ _ _).symm
    rw [fts3PendingListAppend, hsame]
    simp only [if_neg hno, if_pos hge]
    refine ⟨hdocid, ?_, l, i, ps ++ [prev], q, rfl, rfl, hcol⟩
    rw [hbytes, ← List.append_assoc, ← hdata]
    exact append_position hpos hq.le hlt

/-- What the tokens of a text leave of the pending list of one deferred token. -/
def pendingColumn (nColumn : ℕ) (iDocid : ℤ) (pDef : Fts3DeferredToken) (i : ℕ)
    (zText : List (List ℕ × ℕ)) (p : Option PendingList) : Option PendingList :=
  zText.foldl (fun p t =>
    if deferredMatch nColumn pDef i t.1 t.2 then some (fts3PendingListAppend p iDocid i t.2) else p) p

def pendingColumns (nColumn : ℕ) (iDocid : ℤ) (pDef : Fts3DeferredToken) :
    ℕ → List (List (List ℕ × ℕ)) → Option PendingList → Option PendingList
  | _, [], p => p
  | i, zText :: rest, p =>
    pendingColumns nColumn iDocid pDef (i + 1) rest (pendingColumn nColumn iDocid pDef i zText p)

theorem foldl_cacheToken (zText : List (List ℕ × ℕ)) (pDeferred : List Fts3DeferredToken) :
    zText.foldl (cacheToken nColumn iDocid i) pDeferred =
      pDeferred.map fun d => { d with pList := pendingColumn nColumn iDocid d i zText d.pList } := by
  induction zText generalizing pDeferred with
  | nil =>
    rw [List.foldl_nil]
    exact (List.map_id' pDeferred).symm
  | cons t zText ih =>
    rw [List.foldl_cons, ih, cacheToken, List.map_map]
    refine List.map_congr_left fun d _ => ?_
    simp only [Function.comp_apply, pendingColumn, List.foldl_cons]
    split <;> rfl

theorem pendingColumns_pList (x p : Option PendingList) (row : List (List (List ℕ × ℕ))) :
    pendingColumns nColumn iDocid { pDef with pList := x } i row p =
      pendingColumns nColumn iDocid pDef i row p := by
  induction row generalizing i p with
  | nil => rfl
  | cons zText row ih => exact ih (i := i + 1) _

theorem cacheColumns_eq (row : List (List (List ℕ × ℕ))) (pDeferred : List Fts3DeferredToken) :
    cacheColumns nColumn iDocid i row pDeferred =
      pDeferred.map fun d => { d with pList := pendingColumns nColumn iDocid d i row d.pList } := by
  induction row generalizing i pDeferred with
  | nil =>
    rw [cacheColumns]
    exact (List.map_id' pDeferred).symm
  | cons zText row ih =>
    rw [cacheColumns, ih, foldl_cacheToken, List.map_map]
    refine List.map_congr_left fun d _ => ?_
    simp only [Function.comp_apply, pendingColumns_pList, pendingColumns]

/-- The positions `ps` of column `i`, if there are any, after those of the columns before. -/
def withColumn (l : Poslist) (i : ℕ) (ps : List ℕ) : Poslist := if ps = [] then l else l ++ [(i, ps)]

theorem Holds.column (hl : ∀ c ∈ l, c.1 < i) (hi : i < 2 ^ 31) (hasc : zText.Pairwise (·.2 < ·.2))
    (hlt : ∀ t ∈ zText, t.2 < 2 ^ 31) (hps : ∀ x ∈ ps, ∀ t ∈ zText, x < t.2)
    (h : Holds iDocid (withColumn l i ps) p) :
    Holds iDocid (withColumn l i (ps ++ columnOcc nColumn pDef i zText))
      (pendingColumn nColumn iDocid pDef i zText p) := by
  induction zText generalizing ps p with
  | nil => rwa [columnOcc, List.filter_nil, List.map_nil, List.append_nil]
  | cons t zText ih =>
    obtain ⟨ht, hasc'⟩ := List.pairwise_cons.mp hasc
    have hlt' : ∀ x ∈ zText, x.2 < 2 ^ 31 := fun x hx => hlt x (List.mem_cons_of_mem t hx)
    have htlt := hlt t List.mem_cons_self
    rw [columnOcc, List.filter_cons, pendingColumn, List.foldl_cons]
    by_cases hmatch : deferredMatch nColumn pDef i t.1 t.2 = true
    · rw [if_pos hmatch, if_pos hmatch, List.map_cons, ← List.singleton_append, ← List.append_assoc]
      refine ih hasc' hlt' ?_ ?_
      · intro x hx y hy
        rcases List.mem_append.mp hx with hx | hx
        · exact hps x hx y (List.mem_cons_of_mem t hy)
        · rw [List.mem_singleton.mp hx]
          exact ht y hy
      · rw [withColumn, if_neg (by simp)]
        rcases List.eq_nil_or_concat ps with rfl | ⟨init, prev, rfl⟩
        · exact Holds.new_column (by rwa [withColumn, if_pos rfl] at h) hl hi htlt
        · rw [List.concat_eq_append] at h hps ⊢
          rw [withColumn, if_neg (by simp)] at h
          exact h.same_column (hps prev (by simp) t List.mem_cons_self) htlt
    · rw [if_neg hmatch, if_neg hmatch]
      exact ih hasc' hlt' (fun x hx y hy => hps x hx y (List.mem_cons_of_mem t hy)) h

theorem Holds.columns (hl : ∀ c ∈ l, c.1 < i) (hi : i + row.length < 2 ^ 31)
    (hasc : ∀ zText ∈ row, zText.Pairwise (·.2 < ·.2)) (hlt : ∀ zText ∈ row, ∀ t ∈ zText, t.2 < 2 ^ 31)
    (h : Holds iDocid l p) :
    Holds iDocid (l ++ occFrom nColumn pDef i row) (pendingColumns nColumn iDocid pDef i row p) := by
  induction row generalizing i l p with
  | nil => rwa [occFrom, List.append_nil]
  | cons zText row ih =>
    rw [List.length_cons] at hi
    have hcol : Holds iDocid (withColumn l i ([] ++ columnOcc nColumn pDef i zText))
        (pendingColumn nColumn iDocid pDef i zText p) :=
      Holds.column hl (by omega) (hasc zText List.mem_cons_self) (hlt zText List.mem_cons_self) (by simp)
        (by rwa [withColumn, if_pos rfl])
    rw [List.nil_append] at hcol
    have hrest := ih (i := i + 1) (l := withColumn l i (columnOcc nColumn pDef i zText)) ?_ (by omega)
      (fun x hx => hasc x (List.mem_cons_of_mem zText hx)) (fun x hx => hlt x (List.mem_cons_of_mem zText hx))
      hcol
    · rw [pendingColumns, occFrom]
      rw [withColumn] at hrest
      split at hrest
      case isTrue hnil => rwa [if_pos hnil]
      case isFalse hne =>
        rw [if_neg hne, ← List.singleton_append, ← List.append_assoc]
        exact hrest
    · intro c hc
      rw [withColumn] at hc
      split at hc
      · exact (hl c hc).trans (Nat.lt_succ_self i)
      · rcases List.mem_append.mp hc with hc | hc
        · exact (hl c hc).trans (Nat.lt_succ_self i)
        · rw [List.mem_singleton.mp hc]
          exact Nat.lt_succ_self i

theorem isPoslist_occFrom (hi : i + row.length < 2 ^ 31 - 1)
    (hasc : ∀ zText ∈ row, zText.Pairwise (·.2 < ·.2)) (hlt : ∀ zText ∈ row, ∀ t ∈ zText, t.2 < 2 ^ 31) :
    IsPoslist (occFrom nColumn pDef i row) ∧ ∀ c ∈ occFrom nColumn pDef i row, i ≤ c.1 := by
  induction row generalizing i with
  | nil => exact ⟨by rw [occFrom]; decide, by simp [occFrom]⟩
  | cons zText row ih =>
    rw [List.length_cons] at hi
    obtain ⟨h, hle⟩ := ih (i := i + 1) (by omega) (fun x hx => hasc x (List.mem_cons_of_mem zText hx))
      fun x hx => hlt x (List.mem_cons_of_mem zText hx)
    have hle' : ∀ c ∈ occFrom nColumn pDef (i + 1) row, i < c.1 := fun c hc => hle c hc
    rw [occFrom]
    split
    case isTrue => exact ⟨h, fun c hc => (hle' c hc).le⟩
    case isFalse hne =>
      have hz := List.mem_cons_self (a := zText) (l := row)
      refine ⟨⟨?_, ?_, ?_, ?_, ?_⟩, ?_⟩
      · exact List.pairwise_cons.mpr ⟨hle', h.columns⟩
      · refine List.forall_mem_cons.mpr ⟨?_, h.positions⟩
        exact List.pairwise_map.mpr ((hasc zText hz).sublist List.filter_sublist)
      · exact List.forall_mem_cons.mpr ⟨hne, h.nonempty⟩
      · exact List.forall_mem_cons.mpr ⟨by change i < _; omega, h.column_lt⟩
      · refine List.forall_mem_cons.mpr ⟨fun q hq => ?_, h.position_lt⟩
        obtain ⟨t, ht, rfl⟩ := List.mem_map.mp hq
        exact hlt zText hz t (List.mem_filter.mp ht).1
      · exact List.forall_mem_cons.mpr ⟨le_rfl, fun c hc => (hle' c hc).le⟩

theorem isPoslist_occ (h : IsText row) : IsPoslist (occ pDef row) :=
  (isPoslist_occFrom (by rw [Nat.zero_add]; exact h.columns) h.ascend h.position_lt).1

/-- The deferred tokens of a row: each has the list of its positions. -/
theorem cacheDeferred_lists (h : IsText row) (pDeferred : List Fts3DeferredToken)
    (hnew : ∀ d ∈ pDeferred, d.pList = none) :
    (sqlite3Fts3CacheDeferredDoclists iDocid row pDeferred).map sqlite3Fts3DeferredTokenList =
      pDeferred.map fun d => some (if occ d row = [] then none else some (poslistBytes (occ d row))) := by
  rw [sqlite3Fts3CacheDeferredDoclists, cacheColumns_eq, List.map_map, List.map_map]
  refine List.map_congr_left fun d hd => ?_
  have hcolumns := h.columns
  have hholds : Holds iDocid ([] ++ occFrom row.length d 0 row)
      (pendingColumns row.length iDocid d 0 row d.pList) :=
    Holds.columns (by simp) (by omega) h.ascend h.position_lt (by rw [hnew d hd]; rfl)
  rw [List.nil_append, ← occ] at hholds
  simp only [Function.comp_apply, sqlite3Fts3DeferredTokenList]
  generalize pendingColumns row.length iDocid d 0 row d.pList = x at hholds
  cases x with
  | none =>
    have hnil : occ d row = [] := hholds
    rw [if_pos hnil]
    rfl
  | some x =>
    obtain ⟨-, hdata, init, c, ps, q, heq, -⟩ := hholds
    have hne : occ d row ≠ [] := by simp [heq]
    have hend : sqlite3Fts3PutVarint (u64 0) = [POS_END] := putVarint_small (by decide)
    rw [if_neg hne]
    simp only [Option.map_some, fts3PendingListAppendVarint, hdata, hend, List.append_assoc,
      Fts.getVarint_putVarint (u64_lt iDocid)]
    rfl

end Sqlite.Doclist
