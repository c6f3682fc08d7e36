import Mathlib.Algebra.Order.Ring.Nat
import Mathlib.Data.Int.Notation
import Mathlib.Data.Nat.Notation
import Mathlib.Logic.Function.Basic

/-! The totals of a full-text table, in row 0 of its `%_stat` table. A call that fails is `none`:
its statement is rolled back. The full-text index is left out. -/
namespace Sqlite.Fts


/-! Numbers as bytes of seven bits each, lowest first. A byte is a number below 256. -/

def FTS3_VARINT_MAX : ℕ := 10

/-- The loop of `sqlite3Fts3PutVarint`, which writes at most `n` bytes. -/
def putLoop : ℕ → ℕ → List ℕ
  | 0, _ => []
  | n + 1, vu =>
    if vu >>> 7 = 0 then [((vu &&& 0x7f) ||| 0x80) &&& 0x7f]
    else ((vu &&& 0x7f) ||| 0x80) :: putLoop n (vu >>> 7)

def sqlite3Fts3PutVarint (v : ℕ) : List ℕ := putLoop FTS3_VARINT_MAX v

def getLoop : ℕ → ℕ → ℕ → List ℕ → Option (ℕ × List ℕ)
  | _, _, _, [] => none
  | n, x, y, b :: q =>
    if b &&& 0x80 = 0x80 ∧ n ≠ 0 then
      getLoop (n - 1) ((x + y * (b &&& 0x7f)) % 2 ^ 64) ((y <<< 7) % 2 ^ 64) q
    else some ((x + y * b) % 2 ^ 64, q)

/-- The number at the start of some bytes, and the bytes after it. -/
def sqlite3Fts3GetVarint (p : List ℕ) : Option (ℕ × List ℕ) := getLoop FTS3_VARINT_MAX 0 1 p

theorem seven_bits : ∀ r < 128, (r ||| 0x80) &&& 0x80 = 0x80 ∧ (r ||| 0x80) &&& 0x7f = r ∧
    r &&& 0x80 ≠ 0x80 := by
  decide

theorem getLoop_putLoop {n m v x k : ℕ} (hn : n ≤ m) (hv : v < 128 ^ (n + 1))
    (hx : x + 128 ^ k * v < 2 ^ 64) (rest : List ℕ) :
    getLoop m x (128 ^ k) (putLoop (n + 1) v ++ rest) = some (x + 128 ^ k * v, rest) := by
  induction n generalizing m v x k with
  | zero =>
    obtain ⟨-, h1, h2⟩ := seven_bits v (by simpa using hv)
    have hlow : v &&& 0x7f = v := by
      rw [Nat.and_two_pow_sub_one_eq_mod v 7]
      exact Nat.mod_eq_of_lt (by simpa using hv)
    have hhigh : v >>> 7 = 0 := by
      rw [Nat.shiftRight_eq_div_pow]
      exact Nat.div_eq_of_lt (by simpa using hv)
    simp only [putLoop, if_pos hhigh, hlow, h1, List.cons_append, List.nil_append, getLoop]
    rw [if_neg (fun hc => h2 hc.1), Nat.mod_eq_of_lt hx]
  | succ n ih =>
    have hlow : v &&& 0x7f = v % 128 := Nat.and_two_pow_sub_one_eq_mod v 7
    have hshift : v >>> 7 = v / 128 := Nat.shiftRight_eq_div_pow v 7
    obtain ⟨h0, h1, h2⟩ := seven_bits (v % 128) (Nat.mod_lt _ (by decide))
    rw [putLoop, hlow, hshift]
    by_cases hsmall : v / 128 = 0
    · have hmod : v % 128 = v := by omega
      rw [hmod] at h1 h2
      rw [if_pos hsmall, hmod, h1]
      simp only [List.cons_append, List.nil_append, getLoop]
      rw [if_neg (fun hc => h2 hc.1), Nat.mod_eq_of_lt hx]
    · have hm : m ≠ 0 := by omega
      have hsplit : x + 128 ^ k * (v % 128) + 128 ^ (k + 1) * (v / 128) = x + 128 ^ k * v := by
        rw [pow_succ, mul_assoc, add_assoc, ← Nat.mul_add, Nat.mod_add_div]
      have hx' : x + 128 ^ k * (v % 128) + 128 ^ (k + 1) * (v / 128) < 2 ^ 64 := by
        rwa [hsplit]
      have hy : 128 ^ (k + 1) < 2 ^ 64 := by
        have hle : 128 ^ (k + 1) * 1 ≤ 128 ^ (k + 1) * (v / 128) :=
          Nat.mul_le_mul_left _ (Nat.pos_of_ne_zero hsmall)
        omega
      have hv' : v / 128 < 128 ^ (n + 1) := by
        rw [Nat.div_lt_iff_lt_mul (by decide), ← pow_succ]
        exact hv
      rw [if_neg hsmall, List.cons_append, getLoop, if_pos ⟨h0, hm⟩, h1, Nat.shiftLeft_eq,
        ← pow_succ 128 k]
      rw [Nat.mod_eq_of_lt hy, Nat.mod_eq_of_lt (by omega), ih (by omega) hv' hx', hsplit]

theorem getVarint_putVarint {v : ℕ} (hv : v < 2 ^ 64) (rest : List ℕ) :
    sqlite3Fts3GetVarint (sqlite3Fts3PutVarint v ++ rest) = some (v, rest) := by
  have h := getLoop_putLoop (n := 9) (m := 10) (x := 0) (k := 0) (v := v) (by decide)
    (lt_trans hv (by decide)) (by simpa using hv) rest
  simpa [sqlite3Fts3GetVarint, sqlite3Fts3PutVarint, FTS3_VARINT_MAX] using h

/-- What `sqlite3_value_text` and `sqlite3_value_bytes` make of a value; `none` is null. -/
abbrev Value := Option (List ℕ)

structure Token where
  nToken : ℤ
  iPos : ℤ

/-- `tokenize` gives what `xNext` returns for a text in a language, or an error. -/
structure Fts3Table where
  nColumn : ℕ
  zContentTbl : Bool
  zLanguageid : Bool
  tokenize : ℤ → List ℕ → Option (List Token)

structure Row where
  docid : ℤ
  values : List Value
  langid : ℤ

/-- The rows of the content table, and the blob in row 0 of `%_stat`. -/
structure State where
  content : List Row
  stat : Option (List ℕ)

variable (p : Fts3Table) (s : State)

/-- The loop of `fts3PendingTermsAdd` over the tokens. -/
def wordLoop (nWord : ℤ) : List Token → Option ℤ
  | [] => some nWord
  | t :: l =>
    if t.iPos < 0 ∨ t.nToken ≤ 0 then none
    else wordLoop (if nWord ≤ t.iPos then t.iPos + 1 else nWord) l

/-- A text is read up to its first NUL byte. -/
def fts3PendingTermsAdd (iLangid : ℤ) : Value → Option ℕ
  | none => some 0
  | some zText => do
    let tokens ← p.tokenize iLangid (zText.takeWhile (· ≠ 0))
    let nWord ← wordLoop 0 tokens
    return (nWord % 2 ^ 32).toNat

def bytesOf (v : Value) : ℕ := (v.getD []).length

/-- The loop over the columns, from column `i` on. The number of tokens of a column is set, and the
number of bytes is added up after the columns. -/
def termsLoop (iLangid : ℤ) (aSz : ℕ → ℕ) (i : ℕ) : List Value → Option (ℕ → ℕ)
  | [] => some aSz
  | v :: l => do
    let nWord ← fts3PendingTermsAdd p iLangid v
    let aSz := Function.update aSz i nWord
    let aSz := Function.update aSz p.nColumn ((aSz p.nColumn + bytesOf v) % 2 ^ 32)
    termsLoop iLangid aSz (i + 1) l

def fts3InsertTerms (iLangid : ℤ) (values : List Value) (aSz : ℕ → ℕ) : Option (ℕ → ℕ) :=
  termsLoop p iLangid aSz 0 values

def langidFromSelect (row : Row) : ℤ := if p.zLanguageid then row.langid else 0

def fts3DeleteTerms (rowid : ℤ) (aSz : ℕ → ℕ) : Option (ℕ → ℕ) :=
  match s.content.find? (fun row => row.docid = rowid) with
  | none => some aSz
  | some row => termsLoop p (langidFromSelect p row) aSz 0 row.values

def fts3IsEmpty (rowid : ℤ) : Bool :=
  if p.zContentTbl then false else s.content.all fun row => row.docid = rowid

def fts3DeleteAll : State := ⟨[], none⟩

/-- With the number of documents and the sizes that are counted off. -/
def fts3DeleteByRowid (rowid : ℤ) (nDoc : ℤ) (aSzDel : ℕ → ℕ) : Option (State × ℤ × (ℕ → ℕ)) :=
  if fts3IsEmpty p s rowid then some (fts3DeleteAll, nDoc - 1, aSzDel)
  else do
    let aSzDel ← fts3DeleteTerms p s rowid aSzDel
    if p.zContentTbl then return (s, nDoc - 1, aSzDel)
    else return ({ s with content := s.content.filter fun row => row.docid ≠ rowid },
      if s.content.any (fun row => row.docid = rowid) then nDoc - 1 else nDoc, aSzDel)

def fts3EncodeIntArray (a : List ℕ) : List ℕ := a.flatMap sqlite3Fts3PutVarint

def fts3DecodeIntArray : ℕ → List ℕ → Option (List ℕ)
  | 0, _ => some []
  | n + 1, zBuf => do
    let (x, zBuf) ← sqlite3Fts3GetVarint zBuf
    let a ← fts3DecodeIntArray n zBuf
    return x % 2 ^ 32 :: a

/-- The totals in row 0 of `%_stat`, which are zero when there is no such row. -/
def readTotals : Option (List ℕ) :=
  match s.stat with
  | some blob => fts3DecodeIntArray (p.nColumn + 2) blob
  | none => some (List.replicate (p.nColumn + 2) 0)

def newCount (a : ℕ) (nChng : ℤ) : ℕ :=
  if nChng < 0 ∧ (a : ℤ) < -nChng then 0 else ((a + nChng) % 2 ^ 32).toNat

def newSize (x ins del : ℕ) : ℕ :=
  if (x + ins) % 2 ^ 32 < del then 0 else ((x + ins) % 2 ^ 32 + 2 ^ 32 - del) % 2 ^ 32

def fts3UpdateDocTotals (aSzIns aSzDel : ℕ → ℕ) (nChng : ℤ) : Option State := do
  let a ← readTotals p s
  let a' := newCount (a.getD 0 0) nChng ::
    (List.range (p.nColumn + 1)).map fun i => newSize (a.getD (i + 1) 0) (aSzIns i) (aSzDel i)
  return { s with stat := some (fts3EncodeIntArray a') }

/-- What a row is written with: `rowid` is `apVal[1]`. -/
structure New where
  rowid : Option ℤ
  values : List Value
  docid : Option ℤ
  langid : ℤ

/-- The arguments of a call: `old` is `apVal[0]`, and a deletion has no `new`. When neither the call
nor the content table gives a rowid, it is `auto`. -/
structure Call where
  old : Option ℤ
  new : Option New
  replace : Bool
  auto : ℤ

def insertRow (new : New) (docid : ℤ) : Option (State × ℤ) :=
  if s.content.any (fun row => row.docid = docid) then none
  else some ({ s with content := ⟨docid, new.values, new.langid⟩ :: s.content }, docid)

def newRowid (new : New) : Option ℤ := new.docid.or new.rowid

def fts3InsertData (c : Call) (new : New) : Option (State × ℤ) :=
  if p.zContentTbl then (newRowid new).map fun r => (s, r)
  else if new.docid ≠ none ∧ c.old = none ∧ new.rowid ≠ none then none
  else insertRow s new ((newRowid new).getD c.auto)

/-- The rowid that a new row is given, when no other row may have it. -/
def conflictRowid (c : Call) (new : New) : Option ℤ :=
  if p.zContentTbl then none else (newRowid new).filter fun r => c.old ≠ some r

/-- The part of a call before the old row is removed. -/
def handleConflict (c : Call) (new : New) : Option (State × ℤ × (ℕ → ℕ) × Bool) :=
  match conflictRowid p c new with
  | none => some (s, 0, fun _ => 0, false)
  | some r =>
    if c.replace then do
      let (s, nChng, aSzDel) ← fts3DeleteByRowid p s r 0 fun _ => 0
      return (s, nChng, aSzDel, false)
    else do
      let (s, _) ← fts3InsertData p s c new
      return (s, 0, fun _ => 0, true)

def removeOld (old : Option ℤ) (nChng : ℤ) (aSzDel : ℕ → ℕ) : Option (State × ℤ × (ℕ → ℕ)) :=
  match old with
  | none => some (s, nChng, aSzDel)
  | some r => fts3DeleteByRowid p s r nChng aSzDel

def sqlite3Fts3UpdateMethod (c : Call) : Option State :=
  match c.new with
  | none => do
    let (s, nChng, aSzDel) ← removeOld p s c.old 0 fun _ => 0
    fts3UpdateDocTotals p s (fun _ => 0) aSzDel nChng
  | some new => do
    guard (new.values.length = p.nColumn)
    guard (0 ≤ new.langid)
    let (s, nChng, aSzDel, bInsertDone) ← handleConflict p s c new
    let (s, nChng, aSzDel) ← removeOld p s c.old nChng aSzDel
    let s ← if bInsertDone then some s else (fts3InsertData p s c new).map Prod.fst
    let aSzIns ← fts3InsertTerms p new.langid new.values fun _ => 0
    fts3UpdateDocTotals p s aSzIns aSzDel (nChng + 1)

end Sqlite.Fts
