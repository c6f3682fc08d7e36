import Sqlite.BtreeCursor.Model
import Sqlite.Foundation.BigEndian
import Sqlite.Record.Decode

/-! How a search reads the record of an index cell: from the cell, where its size is a number of one
or two bytes, or by way of the overflow pages. -/
namespace Sqlite.BtreeCursor

open Foundation Record

def SQLITE_NOMEM : ℤ := 7

section
variable (usableSize : ℕ)

def maxLocal : ℕ := (usableSize - 12) * 64 / 255 - 23

def minLocal : ℕ := (usableSize - 12) * 32 / 255 - 23

def max1bytePayload : ℕ := if maxLocal usableSize > 127 then 127 else maxLocal usableSize

/-- How much of a record stays in its cell. -/
def nLocal (nPayload : ℕ) : ℕ :=
  if nPayload ≤ maxLocal usableSize then nPayload
  else
    let surplus := minLocal usableSize + (nPayload - minLocal usableSize) % (usableSize - 4)
    if surplus ≤ maxLocal usableSize then surplus else minLocal usableSize

/-- The bytes of a page from a cell to the end of the usable area. The first `childPtrSize` of them
are the number of a child. -/
structure IndexCell where
  childPtrSize : ℕ
  aData : Bytes

structure CellInfo where
  nKey : ℕ
  nHeader : ℕ
  nLocal : ℕ

/-- Reading behind the end of the data is undefined. -/
def bytesAt (p : Bytes) (n : ℕ) : Except Failure Bytes :=
  if n ≤ p.length then return p.take n else throw .undefined

def get4byte (p : Bytes) : Except Failure ℕ := do
  let bytes ← bytesAt p 4
  return beNat bytes

def btreeParseCellPtr (cell : IndexCell) : Except Failure CellInfo :=
  match getVarint32 (cell.aData.drop cell.childPtrSize) with
  | none => throw .undefined
  | some (nPayload, n) => return ⟨nPayload, cell.childPtrSize + n, nLocal usableSize nPayload⟩

/-- The loop of `accessPayload` over the overflow pages: what it reads, and how many bytes it does
not get. Each turn reads one byte at least. -/
def overflowLoop (page : ℕ → Bytes) : ℕ → ℕ → ℕ → Except Failure (Bytes × ℕ)
  | 0, _, _ => throw .undefined
  | n + 1, nextPage, amt =>
    if 0 < amt ∧ nextPage ≠ 0 then do
      let aPayload := page nextPage
      let nextPage ← get4byte aPayload
      let a := if amt > usableSize - 4 then usableSize - 4 else amt
      let pBuf ← bytesAt (aPayload.drop 4) a
      let (rest, amt) ← overflowLoop page n nextPage (amt - a)
      return (pBuf ++ rest, amt)
    else return ([], amt)

/-- All of a record. -/
def accessPayload (page : ℕ → Bytes) (cell : IndexCell) (info : CellInfo) : Except Failure Bytes :=
  let aPayload := cell.aData.drop info.nHeader
  if aPayload.length < info.nLocal then throw (.code SQLITE_CORRUPT)
  else
    let a := if info.nKey > info.nLocal then info.nLocal else info.nKey
    let amt := info.nKey - a
    if 0 < amt then do
      let nextPage ← get4byte (aPayload.drop info.nLocal)
      let (rest, amt) ← overflowLoop usableSize page (amt + 1) nextPage amt
      if 0 < amt then throw (.code SQLITE_CORRUPT) else return aPayload.take a ++ rest
    else return aPayload.take a

/-- The record of a cell that is parsed. -/
def parsedRecord (page : ℕ → Bytes) (cell : IndexCell) : Except Failure Bytes := do
  let info ← btreeParseCellPtr usableSize cell
  -- the size is an `int`, and no memory is given for one below 0
  if 2 ^ 31 ≤ info.nKey then throw (.code SQLITE_NOMEM) else accessPayload usableSize page cell info

/-- The record that `sqlite3BtreeMovetoUnpacked` compares. -/
def cellRecord (page : ℕ → Bytes) (cell : IndexCell) : Except Failure Bytes :=
  match cell.aData.drop cell.childPtrSize with
  | b₀ :: p =>
    if b₀.toNat ≤ max1bytePayload usableSize then bytesAt p b₀.toNat
    else
      match p with
      | b₁ :: p =>
        let nCell := ((b₀.toNat &&& 0x7f) <<< 7) + b₁.toNat
        if b₁.toNat &&& 0x80 = 0 ∧ nCell ≤ maxLocal usableSize then bytesAt p nCell
        else parsedRecord usableSize page cell
      | [] => throw .undefined
  | [] => throw .undefined

/-- Overflow pages that hold some bytes of a record. -/
inductive OverflowChain (page : ℕ → Bytes) : ℕ → Bytes → Prop
  | done : OverflowChain page 0 []
  | page {pgno next : ℕ} {data rest : Bytes} : pgno ≠ 0 → data ≠ [] → next < 2 ^ 32 →
      page pgno = beBytes 4 next ++ (data.take (usableSize - 4) ++ rest) →
      OverflowChain page next (data.drop (usableSize - 4)) → OverflowChain page pgno data

/-- A cell of a record. -/
structure StoredCell (page : ℕ → Bytes) (cell : IndexCell) (record : Bytes) : Prop where
  size : record.length < 2 ^ 31
  bytes : ∃ child rest, child.length = cell.childPtrSize ∧
    cell.aData = child ++ (sqlite3PutVarint record.length ++
      (record.take (nLocal usableSize record.length) ++ rest)) ∧
    (maxLocal usableSize < record.length → ∃ first rest', first < 2 ^ 32 ∧
      rest = beBytes 4 first ++ rest' ∧
      OverflowChain usableSize page first (record.drop (nLocal usableSize record.length)))

end

theorem putVarint_one {v : ℕ} (hv : v < 128) : sqlite3PutVarint v = [.ofNat v] := by
  rw [← putVarint32_eq, putVarint32, if_pos hv]

theorem putVarint_two {v : ℕ} (hv : 128 ≤ v) (hv' : v < 16384) :
    sqlite3PutVarint v = [.ofNat (v / 128 + 128), .ofNat (v % 128)] := by
  have h0 : v / 128 / 128 = 0 := by omega
  have hmod : v / 128 % 128 = v / 128 := by omega
  rw [putVarint_eq (by omega), if_neg (by omega), putHigh, if_neg (by omega), h0, hmod]
  simp [putHigh]

theorem putVarint_three {v : ℕ} (hv : 16384 ≤ v) (hv' : v < 2 ^ 56) :
    ∃ b₀ b₁ l, sqlite3PutVarint v = b₀ :: b₁ :: l ∧ 128 ≤ b₀.toNat ∧ 128 ≤ b₁.toNat := by
  rw [putVarint_eq (by omega), if_neg (by omega)]
  have hhigh := high_of_mem_putHigh (n := 8) (v := v / 128)
  have hlen : 1 < (putHigh 8 (v / 128)).length := by
    rw [putHigh, if_neg (by omega), putHigh, if_neg (by omega)]
    simp
  generalize putHigh 8 (v / 128) = high at hhigh hlen
  cases high with
  | nil => simp at hlen
  | cons b₀ l =>
    cases l with
    | nil => simp at hlen
    | cons b₁ l =>
      exact ⟨b₀, b₁, l ++ [.ofNat (v % 128)], rfl, hhigh b₀ (by simp), hhigh b₁ (by simp)⟩

variable {usableSize : ℕ} {page : ℕ → Bytes} {cell : IndexCell} {record : Bytes}

theorem maxLocal_bounds (hmin : 480 ≤ usableSize) (hmax : usableSize ≤ 65536) :
    94 ≤ maxLocal usableSize ∧ maxLocal usableSize < 16423 ∧
      minLocal usableSize ≤ maxLocal usableSize := by
  unfold maxLocal minLocal
  omega

theorem nLocal_le (hmin : 480 ≤ usableSize) (hmax : usableSize ≤ 65536) {n : ℕ}
    (hn : maxLocal usableSize < n) : nLocal usableSize n ≤ maxLocal usableSize := by
  obtain ⟨-, -, hle⟩ := maxLocal_bounds hmin hmax
  unfold nLocal
  rw [if_neg (Nat.not_le.mpr hn)]
  dsimp only
  split_ifs <;> omega

theorem bytesAt_append (p rest : Bytes) : bytesAt (p ++ rest) p.length = pure p := by
  rw [bytesAt, if_pos (by simp), List.take_left]

theorem get4byte_append {v : ℕ} (hv : v < 2 ^ 32) (rest : Bytes) :
    get4byte (beBytes 4 v ++ rest) = pure v := by
  have hbytes := bytesAt_append (beBytes 4 v) rest
  rw [length_beBytes] at hbytes
  rw [get4byte, hbytes, pure_bind, beNat_beBytes_of_lt hv]

theorem overflowLoop_eq (hsize : 4 < usableSize) {pgno n : ℕ} {data : Bytes}
    (hchain : OverflowChain usableSize page pgno data) (hn : data.length < n) :
    overflowLoop usableSize page n pgno data.length = pure (data, 0) := by
  induction hchain generalizing n with
  | done =>
    obtain ⟨n, rfl⟩ : ∃ k, n = k + 1 := ⟨n - 1, by omega⟩
    rw [overflowLoop, if_neg (by simp)]
    rfl
  | @page pgno next data rest hne hdata hnext hpage _ ih =>
    obtain ⟨n, rfl⟩ : ∃ k, n = k + 1 := ⟨n - 1, by omega⟩
    have hpos : 0 < data.length := List.length_pos_iff.mpr hdata
    have hlen : (data.take (usableSize - 4)).length =
        if data.length > usableSize - 4 then usableSize - 4 else data.length := by
      rw [List.length_take]
      split_ifs <;> omega
    have hdrop : (beBytes 4 next ++ (data.take (usableSize - 4) ++ rest)).drop 4 =
        data.take (usableSize - 4) ++ rest := by
      rw [List.drop_left' (length_beBytes 4 next)]
    have hleft : data.length - (data.take (usableSize - 4)).length =
        (data.drop (usableSize - 4)).length := by
      rw [List.length_take, List.length_drop]
      omega
    have hrest := ih (n := n) (by rw [List.length_drop]; omega)
    rw [overflowLoop, if_pos ⟨hpos, hne⟩]
    dsimp only
    rw [hpage, get4byte_append hnext, pure_bind, hdrop, ← hlen, bytesAt_append, pure_bind, hleft, hrest,
      pure_bind]
    dsimp only
    rw [List.take_append_drop]

/-- The way that a record takes which is not read from its cell at once. -/
theorem parsedRecord_eq (hmin : 480 ≤ usableSize) (hmax : usableSize ≤ 65536)
    (hs : StoredCell usableSize page cell record) :
    parsedRecord usableSize page cell = pure record := by
  have hsize := hs.size
  obtain ⟨child, rest, hchild, hdata, hover⟩ := hs.bytes
  have hdrop : cell.aData.drop cell.childPtrSize = sqlite3PutVarint record.length ++
      (record.take (nLocal usableSize record.length) ++ rest) := by
    rw [hdata, List.drop_left' hchild]
  have hparse : btreeParseCellPtr usableSize cell = pure ⟨record.length,
      cell.childPtrSize + (sqlite3PutVarint record.length).length,
      nLocal usableSize record.length⟩ := by
    rw [btreeParseCellPtr, hdrop, getVarint32_putVarint (by omega)]
  have hpayload : cell.aData.drop (cell.childPtrSize + (sqlite3PutVarint record.length).length) =
      record.take (nLocal usableSize record.length) ++ rest := by
    rw [← List.drop_drop, hdrop, List.drop_left]
  have hle : nLocal usableSize record.length ≤ record.length := by
    by_cases hn : record.length ≤ maxLocal usableSize
    · rw [nLocal, if_pos hn]
    · have := nLocal_le hmin hmax (Nat.not_le.mp hn)
      omega
  have htake : (record.take (nLocal usableSize record.length)).length =
      nLocal usableSize record.length := by
    rw [List.length_take]
    omega
  have ha : (if record.length > nLocal usableSize record.length then nLocal usableSize record.length
      else record.length) = nLocal usableSize record.length := by
    split_ifs <;> omega
  rw [parsedRecord, hparse, pure_bind, if_neg (by dsimp only; omega), accessPayload]
  dsimp only
  rw [hpayload, if_neg (by rw [List.length_append, htake]; omega), ha, List.take_left' htake]
  by_cases hn : record.length ≤ maxLocal usableSize
  · have hall : nLocal usableSize record.length = record.length := if_pos hn
    rw [if_neg (by omega), hall, List.take_length]
  · obtain ⟨first, rest', hfirst, rfl, hchain⟩ := hover (Nat.not_le.mp hn)
    have hlocal := nLocal_le hmin hmax (Nat.not_le.mp hn)
    have hlen : record.length - nLocal usableSize record.length =
        (record.drop (nLocal usableSize record.length)).length := by rw [List.length_drop]
    rw [if_pos (by omega), List.drop_left' htake, get4byte_append hfirst, pure_bind, hlen,
      overflowLoop_eq (by omega) hchain (Nat.lt_succ_self _), pure_bind]
    dsimp only
    rw [if_neg (lt_irrefl 0), List.take_append_drop]

/-- The two bytes of a cell that is not read at once, when they are not a size that fits. -/
theorem cellRecord_parsed {b₀ b₁ : UInt8} {p : Bytes}
    (hdrop : cell.aData.drop cell.childPtrSize = b₀ :: b₁ :: p)
    (h₀ : max1bytePayload usableSize < b₀.toNat)
    (h₁ : 128 ≤ b₁.toNat ∨ maxLocal usableSize < b₀.toNat % 128 * 128 + b₁.toNat) :
    cellRecord usableSize page cell = parsedRecord usableSize page cell := by
  have hlow : b₀.toNat &&& 0x7f = b₀.toNat % 128 := and_low _ 7
  have hlt := b₁.toNat_lt
  rw [cellRecord, hdrop]
  dsimp only
  rw [if_neg (Nat.not_le.mpr h₀), if_neg]
  rw [and_flag, hlow, Nat.shiftLeft_eq]
  omega

/-- A search reads the record that a cell holds, whichever way it takes. -/
theorem cellRecord_eq (hmin : 480 ≤ usableSize) (hmax : usableSize ≤ 65536)
    (hs : StoredCell usableSize page cell record) :
    cellRecord usableSize page cell = pure record := by
  have hsize := hs.size
  have hparsed := parsedRecord_eq hmin hmax hs
  obtain ⟨child, rest, hchild, hdata, hover⟩ := hs.bytes
  have hdrop : cell.aData.drop cell.childPtrSize = sqlite3PutVarint record.length ++
      (record.take (nLocal usableSize record.length) ++ rest) := by
    rw [hdata, List.drop_left' hchild]
  obtain ⟨hlow, hhigh, -⟩ := maxLocal_bounds hmin hmax
  have hmax1 : max1bytePayload usableSize = min 127 (maxLocal usableSize) := by
    unfold max1bytePayload
    split_ifs <;> omega
  have hlocal (hn : record.length ≤ maxLocal usableSize) :
      bytesAt (record.take (nLocal usableSize record.length) ++ rest) record.length = pure record := by
    have hall : nLocal usableSize record.length = record.length := if_pos hn
    rw [hall, List.take_length, bytesAt_append]
  by_cases hone : record.length < 128
  · have hb : (UInt8.ofNat record.length).toNat = record.length := by
      rw [UInt8.toNat_ofNat']
      omega
    rw [putVarint_one hone] at hdrop
    by_cases hn : record.length ≤ maxLocal usableSize
    · rw [cellRecord, hdrop]
      dsimp only [List.singleton_append]
      rw [hb, if_pos (by omega)]
      exact hlocal hn
    · -- the second byte is not one of the size, which is too large with it
      obtain ⟨first, rest', -, rfl, -⟩ := hover (Nat.not_le.mp hn)
      clear hover
      cases hp : record.take (nLocal usableSize record.length) ++ (beBytes 4 first ++ rest') with
      | nil =>
        have hlen := congrArg List.length hp
        simp at hlen
      | cons b p =>
        rw [hp] at hdrop
        rw [cellRecord_parsed hdrop (by omega) (by omega), hparsed]
  · by_cases htwo : record.length < 16384
    · have hb₀ : (UInt8.ofNat (record.length / 128 + 128)).toNat = record.length / 128 + 128 := by
        rw [UInt8.toNat_ofNat']
        omega
      have hb₁ : (UInt8.ofNat (record.length % 128)).toNat = record.length % 128 := by
        rw [UInt8.toNat_ofNat']
        omega
      rw [putVarint_two (by omega) htwo] at hdrop
      by_cases hn : record.length ≤ maxLocal usableSize
      · have hmask : record.length / 128 + 128 &&& 0x7f = (record.length / 128 + 128) % 128 :=
          and_low _ 7
        have hvalue : (record.length / 128 + 128) % 128 * 2 ^ 7 + record.length % 128 =
            record.length := by omega
        rw [cellRecord, hdrop]
        dsimp only [List.cons_append, List.nil_append]
        rw [hb₀, hb₁, if_neg (by omega), hmask, Nat.shiftLeft_eq, hvalue, if_pos]
        · exact hlocal hn
        · rw [and_flag]
          omega
      · rw [cellRecord_parsed hdrop (by omega) (by omega), hparsed]
    · obtain ⟨b₀, b₁, l, hput, hb₀, hb₁⟩ := putVarint_three (Nat.not_lt.mp htwo) (by omega)
      rw [hput] at hdrop
      rw [cellRecord_parsed hdrop (by omega) (.inl hb₁), hparsed]

end Sqlite.BtreeCursor
