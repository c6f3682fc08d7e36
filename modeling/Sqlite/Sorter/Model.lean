import Mathlib
import Sqlite.Record.Decode

/-! The sorter of the virtual machine (`vdbesort.c`): records are kept in memory, written out as sorted runs to a
temporary file if there are too many of them, and merged sixteen runs at a time. Out-of-memory and I/O errors
are left out; `none` stands for a read past the end of a file or of a buffer, and for a loop that has no end. -/
namespace Sqlite.Sorter

open Record (Bytes sqlite3GetVarint sqlite3PutVarint sqlite3VarintLen)

/-- How keys are unpacked and compared. -/
structure KeyInfo (U : Type) where
  unpack : Bytes → Option U
  recordCompare : Bytes → U → Option ℤ

/-! Files and buffers. -/

/-- The file of a write at an offset; a gap is filled with zeros. -/
def sqlite3OsWrite (pFile buf : Bytes) (offset : ℕ) : Bytes :=
  pFile.take offset ++ List.replicate (offset - pFile.length) 0 ++ buf ++ pFile.drop (offset + buf.length)

def sqlite3OsRead (pFile : Bytes) (amt : ℤ) (offset : ℕ) : Option Bytes :=
  if 0 ≤ amt ∧ offset + amt.toNat ≤ pFile.length then some ((pFile.drop offset).take amt.toNat) else none

/-- `memcpy(&dest[i], src, src.length)` -/
def memcpy (dest : Bytes) (i : ℕ) (src : Bytes) : Option Bytes :=
  if i + src.length ≤ dest.length then some (dest.take i ++ src ++ dest.drop (i + src.length)) else none

/-- `n` bytes at `&src[i]` -/
def bytesAt (src : Bytes) (i n : ℕ) : Option Bytes :=
  if i + n ≤ src.length then some ((src.drop i).take n) else none

/-- The cast of a wide integer to `int`. -/
def toInt (x : ℤ) : ℤ := x.bmod (2 ^ 32)

/-- The cast of a size, which has to be positive to make sense. -/
def toSize (n : ℕ) : Option ℕ := if 0 ≤ toInt n then some (toInt n).toNat else none

/-! Iterators. -/

inductive Pointer
  | aBuffer (iBuf : ℕ)
  | aAlloc
  deriving DecidableEq

/-- `pFile` tells whether the iterator has a file. -/
structure VdbeSorterIter where
  iReadOff : ℕ
  iEof : ℕ
  nKey : ℕ
  pFile : Bool
  aAlloc : Bytes
  aKey : Pointer
  aBuffer : Bytes
  nBuffer : ℕ
  deriving DecidableEq

namespace VdbeSorterIter

def vdbeSorterIterZero : VdbeSorterIter where
  iReadOff := 0
  iEof := 0
  nKey := 0
  pFile := false
  aAlloc := []
  aKey := .aAlloc
  aBuffer := []
  nBuffer := 0

/-- The bytes that a pointer into the buffers of the iterator points to. -/
def deref (p : VdbeSorterIter) (ptr : Pointer) (n : ℕ) : Option Bytes :=
  match ptr with
  | .aBuffer iBuf => bytesAt p.aBuffer iBuf n
  | .aAlloc => bytesAt p.aAlloc 0 n

def key (p : VdbeSorterIter) : Option Bytes := p.deref p.aKey p.nKey

end VdbeSorterIter

section Iterators

variable (raw : ℕ → UInt8) (pFile : Bytes)

/-- Memory as `malloc` returns it: its bytes may be anything. -/
def sqlite3DbMallocRaw (n : ℕ) : Bytes := (List.range n).map raw

/-- The size to which an allocation is doubled. -/
def growLoop (nByte : ℕ) : ℕ → ℤ → Option ℕ
  | 0, _ => none
  | n + 1, nNew => if nNew < nByte then growLoop nByte n (toInt (nNew * 2)) else some nNew.toNat

/-- `aAlloc` with room for `nByte` bytes. -/
def growAlloc (p : VdbeSorterIter) (nByte : ℕ) : Option Bytes :=
  if p.aAlloc.length < nByte then do
    let nNew ← growLoop nByte nByte (toInt (p.aAlloc.length * 2))
    some (p.aAlloc ++ sqlite3DbMallocRaw raw (nNew - p.aAlloc.length))
  else some p.aAlloc

/-- The buffer, into which a page is read if the iterator is at its start. -/
def fillBuffer (p : VdbeSorterIter) : Option Bytes :=
  if p.iReadOff % p.nBuffer = 0 then do
    let nRead := toInt (p.iEof - p.iReadOff)
    let nRead := if p.nBuffer < nRead then (p.nBuffer : ℤ) else nRead
    memcpy p.aBuffer 0 (← sqlite3OsRead pFile nRead p.iReadOff)
  else some p.aBuffer

/-- The loop over the pages that a read spans. -/
def copyLoop (read : VdbeSorterIter → ℕ → Option (VdbeSorterIter × Pointer)) (nByte : ℕ) :
    ℕ → ℕ → VdbeSorterIter → Option VdbeSorterIter
  | _, 0, p => some p
  | 0, _ + 1, _ => none
  | n + 1, nRem, p => do
    let nCopy := if p.nBuffer < nRem then p.nBuffer else nRem
    let (p, aNext) ← read p nCopy
    let data ← p.deref aNext nCopy
    let aAlloc ← memcpy p.aAlloc (nByte - nRem) data
    copyLoop read nByte n (nRem - nCopy) { p with aAlloc }

/-- `depth` bounds the calls that the function makes to itself. -/
def iterRead : ℕ → VdbeSorterIter → ℕ → Option (VdbeSorterIter × Pointer)
  | 0, _, _ => none
  | depth + 1, p, nByte => do
    let iBuf := p.iReadOff % p.nBuffer
    let aBuffer ← fillBuffer pFile p
    let p := { p with aBuffer }
    let nAvail := p.nBuffer - iBuf
    if nByte ≤ nAvail then some ({ p with iReadOff := p.iReadOff + nByte }, .aBuffer iBuf)
    else
      let aAlloc ← growAlloc raw p nByte
      let aAlloc ← memcpy aAlloc 0 (← bytesAt p.aBuffer iBuf nAvail)
      let nRem := nByte - nAvail
      let p ← copyLoop (iterRead depth) nByte nRem nRem { p with aAlloc, iReadOff := p.iReadOff + nAvail }
      some (p, .aAlloc)

/-- A read in the loop of a read starts at a page, and needs no loop itself. -/
def vdbeSorterIterRead (p : VdbeSorterIter) (nByte : ℕ) : Option (VdbeSorterIter × Pointer) :=
  iterRead raw pFile 2 p nByte

/-- The bytes of a number, up to the first one without the high bit. -/
def varintLoop : ℕ → ℕ → Bytes → VdbeSorterIter → Option (VdbeSorterIter × Bytes)
  | 0, _, _, _ => none
  | n + 1, i, aVarint, p => do
    let (p, a) ← vdbeSorterIterRead raw pFile p 1
    let data ← p.deref a 1
    let aVarint ← memcpy aVarint (i &&& 0xf) data
    match data with
    | [b] => if b &&& 0x80 = 0 then some (p, aVarint) else varintLoop n (i + 1) aVarint p
    | _ => none

def vdbeSorterIterVarint (p : VdbeSorterIter) : Option (VdbeSorterIter × ℕ) :=
  let iBuf := p.iReadOff % p.nBuffer
  if iBuf ≠ 0 ∧ 9 ≤ p.nBuffer - iBuf then do
    let (nOut, n) ← sqlite3GetVarint (p.aBuffer.drop iBuf)
    some ({ p with iReadOff := p.iReadOff + n }, nOut)
  else do
    let (p, aVarint) ← varintLoop raw pFile pFile.length 0 (sqlite3DbMallocRaw raw 16) p
    let (nOut, _) ← sqlite3GetVarint aVarint
    some (p, nOut)

def vdbeSorterIterNext (pIter : VdbeSorterIter) : Option VdbeSorterIter :=
  if pIter.iEof ≤ pIter.iReadOff then some .vdbeSorterIterZero
  else do
    let (pIter, nRec) ← vdbeSorterIterVarint raw pFile pIter
    let nKey ← toSize nRec
    let (pIter, aKey) ← vdbeSorterIterRead raw pFile { pIter with nKey } nKey
    some { pIter with aKey }

/-- The iterator, and `nByte` with the size of its run added. -/
def vdbeSorterIterInit (nBuf iWriteOff iStart nByte : ℕ) : Option (VdbeSorterIter × ℕ) := do
  let iBuf := iStart % nBuf
  let aBuffer := sqlite3DbMallocRaw raw nBuf
  let aBuffer ← (if iBuf ≠ 0 then do
      let nRead := nBuf - iBuf
      let nRead := if iWriteOff < iStart + nRead then iWriteOff - iStart else nRead
      memcpy aBuffer iBuf (← sqlite3OsRead pFile nRead iStart)
    else some aBuffer)
  let pIter : VdbeSorterIter :=
    { iReadOff := iStart, iEof := iWriteOff, nKey := 0, pFile := true, aAlloc := sqlite3DbMallocRaw raw 128
      aKey := .aAlloc, aBuffer, nBuffer := nBuf }
  let (pIter, size) ← vdbeSorterIterVarint raw pFile pIter
  let pIter ← vdbeSorterIterNext raw pFile { pIter with iEof := pIter.iReadOff + size }
  some (pIter, nByte + size)

end Iterators

/-! Writing. -/

/-- The buffer starts at `iWriteOff` in the file; of it `[iBufStart, iBufEnd)` is still to be written. -/
structure FileWriter where
  aBuffer : Bytes
  iBufStart : ℕ
  iBufEnd : ℕ
  iWriteOff : ℕ
  pFile : Bytes

def fileWriterInit (raw : ℕ → UInt8) (nBuf : ℕ) (pFile : Bytes) (iStart : ℕ) : FileWriter where
  aBuffer := sqlite3DbMallocRaw raw nBuf
  iBufStart := iStart % nBuf
  iBufEnd := iStart % nBuf
  iWriteOff := iStart - iStart % nBuf
  pFile := pFile

/-- The loop of `fileWriterWrite`, for `n` rounds at most. -/
def writeLoop : ℕ → FileWriter → Bytes → Option FileWriter
  | _, p, [] => some p
  | 0, _, _ :: _ => none
  | n + 1, p, pData => do
    let nCopy := if p.aBuffer.length - p.iBufEnd < pData.length then p.aBuffer.length - p.iBufEnd else pData.length
    let aBuffer ← memcpy p.aBuffer p.iBufEnd (pData.take nCopy)
    let p := { p with aBuffer, iBufEnd := p.iBufEnd + nCopy }
    let p ← (if p.iBufEnd = p.aBuffer.length then do
        let data ← bytesAt p.aBuffer p.iBufStart (p.iBufEnd - p.iBufStart)
        some { p with
          pFile := sqlite3OsWrite p.pFile data (p.iWriteOff + p.iBufStart)
          iBufStart := 0
          iBufEnd := 0
          iWriteOff := p.iWriteOff + p.aBuffer.length }
      else some p)
    writeLoop n p (pData.drop nCopy)

def fileWriterWrite (p : FileWriter) (pData : Bytes) : Option FileWriter := writeLoop pData.length p pData

def fileWriterWriteVarint (p : FileWriter) (iVal : ℕ) : Option FileWriter := fileWriterWrite p (sqlite3PutVarint iVal)

/-- The file, and the offset behind what was written. -/
def fileWriterFinish (p : FileWriter) : Option (Bytes × ℕ) :=
  if p.iBufStart < p.iBufEnd then do
    let data ← bytesAt p.aBuffer p.iBufStart (p.iBufEnd - p.iBufStart)
    some (sqlite3OsWrite p.pFile data (p.iWriteOff + p.iBufStart), p.iWriteOff + p.iBufEnd)
  else some (p.pFile, p.iWriteOff + p.iBufEnd)

/-! The sorter. -/

/-- `pTemp1` is the file of the runs, if it is open. `aTree` is empty until the merge starts. -/
structure VdbeSorter (U : Type) where
  iWriteOff : ℕ
  iReadOff : ℕ
  nInMemory : ℕ
  nTree : ℕ
  nPMA : ℕ
  mnPmaSize : ℕ
  mxPmaSize : ℤ
  aIter : List VdbeSorterIter
  aTree : List ℕ
  pTemp1 : Option Bytes
  pRecord : List Bytes
  pUnpacked : Option U

/-- What the sorter has from its environment. `raw` gives the contents of memory from `malloc`. -/
structure Db (U : Type) where
  pageSize : ℕ
  cache_size : ℤ
  tempInMemory : Bool
  raw : ℕ → UInt8
  pKeyInfo : KeyInfo U

def SORTER_MIN_WORKING : ℕ := 10

def SORTER_MAX_MERGE_COUNT : ℕ := 16

section

variable {U : Type} (db : Db U)

def sqlite3VdbeSorterInit : VdbeSorter U where
  iWriteOff := 0
  iReadOff := 0
  nInMemory := 0
  nTree := 0
  nPMA := 0
  mnPmaSize := if db.tempInMemory then 0 else SORTER_MIN_WORKING * db.pageSize
  mxPmaSize := if db.tempInMemory then 0 else toInt (max db.cache_size SORTER_MIN_WORKING * db.pageSize)
  aIter := []
  aTree := []
  pTemp1 := none
  pRecord := []
  pUnpacked := none

/-- The result, and the unpacked second key; without `pKey2` it is the one of the call before. -/
def vdbeSorterCompare (pUnpacked : Option U) (pKey1 : Bytes) (pKey2 : Option Bytes) : Option (ℤ × U) := do
  let r2 ← match pKey2 with
    | some pKey2 => db.pKeyInfo.unpack pKey2
    | none => pUnpacked
  let res ← db.pKeyInfo.recordCompare pKey1 r2
  some (res, r2)

/-- The loop of `vdbeSorterMerge`. -/
def mergeLoop : List Bytes → List Bytes → Option Bytes → Option U → Option (List Bytes × Option U)
  | p1 :: l1, p2 :: l2, pVal2, r2 => do
    let (res, r2) ← vdbeSorterCompare db r2 p1 pVal2
    if res ≤ 0 then
      let (pFinal, r2) ← mergeLoop l1 (p2 :: l2) none (some r2)
      some (p1 :: pFinal, r2)
    else
      let (pFinal, r2) ← mergeLoop (p1 :: l1) l2 l2.head? (some r2)
      some (p2 :: pFinal, r2)
  | [], l2, _, r2 => some (l2, r2)
  | l1, [], _, r2 => some (l1, r2)
  termination_by l1 l2 => l1.length + l2.length

def vdbeSorterMerge (p1 p2 : List Bytes) (r2 : Option U) : Option (List Bytes × Option U) :=
  mergeLoop db p1 p2 p2.head? r2

/-- A list is merged with those of the slots, up to the first empty one. -/
def slotLoop (p : List Bytes) : List (List Bytes) → Option U → Option (List (List Bytes) × Option U)
  | [], _ => none
  | [] :: aSlot, r2 => some (p :: aSlot, r2)
  | slot :: aSlot, r2 => do
    let (p, r2) ← vdbeSorterMerge db p slot r2
    let (aSlot, r2) ← slotLoop p aSlot r2
    some ([] :: aSlot, r2)

def recordLoop : List Bytes → List (List Bytes) → Option U → Option (List (List Bytes) × Option U)
  | [], aSlot, r2 => some (aSlot, r2)
  | p :: pNext, aSlot, r2 => do
    let (aSlot, r2) ← slotLoop db [p] aSlot r2
    recordLoop pNext aSlot r2

def finalLoop (p : List Bytes) : List (List Bytes) → Option U → Option (List Bytes × Option U)
  | [], r2 => some (p, r2)
  | slot :: aSlot, r2 => do
    let (p, r2) ← vdbeSorterMerge db p slot r2
    finalLoop p aSlot r2

def vdbeSorterSort (s : VdbeSorter U) : Option (VdbeSorter U) := do
  let (aSlot, r2) ← recordLoop db s.pRecord (List.replicate 64 []) s.pUnpacked
  let (pRecord, pUnpacked) ← finalLoop db [] aSlot r2
  some { s with pRecord, pUnpacked }

/-- The records of a run, each with its size before it. -/
def writeRecords (writer : FileWriter) : List Bytes → Option FileWriter
  | [] => some writer
  | p :: pNext => do
    let writer ← fileWriterWriteVarint writer p.length
    let writer ← fileWriterWrite writer p
    writeRecords writer pNext

def vdbeSorterListToPMA (s : VdbeSorter U) : Option (VdbeSorter U) :=
  if s.nInMemory = 0 then some s
  else do
    let s ← vdbeSorterSort db s
    let writer := fileWriterInit db.raw db.pageSize (s.pTemp1.getD []) s.iWriteOff
    let writer ← fileWriterWriteVarint writer s.nInMemory
    let writer ← writeRecords writer s.pRecord
    let (pTemp1, iWriteOff) ← fileWriterFinish writer
    some { s with pTemp1 := some pTemp1, iWriteOff, nPMA := s.nPMA + 1, pRecord := [] }

/-- `nearlyFull` is what `sqlite3HeapNearlyFull` returns. -/
def sqlite3VdbeSorterWrite (s : VdbeSorter U) (pVal : Bytes) (nearlyFull : Bool) : Option (VdbeSorter U) :=
  let s := { s with
    nInMemory := s.nInMemory + (sqlite3VarintLen pVal.length + pVal.length)
    pRecord := pVal :: s.pRecord }
  if 0 < s.mxPmaSize ∧ (s.mxPmaSize < s.nInMemory ∨ s.mnPmaSize < s.nInMemory ∧ nearlyFull) then do
    let s ← vdbeSorterListToPMA db s
    some { s with nInMemory := 0 }
  else some s

def vdbeSorterDoCompare (s : VdbeSorter U) (iOut : ℕ) : Option (VdbeSorter U) := do
  let (i1, i2) ← (if s.nTree / 2 ≤ iOut then some ((iOut - s.nTree / 2) * 2, (iOut - s.nTree / 2) * 2 + 1)
    else do some (← s.aTree[iOut * 2]?, ← s.aTree[iOut * 2 + 1]?))
  let p1 ← s.aIter[i1]?
  let p2 ← s.aIter[i2]?
  if !p1.pFile then some { s with aTree := s.aTree.set iOut i2 }
  else if !p2.pFile then some { s with aTree := s.aTree.set iOut i1 }
  else
    let (res, r2) ← vdbeSorterCompare db s.pUnpacked (← p1.key) (some (← p2.key))
    some { s with pUnpacked := some r2, aTree := s.aTree.set iOut (if res ≤ 0 then i1 else i2) }

/-- The loop over the iterators of `vdbeSorterInitMerge`, with `n` of them left. -/
def initLoop : ℕ → ℕ → VdbeSorter U → ℕ → Option (VdbeSorter U × ℕ)
  | 0, _, s, nByte => some (s, nByte)
  | n + 1, i, s, nByte => do
    let (pIter, nByte) ← vdbeSorterIterInit db.raw (s.pTemp1.getD []) db.pageSize s.iWriteOff s.iReadOff nByte
    if s.aIter.length ≤ i then none
    else
      let s := { s with aIter := s.aIter.set i pIter, iReadOff := pIter.iEof }
      if s.iWriteOff ≤ s.iReadOff then some (s, nByte) else initLoop n (i + 1) s nByte

/-- The comparisons at the nodes from `i` down to 1. -/
def treeLoop : ℕ → VdbeSorter U → Option (VdbeSorter U)
  | 0, s => some s
  | i + 1, s => do treeLoop i (← vdbeSorterDoCompare db s (i + 1))

def vdbeSorterInitMerge (s : VdbeSorter U) : Option (VdbeSorter U × ℕ) := do
  let (s, nByte) ← initLoop db SORTER_MAX_MERGE_COUNT 0 s 0
  some (← treeLoop db (s.nTree - 1) s, nByte)

/-- The comparisons at `i` and the nodes above it. -/
def pathLoop (i : ℕ) (s : VdbeSorter U) : Option (VdbeSorter U) :=
  if i = 0 then some s else do pathLoop (i / 2) (← vdbeSorterDoCompare db s i)
  termination_by i

/-- The iterator at the root of the tree. -/
def VdbeSorter.least (s : VdbeSorter U) : Option VdbeSorterIter := do s.aIter[← s.aTree[1]?]?

/-- The sorter, and whether it has no more records. -/
def sqlite3VdbeSorterNext (s : VdbeSorter U) : Option (VdbeSorter U × Bool) :=
  if s.aTree ≠ [] then do
    let iPrev ← s.aTree[1]?
    let pIter ← vdbeSorterIterNext db.raw (s.pTemp1.getD []) (← s.aIter[iPrev]?)
    let s ← pathLoop db ((s.nTree + iPrev) / 2) { s with aIter := s.aIter.set iPrev pIter }
    some (s, !(← s.least).pFile)
  else
    match s.pRecord with
    | [] => none
    | _ :: pRecord => some ({ s with pRecord }, pRecord.isEmpty)

def vdbeSorterRowkey (s : VdbeSorter U) : Option Bytes :=
  if s.aTree ≠ [] then do (← s.least).key else s.pRecord.head?

/-- The loop that writes the merged run, for `n` records at most. -/
def mergedLoop : ℕ → VdbeSorter U → FileWriter → Option (VdbeSorter U × FileWriter)
  | 0, _, _ => none
  | n + 1, s, writer => do
    let pIter ← s.least
    let writer ← fileWriterWriteVarint writer pIter.nKey
    let writer ← fileWriterWrite writer (← pIter.key)
    let (s, bEof) ← sqlite3VdbeSorterNext db s
    if bEof then some (s, writer) else mergedLoop n s writer

/-- The second temporary file, and what is written of it. -/
structure Temp2 where
  pTemp2 : Bytes
  iWrite2 : ℕ

/-- The merges of a pass from the `iNew`th on, and the number of new runs; none if the runs of the file are merged
as the records are asked for. `n` bounds the rounds. -/
def passLoop : ℕ → ℕ → VdbeSorter U → Temp2 → Option (VdbeSorter U × Option (Temp2 × ℕ))
  | 0, _, _, _ => none
  | n + 1, iNew, s, t =>
    if iNew * SORTER_MAX_MERGE_COUNT < s.nPMA then do
      let (s, nWrite) ← vdbeSorterInitMerge db s
      if s.nPMA ≤ SORTER_MAX_MERGE_COUNT then some (s, none)
      else
        let writer := fileWriterInit db.raw db.pageSize t.pTemp2 t.iWrite2
        let writer ← fileWriterWriteVarint writer nWrite
        let (s, writer) ← mergedLoop db s.iWriteOff s writer
        let (pTemp2, iWrite2) ← fileWriterFinish writer
        passLoop n (iNew + 1) s { pTemp2, iWrite2 }
    else some (s, some (t, iNew))

/-- The passes over the runs; after each one the files change places. -/
def mergeLoops : ℕ → VdbeSorter U → Bytes → Option (VdbeSorter U)
  | 0, _, _ => none
  | n + 1, s, pTemp2 => do
    match ← passLoop db (s.nPMA + 1) 0 s { pTemp2, iWrite2 := 0 } with
    | (s, none) => some s
    | (s, some (t, iNew)) =>
      mergeLoops n { s with nPMA := iNew, pTemp1 := some t.pTemp2, iWriteOff := t.iWrite2, iReadOff := 0 }
        (s.pTemp1.getD [])

/-- The least power of two from `N` on that is not below `nIter`. -/
def treeSize (nIter : ℕ) : ℕ → ℕ → Option ℕ
  | 0, _ => none
  | n + 1, N => if N < nIter then treeSize nIter n (N + N) else some N

def sqlite3VdbeSorterRewind (s : VdbeSorter U) : Option (VdbeSorter U × Bool) :=
  if s.nPMA = 0 then do some (← vdbeSorterSort db s, s.pRecord.isEmpty)
  else do
    let s ← vdbeSorterListToPMA db s
    let N ← treeSize (min s.nPMA SORTER_MAX_MERGE_COUNT) SORTER_MAX_MERGE_COUNT 2
    let s := { s with
      aIter := List.replicate N .vdbeSorterIterZero
      aTree := List.replicate N 0
      nTree := N }
    let s ← mergeLoops db s.nPMA s []
    some (s, !(← s.least).pFile)

end

end Sqlite.Sorter
