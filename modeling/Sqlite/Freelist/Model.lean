import Sqlite.Foundation.Bytes

/-! The list of unused pages: trunk pages in a chain, each with the numbers of some leaves. Pages
are what the page cache has of them. -/
namespace Sqlite.Freelist
open Sqlite.Foundation

inductive Rc
  | SQLITE_OK
  | SQLITE_CORRUPT
  | SQLITE_FULL
  deriving DecidableEq

abbrev Pages := ℕ → ℕ → UInt8

def PENDING_BYTE : ℕ := 0x40000000

/-- What of the shared b-tree stays as it is. -/
structure Config where
  pageSize : ℕ
  usableSize : ℕ
  autoVacuum : Bool
  /-- The flag `BTS_SECURE_DELETE`. -/
  secureDelete : Bool
  mxPgno : ℕ
  pageSize_le : pageSize ≤ 65536
  usableSize_ge : 480 ≤ usableSize
  usableSize_le : usableSize ≤ pageSize
  mxPgno_le : mxPgno < 2 ^ 31

/-- Pages of 1024 bytes, with a pointer-map. -/
def smallConfig : Config where
  pageSize := 1024
  usableSize := 1024
  autoVacuum := true
  secureDelete := false
  mxPgno := 1073741823
  pageSize_le := by decide
  usableSize_ge := by decide
  usableSize_le := by decide
  mxPgno_le := by decide

/-- The shared b-tree. The bits of `pHasContent` go up to its first component. -/
structure BtShared where
  page : Pages
  nPage : ℕ
  pHasContent : Option (ℕ × (ℕ → Bool)) := none

def get4byte (p : Pages) (pgno a : ℕ) : ℕ := getBE (p pgno) a

def put4byte (p : Pages) (pgno a v : ℕ) : Pages := Function.update p pgno (putBE (p pgno) a v)

def PTRMAP_FREEPAGE : ℕ := 2

/-- The five bytes of an entry of a pointer-map page. -/
def putEntry (p : Pages) (iPtrmap offset eType parent : ℕ) : Pages :=
  let q : Pages :=
    Function.update p iPtrmap (Function.update (p iPtrmap) offset (.ofNat eType))
  put4byte q iPtrmap (offset + 1) parent

section
variable (c : Config)

def PENDING_BYTE_PAGE : ℕ := PENDING_BYTE / c.pageSize + 1

def ptrmapPageno (pgno : ℕ) : ℕ :=
  if pgno < 2 then 0
  else
    let nPagesPerMapPage := c.usableSize / 5 + 1
    let ret := (pgno - 2) / nPagesPerMapPage * nPagesPerMapPage + 2
    if ret = PENDING_BYTE_PAGE c then ret + 1 else ret

def PTRMAP_ISPAGE (pgno : ℕ) : Bool := ptrmapPageno c pgno = pgno

/-- Where the entry of a page is on its pointer-map page. -/
def PTRMAP_PTROFFSET (pgptrmap pgno : ℕ) : ℤ := 5 * ((pgno : ℤ) - pgptrmap - 1)

/-- A page with its content, or zeros for `noContent`. -/
def btreeGetPage (s : BtShared) (pgno : ℕ) (noContent : Bool) : Rc × BtShared :=
  if pgno = 0 ∨ pgno = PENDING_BYTE_PAGE c then (.SQLITE_CORRUPT, s)
  else if noContent then
    if c.mxPgno < pgno then (.SQLITE_FULL, s)
    else (.SQLITE_OK, { s with page := Function.update s.page pgno fun _ => 0 })
  else (.SQLITE_OK, s)

/-- The entry of a page: its type and its parent. -/
def ptrmapGet (s : BtShared) (key : ℕ) : Rc × ℕ × ℕ :=
  let iPtrmap := ptrmapPageno c key
  let offset := PTRMAP_PTROFFSET iPtrmap key
  if iPtrmap = 0 ∨ offset < 0 then (.SQLITE_CORRUPT, 0, 0)
  else
    let eType := (s.page iPtrmap offset.toNat).toNat
    (if eType < 1 ∨ 5 < eType then .SQLITE_CORRUPT else .SQLITE_OK, eType,
      get4byte s.page iPtrmap (offset.toNat + 1))

def ptrmapPut (s : BtShared) (key eType parent : ℕ) : Rc × BtShared :=
  let iPtrmap := ptrmapPageno c key
  let offset := PTRMAP_PTROFFSET iPtrmap key
  if key = 0 ∨ iPtrmap = 0 ∨ offset < 0 then (.SQLITE_CORRUPT, s)
  else (.SQLITE_OK, { s with page := putEntry s.page iPtrmap offset.toNat eType parent })

def btreeSetHasContent (s : BtShared) (pgno : ℕ) : BtShared :=
  let p := s.pHasContent.getD (s.nPage, fun _ => false)
  { s with pHasContent := some (p.1, if pgno ≤ p.1 then Function.update p.2 pgno true else p.2) }

def btreeGetHasContent (s : BtShared) (pgno : ℕ) : Bool :=
  match s.pHasContent with
  | none => false
  | some p => p.1 < pgno ∨ p.2 pgno

/-- The distance of two page numbers, as the absolute value of a difference of thirty-two bits. -/
def sqlite3AbsInt32 (x : ℤ) : ℕ :=
  let y := Int.bmod x (2 ^ 32)
  if y = -2 ^ 31 then 0x7fffffff else y.natAbs

/-- The leaf of a trunk that is nearest to a page: the loop from `i` on, with `n` to go. -/
def closestLoop (leaf : ℕ → ℕ) (nearby : ℕ) : ℕ → ℕ → ℕ → ℕ → ℕ
  | 0, _, closest, _ => closest
  | n + 1, i, closest, dist =>
    let d2 := sqlite3AbsInt32 ((leaf i : ℤ) - nearby)
    if d2 < dist then closestLoop leaf nearby n (i + 1) i d2
    else closestLoop leaf nearby n (i + 1) closest dist

def closestLeaf (leaf : ℕ → ℕ) (k nearby : ℕ) : ℕ :=
  if 0 < nearby then
    closestLoop leaf nearby (k - 1) 1 0 (sqlite3AbsInt32 ((leaf 0 : ℤ) - nearby))
  else 0

/-- The entry `i` of a trunk page. -/
def leafAt (p : Pages) (iTrunk i : ℕ) : ℕ := get4byte p iTrunk (8 + i * 4)

/-- The pointer to a trunk: in the trunk before it, or on page 1. -/
def putLink (p : Pages) (prev : Option ℕ) (v : ℕ) : Pages :=
  match prev with
  | none => put4byte p 1 32 v
  | some t => put4byte p t 0 v

/-- The first leaf of a trunk with `k` leaves becomes the trunk of the others. -/
def promote (p : Pages) (iTrunk iNewTrunk k : ℕ) : Pages :=
  let p1 : Pages := put4byte p iNewTrunk 0 (get4byte p iTrunk 0)
  let p2 : Pages := put4byte p1 iNewTrunk 4 (k - 1)
  Function.update p2 iNewTrunk fun x =>
    if 8 ≤ x ∧ x < 8 + (k - 1) * 4 then p iTrunk (x + 4) else p2 iNewTrunk x

/-- A leaf leaves its trunk: the last entry takes its place. -/
def takeLeaf (p : Pages) (iTrunk closest k : ℕ) : Pages :=
  let p1 : Pages :=
    if closest < k - 1 then put4byte p iTrunk (8 + closest * 4) (get4byte p iTrunk (4 + k * 4))
    else p
  put4byte p1 iTrunk 4 (k - 1)

/-- What a call gives back: its code, the page number and the new state. -/
abbrev Result := Rc × ℕ × BtShared

/-- The search along the trunks; `prev` is the trunk before. -/
def allocateLoop (mxPage nearby : ℕ) (searchList : Bool) :
    ℕ → Option ℕ → BtShared → Option Result
  | 0, _, _ => none
  | n + 1, prev, s =>
    let iTrunk :=
      match prev with
      | none => get4byte s.page 1 32
      | some t => get4byte s.page t 0
    if mxPage < iTrunk ∨ (btreeGetPage c s iTrunk false).1 ≠ .SQLITE_OK then
      some (.SQLITE_CORRUPT, 0, s)
    else
      let k := get4byte s.page iTrunk 4
      if k = 0 ∧ ¬ searchList then
        -- the trunk has no leaves and is taken itself
        some (.SQLITE_OK, iTrunk, { s with page := put4byte s.page 1 32 (get4byte s.page iTrunk 0) })
      else if c.usableSize / 4 - 2 < k then some (.SQLITE_CORRUPT, 0, s)
      else if searchList ∧ nearby = iTrunk then
        if k = 0 then
          some (.SQLITE_OK, iTrunk,
            { s with page := putLink s.page prev (get4byte s.page iTrunk 0) })
        else
          let iNewTrunk := leafAt s.page iTrunk 0
          if mxPage < iNewTrunk ∨ (btreeGetPage c s iNewTrunk false).1 ≠ .SQLITE_OK then
            some (.SQLITE_CORRUPT, 0, s)
          else
            some (.SQLITE_OK, iTrunk,
              { s with page := putLink (promote s.page iTrunk iNewTrunk k) prev iNewTrunk })
      else if 0 < k then
        let closest := closestLeaf (leafAt s.page iTrunk) k nearby
        let iPage := leafAt s.page iTrunk closest
        if mxPage < iPage then some (.SQLITE_CORRUPT, 0, s)
        else if ¬ searchList ∨ iPage = nearby then
          let s1 := { s with page := takeLeaf s.page iTrunk closest k }
          let r := btreeGetPage c s1 iPage (! btreeGetHasContent s1 iPage)
          some (r.1, iPage, r.2)
        else allocateLoop mxPage nearby searchList n (some iTrunk) s
      else allocateLoop mxPage nearby searchList n (some iTrunk) s

/-- The next page number at the end of the file. -/
def nextPage (n : ℕ) : ℕ := if n + 1 = PENDING_BYTE_PAGE c then n + 2 else n + 1

/-- There is no unused page: the file grows. -/
def allocateAtEnd (s : BtShared) : Result :=
  let n1 := nextPage c s.nPage
  let s1 := { s with nPage := n1 }
  if c.autoVacuum ∧ PTRMAP_ISPAGE c n1 then
    let r := btreeGetPage c s1 n1 true
    if r.1 ≠ .SQLITE_OK then (r.1, 0, r.2)
    else
      let n2 := nextPage c n1
      let s2 := { r.2 with nPage := n2, page := put4byte r.2.page 1 28 n2 }
      let r2 := btreeGetPage c s2 n2 true
      (r2.1, n2, r2.2)
  else
    let s2 := { s1 with page := put4byte s1.page 1 28 n1 }
    let r2 := btreeGetPage c s2 n1 true
    (r2.1, n1, r2.2)

/-- The result is `none` where an assertion fails. -/
def allocateBtreePage (s : BtShared) (nearby : ℕ) (exact : Bool) : Option Result :=
  let mxPage := s.nPage
  let n := get4byte s.page 1 36
  if mxPage ≤ n then some (.SQLITE_CORRUPT, 0, s)
  else if 0 < n then
    let s1 := { s with page := put4byte s.page 1 36 (n - 1) }
    if exact ∧ nearby ≤ mxPage then
      if nearby = 0 ∨ ¬ c.autoVacuum then none
      else
        let r := ptrmapGet c s nearby
        if r.1 ≠ .SQLITE_OK then some (r.1, 0, s)
        else allocateLoop c mxPage nearby (r.2.1 = PTRMAP_FREEPAGE) (mxPage + 1) none s1
    else allocateLoop c mxPage nearby false (mxPage + 1) none s1
  else some (allocateAtEnd c s)

/-- The page is counted as unused, cleared if that is asked for, and marked in the pointer-map. -/
def markFree (s : BtShared) (iPage : ℕ) : Rc × BtShared :=
  let p : Pages := put4byte s.page 1 36 (get4byte s.page 1 36 + 1)
  let q : Pages := if c.secureDelete then Function.update p iPage fun _ => 0 else p
  let s1 := { s with page := q }
  if c.autoVacuum then ptrmapPut c s1 iPage PTRMAP_FREEPAGE 0 else (.SQLITE_OK, s1)

/-- With `nFree` other unused pages the page becomes a leaf of the first trunk, or a new trunk. -/
def linkFree (s : BtShared) (nFree iPage : ℕ) : Rc × BtShared :=
  let iTrunk := if nFree ≠ 0 then get4byte s.page 1 32 else 0
  let nLeaf := get4byte s.page iTrunk 4
  if nFree ≠ 0 ∧ (btreeGetPage c s iTrunk false).1 ≠ .SQLITE_OK then (.SQLITE_CORRUPT, s)
  else if nFree ≠ 0 ∧ c.usableSize / 4 - 2 < nLeaf then (.SQLITE_CORRUPT, s)
  else if nFree ≠ 0 ∧ nLeaf < c.usableSize / 4 - 8 then
    let p : Pages := put4byte s.page iTrunk 4 (nLeaf + 1)
    let s1 := { s with page := put4byte p iTrunk (8 + nLeaf * 4) iPage }
    (.SQLITE_OK, btreeSetHasContent s1 iPage)
  else if (btreeGetPage c s iPage false).1 ≠ .SQLITE_OK then (.SQLITE_CORRUPT, s)
  else
    let p : Pages := put4byte s.page iPage 0 iTrunk
    let q : Pages := put4byte p iPage 4 0
    (.SQLITE_OK, { s with page := put4byte q 1 32 iPage })

def freePage2 (s : BtShared) (iPage : ℕ) : Rc × BtShared :=
  let r := markFree c s iPage
  if r.1 ≠ .SQLITE_OK then r else linkFree c r.2 (get4byte s.page 1 36) iPage

end

end Sqlite.Freelist
