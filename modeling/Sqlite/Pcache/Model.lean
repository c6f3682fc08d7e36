import Mathlib.Data.Finset.Card
import Mathlib.Data.Int.Basic
import Sqlite.Pcache.Sort

/-! The page cache layer above the pluggable cache: page headers with their flags and reference
counts, and the doubly linked list of dirty pages. Pointers to headers are numbers. A result `none`
is a walk along the list that does not end. -/
namespace Sqlite.Pcache

inductive Rc
  | SQLITE_OK
  | SQLITE_BUSY
  | SQLITE_NOMEM
  | SQLITE_IOERR
  deriving DecidableEq

/-- The value that is stored into a 16-bit signed integer. -/
def i16 (x : ℤ) : ℤ := (x + 32768) % 65536 - 32768

/-- `pPage` tells whether the header has been initialized. The flags are `PGHDR_DIRTY`,
`PGHDR_NEED_SYNC` and `PGHDR_DONT_WRITE`. -/
structure PgHdr where
  pPage : Bool
  pgno : ℕ
  dirty : Bool
  needSync : Bool
  dontWrite : Bool
  nRef : ℤ

/-- `held`, `pinned` and `iKey` belong to the pluggable cache: its pages, those that it may not
discard, and their keys. `pCache` tells whether it exists. -/
structure PCache where
  pDirty : Option ℕ
  pDirtyTail : Option ℕ
  pSynced : Option ℕ
  nRef : ℤ
  bPurgeable : Bool
  pCache : Bool
  pPage1 : Option ℕ
  pg : ℕ → PgHdr
  pDirtyNext : ℕ → Option ℕ
  pDirtyPrev : ℕ → Option ℕ
  pgDirty : ℕ → Option ℕ
  held : Finset ℕ
  pinned : Finset ℕ
  iKey : ℕ → ℕ

variable (s : PCache)

def setPg (p : ℕ) (h : PgHdr) : PCache := { s with pg := Function.update s.pg p h }

/-- The loops that follow `pDirtyPrev` past pages to skip, for at most `n` pages. -/
def skipBack (skip : PgHdr → Bool) : ℕ → Option ℕ → Option (Option ℕ)
  | _, none => some none
  | 0, some _ => none
  | n + 1, some p => if skip (s.pg p) then skipBack skip n (s.pDirtyPrev p) else some (some p)

def pcacheRemoveFromDirtyList (pPage : ℕ) : Option PCache :=
  let synced := if s.pSynced = some pPage then
      skipBack s (fun h => h.needSync) s.held.card (s.pDirtyPrev pPage)
    else some s.pSynced
  match synced with
  | none => none
  | some pSynced =>
    let s := { s with pSynced := pSynced }
    let s := match s.pDirtyNext pPage with
      | some r => { s with pDirtyPrev := Function.update s.pDirtyPrev r (s.pDirtyPrev pPage) }
      | none => { s with pDirtyTail := s.pDirtyPrev pPage }
    let s := match s.pDirtyPrev pPage with
      | some q => { s with pDirtyNext := Function.update s.pDirtyNext q (s.pDirtyNext pPage) }
      | none => { s with pDirty := s.pDirtyNext pPage }
    some { s with
      pDirtyNext := Function.update s.pDirtyNext pPage none
      pDirtyPrev := Function.update s.pDirtyPrev pPage none }

def pcacheAddToDirtyList (pPage : ℕ) : PCache :=
  let pDirtyPrev := match s.pDirty with
    | some r => Function.update s.pDirtyPrev r (some pPage)
    | none => s.pDirtyPrev
  { s with
    pDirtyNext := Function.update s.pDirtyNext pPage s.pDirty
    pDirtyPrev := pDirtyPrev
    pDirty := some pPage
    pDirtyTail := if s.pDirtyTail = none then some pPage else s.pDirtyTail
    pSynced := if s.pSynced = none ∧ (s.pg pPage).needSync = false then some pPage else s.pSynced }

def pcacheUnpin (p : ℕ) : PCache :=
  if s.bPurgeable then
    let s := if (s.pg p).pgno = 1 then { s with pPage1 := none } else s
    { s with pinned := s.pinned.erase p }
  else s

def sqlite3PcacheRelease (p : ℕ) : Option PCache :=
  let s := setPg s p { s.pg p with nRef := i16 ((s.pg p).nRef - 1) }
  if (s.pg p).nRef = 0 then
    let s := { s with nRef := s.nRef - 1 }
    if (s.pg p).dirty = false then some (pcacheUnpin s p)
    else
      match pcacheRemoveFromDirtyList s p with
      | none => none
      | some s => some (pcacheAddToDirtyList s p)
  else some s

def sqlite3PcacheRef (p : ℕ) : PCache :=
  setPg s p { s.pg p with nRef := i16 ((s.pg p).nRef + 1) }

def sqlite3PcacheDrop (p : ℕ) : Option PCache :=
  let r := if (s.pg p).dirty then pcacheRemoveFromDirtyList s p else some s
  match r with
  | none => none
  | some s =>
    some { s with
      nRef := s.nRef - 1
      pPage1 := if (s.pg p).pgno = 1 then none else s.pPage1
      held := s.held.erase p
      pinned := s.pinned.erase p }

def sqlite3PcacheMakeDirty (p : ℕ) : PCache :=
  let s := setPg s p { s.pg p with dontWrite := false }
  if (s.pg p).dirty = false then
    let s := setPg s p { s.pg p with dirty := true }
    pcacheAddToDirtyList s p
  else s

def sqlite3PcacheMakeClean (p : ℕ) : Option PCache :=
  if (s.pg p).dirty then
    match pcacheRemoveFromDirtyList s p with
    | none => none
    | some s =>
      let s := setPg s p { s.pg p with dirty := false, needSync := false }
      if (s.pg p).nRef = 0 then some (pcacheUnpin s p) else some s
  else some s

/-- The loop of `sqlite3PcacheCleanAll`, for at most `n` pages. -/
def cleanAllLoop : ℕ → PCache → Option PCache
  | n, s =>
    match s.pDirty with
    | none => some s
    | some p =>
      match n with
      | 0 => none
      | n + 1 =>
        match sqlite3PcacheMakeClean s p with
        | none => none
        | some s => cleanAllLoop n s

def sqlite3PcacheCleanAll : Option PCache := cleanAllLoop s.held.card s

/-- The loop of `sqlite3PcacheClearSyncFlags`, for at most `n` pages. -/
def clearSyncLoop : ℕ → Option ℕ → PCache → Option PCache
  | _, none, s => some s
  | 0, some _, _ => none
  | n + 1, some p, s =>
    let s := setPg s p { s.pg p with needSync := false }
    clearSyncLoop n (s.pDirtyNext p) s

def sqlite3PcacheClearSyncFlags : Option PCache :=
  match clearSyncLoop s.held.card s.pDirty s with
  | none => none
  | some s => some { s with pSynced := s.pDirtyTail }

def sqlite3PcacheMove (p newPgno : ℕ) : Option PCache :=
  let s := { s with iKey := Function.update s.iKey p newPgno }
  let s := setPg s p { s.pg p with pgno := newPgno }
  if (s.pg p).dirty = true ∧ (s.pg p).needSync = true then
    match pcacheRemoveFromDirtyList s p with
    | none => none
    | some s => some (pcacheAddToDirtyList s p)
  else some s

/-- The loop of `sqlite3PcacheTruncate`, for at most `n` pages. -/
def truncateLoop (pgno : ℕ) : ℕ → Option ℕ → PCache → Option PCache
  | _, none, s => some s
  | 0, some _, _ => none
  | n + 1, some p, s =>
    let pNext := s.pDirtyNext p
    if pgno < (s.pg p).pgno then
      match sqlite3PcacheMakeClean s p with
      | none => none
      | some s => truncateLoop pgno n pNext s
    else truncateLoop pgno n pNext s

/-- The content of page 1, which is zeroed when that page stays, is not modelled. -/
def sqlite3PcacheTruncate (pgno : ℕ) : Option PCache :=
  if s.pCache then
    match truncateLoop pgno s.held.card s.pDirty s with
    | none => none
    | some s =>
      let pgno := if pgno = 0 ∧ s.pPage1.isSome then 1 else pgno
      some { s with
        held := s.held.filter (fun p => s.iKey p < pgno + 1)
        pinned := s.pinned.filter (fun p => s.iKey p < pgno + 1) }
  else some s

/-- The loop of `sqlite3PcacheDirtyList` that copies the links, for at most `n` pages. -/
def copyLoop (pDirtyNext : ℕ → Option ℕ) : ℕ → Option ℕ → (ℕ → Option ℕ) → Option (ℕ → Option ℕ)
  | _, none, pgDirty => some pgDirty
  | 0, some _, _ => none
  | n + 1, some p, pgDirty =>
    copyLoop pDirtyNext n (pDirtyNext p) (Function.update pgDirty p (pDirtyNext p))

def sqlite3PcacheDirtyList : Option (Option ℕ × PCache) := do
  let pgDirty ← copyLoop s.pDirtyNext s.held.card s.pDirty s.pgDirty
  let r ← pcacheSortDirtyList (fun p => (s.pg p).pgno) s.held.card pgDirty s.pDirty
  some (r.2, { s with pgDirty := r.1 })

/-- The first page to spill: an unreferenced one that needs no sync, or else any unreferenced. -/
def spillPage : Option (Option ℕ × PCache) :=
  match skipBack s (fun h => h.nRef ≠ 0 ∨ h.needSync) s.held.card s.pSynced with
  | none => none
  | some pPg =>
    let s := { s with pSynced := pPg }
    match pPg with
    | some p => some (some p, s)
    | none =>
      match skipBack s (fun h => h.nRef ≠ 0) s.held.card s.pDirtyTail with
      | none => none
      | some p => some (p, s)

/-- What `xFetch` of the pluggable cache does: the unpinned pages it discards, and its result. -/
structure XFetch where
  drop : Finset ℕ
  page : Option ℕ

/-- A page that was not in the cache comes with a header that is not initialized. -/
def xFetch (key : ℕ) (x : XFetch) : PCache :=
  let s := { s with held := s.held \ x.drop }
  match x.page with
  | none => s
  | some p =>
    if p ∈ s.held then { s with pinned := insert p s.pinned }
    else
      setPg { s with
        held := insert p s.held
        pinned := insert p s.pinned
        iKey := Function.update s.iKey p key } p { s.pg p with pPage := false }

/-- The header of a new page is set up. -/
def initHeader (pgno p : ℕ) : PCache :=
  if (s.pg p).pPage then s
  else
    setPg { s with
      pDirtyNext := Function.update s.pDirtyNext p none
      pDirtyPrev := Function.update s.pDirtyPrev p none
      pgDirty := Function.update s.pgDirty p none } p ⟨true, pgno, false, false, false, 0⟩

/-- The end of `sqlite3PcacheFetch`, when it has got a page. -/
def takeRef (pgno p : ℕ) : PCache :=
  let s := initHeader s pgno p
  setPg { s with
    nRef := if (s.pg p).nRef = 0 then s.nRef + 1 else s.nRef
    pPage1 := if pgno = 1 then some p else s.pPage1 } p { s.pg p with nRef := i16 ((s.pg p).nRef + 1) }

end Sqlite.Pcache
