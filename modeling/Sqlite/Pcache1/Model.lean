import Mathlib.Data.Finset.Card
import Sqlite.Foundation.Loop

/-! The page cache of pcache1.c: the caches of one group, which recycle each other's unpinned
pages. Addresses are numbers, `none` is the null pointer, and the fields of `PgHdr1` are maps from
addresses. Counters are the source's 32-bit unsigned integers. -/
namespace Sqlite.Pcache1
open Foundation

structure PGroup where
  nMaxPage : UInt32
  nMinPage : UInt32
  mxPinned : UInt32
  nCurrentPage : UInt32
  pLruHead : Option ℕ
  pLruTail : Option ℕ

/-- `apHash` is allocated exactly when `nHash` is not 0. -/
structure PCache1 where
  szPage : ℕ
  szExtra : ℕ
  bPurgeable : Bool
  nMin : UInt32
  nMax : UInt32
  n90pct : UInt32
  iMaxKey : UInt32
  nRecyclable : UInt32
  nPage : UInt32
  nHash : UInt32
  apHash : ℕ → Option ℕ

/-- `pages` and `caches` are the addresses allocated for page headers and for caches. -/
structure State where
  grp : PGroup
  iKey : ℕ → UInt32
  pNext : ℕ → Option ℕ
  pCache : ℕ → ℕ
  pLruNext : ℕ → Option ℕ
  pLruPrev : ℕ → Option ℕ
  cache : ℕ → PCache1
  pages : Finset ℕ
  caches : Finset ℕ

/-- What the surroundings decide during one `pcache1Fetch`: whether the heap is short of memory
at either question, whether the hash table can be allocated, and where a page is, if anywhere. -/
structure Env where
  pressure₁ : Bool
  pressure₂ : Bool
  hashMem : Bool
  pageMem : Finset ℕ → Option ℕ
  fresh : ∀ S a, pageMem S = some a → a ∉ S

namespace State
variable (s : State)

def setCache (c : ℕ) (p : PCache1) : State := { s with cache := Function.update s.cache c p }

def setGrp (g : PGroup) : State := { s with grp := g }

/-- The number of rounds that suffices for every walk along a chain. -/
def fuel : ℕ := s.pages.card + 1

def slot (nHash : UInt32) (a : ℕ) : ℕ := (s.iKey a % nHash).toNat

/-- The pointer a cursor of a hash chain stands on: `&apHash[h]` or `&pPage->pNext`. -/
def deref (c h : ℕ) : Option ℕ → Option ℕ
  | none => (s.cache c).apHash h
  | some a => s.pNext a

def assign (c h : ℕ) (pp v : Option ℕ) : State :=
  match pp with
  | none => s.setCache c { s.cache c with apHash := Function.update (s.cache c).apHash h v }
  | some a => { s with pNext := Function.update s.pNext a v }

end State

open State

def pcache1AllocPage (s : State) (c : ℕ) (mem : Finset ℕ → Option ℕ) : State × Option ℕ :=
  match mem s.pages with
  | none => (s, none)
  | some p =>
    let s := { s with pages := insert p s.pages }
    if (s.cache c).bPurgeable then
      (s.setGrp { s.grp with nCurrentPage := s.grp.nCurrentPage + 1 }, some p)
    else (s, some p)

def pcache1FreePage (s : State) (p : ℕ) : State :=
  let s := { s with pages := s.pages.erase p }
  if (s.cache (s.pCache p)).bPurgeable then
    s.setGrp { s.grp with nCurrentPage := s.grp.nCurrentPage - 1 }
  else s

/-- Move the pages of one old chain, given by its head, to the new table. -/
def rehashChain (s : State) (nNew : UInt32) (pNext : Option ℕ) (apNew : ℕ → Option ℕ) :
    Option (State × (ℕ → Option ℕ)) :=
  loop (fun (s, pNext, apNew) =>
      match pNext with
      | none => .inr (s, apNew)
      | some pPage =>
        let h := s.slot nNew pPage
        let pNext := s.pNext pPage
        .inl ({ s with pNext := Function.update s.pNext pPage (apNew h) }, pNext,
          Function.update apNew h (some pPage)))
    s.fuel (s, pNext, apNew)

/-- `for(i=0; i<p->nHash; i++)` -/
def rehash (s : State) (p : ℕ) (nNew : UInt32) : ℕ → Option (State × (ℕ → Option ℕ))
  | 0 => some (s, fun _ => none)
  | i + 1 => do
    let (s, apNew) ← rehash s p nNew i
    rehashChain s nNew ((s.cache p).apHash i) apNew

/-- The second component tells success. -/
def pcache1ResizeHash (s : State) (p : ℕ) (hashMem : Bool) : Option (State × Bool) := do
  let nNew := (s.cache p).nHash * 2
  let nNew := if nNew < 256 then 256 else nNew
  if hashMem then
    let (s, apNew) ← rehash s p nNew (s.cache p).nHash.toNat
    some (s.setCache p { s.cache p with apHash := apNew, nHash := nNew }, true)
  else some (s, decide ((s.cache p).nHash ≠ 0))

def pcache1PinPage (s : State) (pPage : ℕ) : State :=
  if s.pLruNext pPage ≠ none ∨ s.grp.pLruTail = some pPage then
    let next := s.pLruNext pPage
    let prev := s.pLruPrev pPage
    let s := match prev with
      | some q => { s with pLruNext := Function.update s.pLruNext q next }
      | none => s
    let s := match next with
      | some q => { s with pLruPrev := Function.update s.pLruPrev q prev }
      | none => s
    let s := if s.grp.pLruHead = some pPage then s.setGrp { s.grp with pLruHead := next } else s
    let s := if s.grp.pLruTail = some pPage then s.setGrp { s.grp with pLruTail := prev } else s
    let s := { s with
      pLruNext := Function.update s.pLruNext pPage none
      pLruPrev := Function.update s.pLruPrev pPage none }
    let c := s.pCache pPage
    s.setCache c { s.cache c with nRecyclable := (s.cache c).nRecyclable - 1 }
  else s

def pcache1RemoveFromHash (s : State) (pPage : ℕ) : Option State := do
  let c := s.pCache pPage
  let h := s.slot (s.cache c).nHash pPage
  let pp ← loop (fun pp => if s.deref c h pp ≠ some pPage then .inl (s.deref c h pp) else .inr pp)
    s.fuel none
  let s := s.assign c h pp (s.pNext pPage)
  some (s.setCache c { s.cache c with nPage := (s.cache c).nPage - 1 })

/-- One round of `pcache1EnforceMaxPage`; `none` stands for a walk that did not end. -/
def enforceRound : Option State → Option State ⊕ Option State
  | none => .inr none
  | some s =>
    match s.grp.pLruTail with
    | none => .inr (some s)
    | some p =>
      if s.grp.nMaxPage < s.grp.nCurrentPage then
        .inl ((pcache1RemoveFromHash (pcache1PinPage s p) p).map (pcache1FreePage · p))
      else .inr (some s)

def pcache1EnforceMaxPage (s : State) : Option State := (loop enforceRound s.fuel (some s)).join

/-- Discard the pages of chain `h` whose keys are `iLimit` or more. -/
def truncateChain (s : State) (c : ℕ) (iLimit : UInt32) (h : ℕ) : Option State :=
  loop (fun (s, pp) =>
      match s.deref c h pp with
      | none => .inr s
      | some pPage =>
        if iLimit ≤ s.iKey pPage then
          let s := s.setCache c { s.cache c with nPage := (s.cache c).nPage - 1 }
          let s := s.assign c h pp (s.pNext pPage)
          .inl (pcache1FreePage (pcache1PinPage s pPage) pPage, pp)
        else .inl (s, some pPage))
    s.fuel (s, none)

/-- The chains below `n`; called with `n = nHash`, which no round changes. -/
def truncateChains (s : State) (c : ℕ) (iLimit : UInt32) : ℕ → Option State
  | 0 => some s
  | h + 1 => do truncateChain (← truncateChains s c iLimit h) c iLimit h

def pcache1TruncateUnsafe (s : State) (c : ℕ) (iLimit : UInt32) : Option State :=
  truncateChains s c iLimit (s.cache c).nHash.toNat

def mxPinned (g : PGroup) : PGroup := { g with mxPinned := g.nMaxPage + 10 - g.nMinPage }

/-- `mem` is the address of the new cache if there is memory for it. -/
def pcache1Create (s : State) (szPage szExtra : ℕ) (bPurgeable : Bool) (mem : Option ℕ) :
    State × Option ℕ :=
  match mem with
  | none => (s, none)
  | some c =>
    let p : PCache1 :=
      { szPage := szPage, szExtra := szExtra, bPurgeable := bPurgeable
        nMin := 0, nMax := 0, n90pct := 0, iMaxKey := 0, nRecyclable := 0, nPage := 0, nHash := 0
        apHash := fun _ => none }
    let s := { s with caches := insert c s.caches }
    if bPurgeable then
      ((s.setCache c { p with nMin := 10 }).setGrp
        (mxPinned { s.grp with nMinPage := s.grp.nMinPage + 10 }), some c)
    else (s.setCache c p, some c)

/-- `nMax` is the argument as an unsigned number. -/
def pcache1Cachesize (s : State) (c : ℕ) (nMax : UInt32) : Option State :=
  let p := s.cache c
  if p.bPurgeable then
    let s := s.setGrp (mxPinned { s.grp with nMaxPage := s.grp.nMaxPage + (nMax - p.nMax) })
    pcache1EnforceMaxPage (s.setCache c { p with nMax := nMax, n90pct := nMax * 9 / 10 })
  else some s

def pcache1Shrink (s : State) (c : ℕ) : Option State := do
  if (s.cache c).bPurgeable then
    let savedMaxPage := s.grp.nMaxPage
    let s ← pcache1EnforceMaxPage (s.setGrp { s.grp with nMaxPage := 0 })
    some (s.setGrp { s.grp with nMaxPage := savedMaxPage })
  else some s

/-- The first page with key `iKey` in the chain that starts at `pPage`. -/
def findPage (s : State) (iKey : UInt32) (pPage : Option ℕ) : Option (Option ℕ) :=
  loop (fun pPage =>
      match pPage with
      | none => .inr none
      | some p => if s.iKey p ≠ iKey then .inl (s.pNext p) else .inr (some p))
    s.fuel pPage

/-- Take the tail of the LRU list for the cache `c`, or free it where it does not fit. -/
def recycle (s : State) (c pPage : ℕ) : Option (State × Option ℕ) := do
  let s ← pcache1RemoveFromHash s pPage
  let s := pcache1PinPage s pPage
  let pOther := s.cache (s.pCache pPage)
  let pCache := s.cache c
  if pOther.szPage + pOther.szExtra ≠ pCache.szPage + pCache.szExtra then
    some (pcache1FreePage s pPage, none)
  else
    let nCurrentPage :=
      s.grp.nCurrentPage - (pOther.bPurgeable.toUInt32 - pCache.bPurgeable.toUInt32)
    some (s.setGrp { s.grp with nCurrentPage := nCurrentPage }, some pPage)

/-- Steps 4 and 5 of `pcache1Fetch`: recycle a page, or else allocate one. -/
def obtainPage (s : State) (c : ℕ) (e : Env) : Option (State × Option ℕ) := do
  let p := s.cache c
  let (s, pPage) ← match s.grp.pLruTail with
    | none => some (s, none)
    | some t =>
      if p.bPurgeable ∧ (p.nMax ≤ p.nPage + 1 ∨ s.grp.nMaxPage ≤ s.grp.nCurrentPage ∨
          e.pressure₂) then
        recycle s c t
      else some (s, none)
  match pPage with
  | some a => some (s, some a)
  | none => some (pcache1AllocPage s c e.pageMem)

/-- Enter a page into the cache `c` under a new key. -/
def enterPage (s : State) (c : ℕ) (iKey : UInt32) (pPage : ℕ) : State :=
  let h := (iKey % (s.cache c).nHash).toNat
  let p := s.cache c
  let s := { s with
    iKey := Function.update s.iKey pPage iKey
    pNext := Function.update s.pNext pPage (p.apHash h)
    pCache := Function.update s.pCache pPage c
    pLruPrev := Function.update s.pLruPrev pPage none
    pLruNext := Function.update s.pLruNext pPage none }
  s.setCache c { p with nPage := p.nPage + 1, apHash := Function.update p.apHash h (some pPage) }

/-- `fetch_out` -/
def fetchOut (s : State) (c : ℕ) (iKey : UInt32) (pPage : Option ℕ) : State × Option ℕ :=
  if pPage ≠ none ∧ (s.cache c).iMaxKey < iKey then
    (s.setCache c { s.cache c with iMaxKey := iKey }, pPage)
  else (s, pPage)

def pcache1Fetch (s : State) (c : ℕ) (iKey : UInt32) (createFlag : ℕ) (e : Env) :
    Option (State × Option ℕ) := do
  let p := s.cache c
  let pPage ← (if 0 < p.nHash then findPage s iKey (p.apHash (iKey % p.nHash).toNat) else some none)
  match pPage with
  | some a => some (fetchOut (pcache1PinPage s a) c iKey (some a))
  | none =>
    if createFlag = 0 then some (fetchOut s c iKey none)
    else
      let nPinned := p.nPage - p.nRecyclable
      if createFlag = 1 ∧ (s.grp.mxPinned ≤ nPinned ∨ p.n90pct ≤ nPinned ∨ e.pressure₁) then
        some (fetchOut s c iKey none)
      else
        let (s, ok) ← (if p.nHash ≤ p.nPage then pcache1ResizeHash s c e.hashMem else some (s, true))
        if ¬ ok then some (fetchOut s c iKey none)
        else
          let (s, pPage) ← obtainPage s c e
          match pPage with
          | none => some (fetchOut s c iKey none)
          | some a => some (fetchOut (enterPage s c iKey a) c iKey (some a))

def pcache1Unpin (s : State) (c pPage : ℕ) (reuseUnlikely : Bool) : Option State := do
  if reuseUnlikely ∨ s.grp.nMaxPage < s.grp.nCurrentPage then
    let s ← pcache1RemoveFromHash s pPage
    some (pcache1FreePage s pPage)
  else
    let s := match s.grp.pLruHead with
      | some head =>
        { s with
          pLruPrev := Function.update s.pLruPrev head (some pPage)
          pLruNext := Function.update s.pLruNext pPage (some head)
          grp := { s.grp with pLruHead := some pPage } }
      | none => s.setGrp { s.grp with pLruTail := some pPage, pLruHead := some pPage }
    some (s.setCache c { s.cache c with nRecyclable := (s.cache c).nRecyclable + 1 })

def pcache1Rekey (s : State) (c pPage : ℕ) (iOld iNew : UInt32) : Option State := do
  let h := (iOld % (s.cache c).nHash).toNat
  let pp ← loop (fun pp => if s.deref c h pp ≠ some pPage then .inl (s.deref c h pp) else .inr pp)
    s.fuel none
  let s := s.assign c h pp (s.pNext pPage)
  let h := (iNew % (s.cache c).nHash).toNat
  let p := s.cache c
  let s := { s with
    iKey := Function.update s.iKey pPage iNew
    pNext := Function.update s.pNext pPage (p.apHash h) }
  some (s.setCache c { p with
    apHash := Function.update p.apHash h (some pPage)
    iMaxKey := if p.iMaxKey < iNew then iNew else p.iMaxKey })

def pcache1Truncate (s : State) (c : ℕ) (iLimit : UInt32) : Option State := do
  if iLimit ≤ (s.cache c).iMaxKey then
    let s ← pcache1TruncateUnsafe s c iLimit
    some (s.setCache c { s.cache c with iMaxKey := iLimit - 1 })
  else some s

def pcache1Destroy (s : State) (c : ℕ) : Option State := do
  let s ← pcache1TruncateUnsafe s c 0
  let p := s.cache c
  let g := { s.grp with
    nMaxPage := s.grp.nMaxPage - p.nMax
    nMinPage := s.grp.nMinPage - p.nMin }
  let s ← pcache1EnforceMaxPage (s.setGrp (mxPinned g))
  some { s with caches := s.caches.erase c }

end Sqlite.Pcache1
