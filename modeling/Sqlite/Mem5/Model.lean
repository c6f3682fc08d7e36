import Mathlib.Algebra.Ring.Int.Defs
import Mathlib.Algebra.Ring.Nat
import Sqlite.Foundation.Bytes
import Sqlite.Foundation.Loop

/-! The buddy allocator of mem5.c. Addresses are byte offsets into `zPool`; the freelist links
live in the first eight bytes of each free block, as in the source. -/
namespace Sqlite.Mem5
open Foundation

def LOGMAX : ℕ := 30
def CTRL_LOGSIZE : UInt8 := 0x1f
def CTRL_FREE : UInt8 := 0x20

/-- The performance counters; no allocation decision reads them. -/
structure Stats where
  nAlloc : UInt64
  totalAlloc : UInt64
  totalExcess : UInt64
  currentOut : UInt32
  currentCount : UInt32
  maxOut : UInt32
  maxCount : UInt32
  maxRequest : UInt32

structure Mem5Global where
  szAtom : ℕ
  nBlock : ℕ
  zPool : ℕ → UInt8
  aiFreelist : ℕ → ℤ
  aCtrl : ℕ → UInt8
  stats : Stats

namespace Mem5Global
variable (m : Mem5Global)

/-- `MEM5LINK(i)->next` -/
def next (i : ℕ) : ℤ := getInt m.zPool (i * m.szAtom)

/-- `MEM5LINK(i)->prev` -/
def prev (i : ℕ) : ℤ := getInt m.zPool (i * m.szAtom + 4)

def setNext (i : ℕ) (v : ℤ) : Mem5Global := { m with zPool := putInt m.zPool (i * m.szAtom) v }

def setPrev (i : ℕ) (v : ℤ) : Mem5Global :=
  { m with zPool := putInt m.zPool (i * m.szAtom + 4) v }

def setFreelist (k : ℕ) (v : ℤ) : Mem5Global :=
  { m with aiFreelist := Function.update m.aiFreelist k v }

def setCtrl (i : ℕ) (c : UInt8) : Mem5Global := { m with aCtrl := Function.update m.aCtrl i c }

end Mem5Global

def memsys5Unlink (m : Mem5Global) (i iLogsize : ℕ) : Mem5Global :=
  let next := m.next i
  let prev := m.prev i
  let m := if prev < 0 then m.setFreelist iLogsize next else m.setNext prev.toNat next
  if 0 ≤ next then m.setPrev next.toNat prev else m

def memsys5Link (m : Mem5Global) (i iLogsize : ℕ) : Mem5Global :=
  let x := m.aiFreelist iLogsize
  let m := (m.setNext i x).setPrev i (-1)
  let m := if 0 ≤ x then m.setPrev x.toNat i else m
  m.setFreelist iLogsize i

/-- The size of the outstanding allocation at `p`. -/
def memsys5Size (m : Mem5Global) (p : ℕ) : ℕ :=
  m.szAtom * 2 ^ (m.aCtrl (p / m.szAtom) &&& CTRL_LOGSIZE).toNat

/-- The walk over the list stops at index 0, wherever it stands. -/
def memsys5UnlinkFirst (m : Mem5Global) (iLogsize : ℕ) : Option (Mem5Global × ℕ) := do
  let iFirst ← loop (fun (i, iFirst) =>
      if 0 < i then .inl (m.next i.toNat, if i < iFirst then i else iFirst)
      else .inr iFirst)
    (m.nBlock + 1) (m.aiFreelist iLogsize, m.aiFreelist iLogsize)
  some (memsys5Unlink m iFirst.toNat iLogsize, iFirst.toNat)

/-- Round the request up to `szAtom * 2 ^ iLogsize`. -/
def roundRequest (szAtom nByte : ℕ) : Option (ℕ × ℕ) :=
  loop (fun (iFullSz, iLogsize) =>
      if iFullSz < nByte then .inl (iFullSz * 2, iLogsize + 1) else .inr (iFullSz, iLogsize))
    (LOGMAX + 2) (szAtom, 0)

/-- The first bin from `iLogsize` on that is not empty. -/
def findBin (m : Mem5Global) (iLogsize : ℕ) : Option ℕ :=
  loop (fun iBin =>
      if m.aiFreelist iBin < 0 ∧ iBin ≤ LOGMAX then .inl (iBin + 1) else .inr iBin)
    (LOGMAX + 2) iLogsize

/-- Halve the block at `i` until it has the wanted size, freeing each upper half. -/
def splitBlock (m : Mem5Global) (i iBin iLogsize : ℕ) : Option Mem5Global :=
  loop (fun (m, iBin) =>
      if iLogsize < iBin then
        let iBin := iBin - 1
        let newSize := 2 ^ iBin
        let m := m.setCtrl (i + newSize) (CTRL_FREE ||| .ofNat iBin)
        .inl (memsys5Link m (i + newSize) iBin, iBin)
      else .inr m)
    (LOGMAX + 2) (m, iBin)

def noteRequest (m : Mem5Global) (nByte : ℕ) : Mem5Global :=
  if m.stats.maxRequest < .ofNat nByte then
    { m with stats := { m.stats with maxRequest := .ofNat nByte } }
  else m

def noteMalloc (m : Mem5Global) (iFullSz nByte : ℕ) : Mem5Global :=
  let s := m.stats
  let currentCount := s.currentCount + 1
  let currentOut := s.currentOut + .ofNat iFullSz
  { m with stats :=
    { s with
      nAlloc := s.nAlloc + 1
      totalAlloc := s.totalAlloc + .ofNat iFullSz
      totalExcess := s.totalExcess + .ofNat (iFullSz - nByte)
      currentCount := currentCount
      currentOut := currentOut
      maxCount := if s.maxCount < currentCount then currentCount else s.maxCount
      maxOut := if s.maxOut < currentOut then currentOut else s.maxOut } }

def memsys5MallocUnsafe (m : Mem5Global) (nByte : ℕ) : Option (Mem5Global × Option ℕ) := do
  let m := noteRequest m nByte
  if nByte > 0x40000000 then some (m, none)
  else
    let (iFullSz, iLogsize) ← roundRequest m.szAtom nByte
    let iBin ← findBin m iLogsize
    if iBin > LOGMAX then some (m, none)
    else
      let (m, i) ← memsys5UnlinkFirst m iBin
      let m ← splitBlock m i iBin iLogsize
      let m := m.setCtrl i (.ofNat iLogsize)
      some (noteMalloc m iFullSz nByte, some (i * m.szAtom))

/-- Merge the block at `iBlock` with its buddy for as long as the buddy is free. -/
def coalesce (m : Mem5Global) (iBlock iLogsize : ℕ) : Option (Mem5Global × ℕ × ℕ) :=
  loop (fun (m, iBlock, iLogsize, size) =>
      if iLogsize < LOGMAX then
        let iBuddy := if (iBlock >>> iLogsize) &&& 1 = 1 then iBlock - size else iBlock + size
        if m.nBlock < iBuddy + 2 ^ iLogsize then .inr (m, iBlock, iLogsize)
        else if m.aCtrl iBuddy ≠ CTRL_FREE ||| .ofNat iLogsize then .inr (m, iBlock, iLogsize)
        else
          let m := memsys5Unlink m iBuddy iLogsize
          let iLogsize := iLogsize + 1
          if iBuddy < iBlock then
            let m := (m.setCtrl iBuddy (CTRL_FREE ||| .ofNat iLogsize)).setCtrl iBlock 0
            .inl (m, iBuddy, iLogsize, size * 2)
          else
            let m := (m.setCtrl iBlock (CTRL_FREE ||| .ofNat iLogsize)).setCtrl iBuddy 0
            .inl (m, iBlock, iLogsize, size * 2)
      else .inr (m, iBlock, iLogsize))
    (LOGMAX + 1) (m, iBlock, iLogsize, 2 ^ iLogsize)

def noteFree (m : Mem5Global) (size : ℕ) : Mem5Global :=
  { m with stats :=
    { m.stats with
      currentCount := m.stats.currentCount - 1
      currentOut := m.stats.currentOut - .ofNat (size * m.szAtom) } }

def memsys5FreeUnsafe (m : Mem5Global) (pOld : ℕ) : Option Mem5Global := do
  let iBlock := pOld / m.szAtom
  let iLogsize := (m.aCtrl iBlock &&& CTRL_LOGSIZE).toNat
  let size := 2 ^ iLogsize
  let m := m.setCtrl iBlock (m.aCtrl iBlock ||| CTRL_FREE)
  let m := m.setCtrl (iBlock + size - 1) (m.aCtrl (iBlock + size - 1) ||| CTRL_FREE)
  let m := noteFree m size
  let m := m.setCtrl iBlock (CTRL_FREE ||| .ofNat iLogsize)
  let (m, iBlock, iLogsize) ← coalesce m iBlock iLogsize
  some (memsys5Link m iBlock iLogsize)

def memsys5Malloc (m : Mem5Global) (nBytes : ℤ) : Option (Mem5Global × Option ℕ) :=
  if 0 < nBytes then memsys5MallocUnsafe m nBytes.toNat else some (m, none)

def memsys5Free (m : Mem5Global) (pPrior : ℕ) : Option Mem5Global := memsys5FreeUnsafe m pPrior

/-- `memcpy` within the pool. -/
def memcpy (m : Mem5Global) (dst src n : ℕ) : Mem5Global :=
  { m with zPool := fun a => if dst ≤ a ∧ a < dst + n then m.zPool (src + (a - dst)) else m.zPool a }

def memsys5Realloc (m : Mem5Global) (pPrior nBytes : ℕ) : Option (Mem5Global × Option ℕ) := do
  if nBytes = 0 then some (m, none)
  else
    let nOld := memsys5Size m pPrior
    if nBytes ≤ nOld then some (m, some pPrior)
    else
      let (m, p) ← memsys5MallocUnsafe m nBytes
      match p with
      | none => some (m, none)
      | some p =>
        let m ← memsys5FreeUnsafe (memcpy m p pPrior nOld) pPrior
        some (m, some p)

/-- The ceiling of the base 2 logarithm. -/
def memsys5Log (iValue : ℤ) : Option ℕ :=
  loop (fun iLog => if iLog < 31 ∧ 2 ^ iLog < iValue then .inl (iLog + 1) else .inr iLog) 32 0

/-- One round of the initial decomposition: take a block of `2 ^ ii` atoms if it still fits. -/
def initBlock (ii : ℕ) (s : Mem5Global × ℕ) : Mem5Global × ℕ :=
  let (m, iOffset) := s
  let nAlloc := 2 ^ ii
  if iOffset + nAlloc ≤ m.nBlock then
    let m := m.setCtrl iOffset (.ofNat ii ||| CTRL_FREE)
    (memsys5Link m iOffset ii, iOffset + nAlloc)
  else s

/-- `for(ii=LOGMAX; ii>=0; ii--)`, called with `LOGMAX + 1`. -/
def initBlocks : ℕ → Mem5Global × ℕ → Mem5Global × ℕ
  | 0, s => s
  | ii + 1, s => initBlocks ii (initBlock ii s)

/-- `m` is the memory before the call, with any heap content. -/
def memsys5Init (m : Mem5Global) (nHeap : ℕ) (mnReq : ℤ) : Option Mem5Global := do
  let nMinLog ← memsys5Log mnReq
  let szAtom ← loop (fun szAtom => if szAtom < 8 then .inl (szAtom <<< 1) else .inr szAtom) 4
    (2 ^ nMinLog)
  let m := { m with
    szAtom := szAtom
    nBlock := nHeap / (szAtom + 1)
    aiFreelist := fun ii => if ii ≤ LOGMAX then -1 else m.aiFreelist ii }
  some (initBlocks (LOGMAX + 1) (m, 0)).1

end Sqlite.Mem5
