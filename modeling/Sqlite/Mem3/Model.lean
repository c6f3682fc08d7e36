import Mathlib.Logic.Function.Basic
import Sqlite.Foundation.Bytes

/-! The allocator with boundary tags: chunks of eight-byte blocks, lists of free chunks by size, and
the master chunk. A chunk has the index of its second block, and a pointer to a chunk is that index.
A result `none` is an assert that fails, or a write outside of the heap. -/
namespace Sqlite.Mem3
open Foundation

def MX_SMALL : ℕ := 10

def N_HASH : ℕ := 61

/-- The heads of the lists of free chunks. -/
inductive Root
  | aiSmall (k : ℕ)
  | aiHash (h : ℕ)
  deriving DecidableEq

/-- `root` holds both arrays of list heads. -/
structure Mem3Global where
  nPool : ℕ
  aPool : ℕ → UInt8
  alarmBusy : Bool
  mnMaster : ℕ
  iMaster : ℕ
  szMaster : ℕ
  root : Root → ℕ

variable (m : Mem3Global)

/-- The words of a block; in the second block of a free chunk these are `next` and `prev`. -/
def prevSize (b : ℕ) : ℕ := getLE m.aPool (8 * b)

def size4x (b : ℕ) : ℕ := getLE m.aPool (8 * b + 4)

def next (i : ℕ) : ℕ := prevSize m i

def prev (i : ℕ) : ℕ := size4x m i

def setPrevSize (b v : ℕ) : Mem3Global := { m with aPool := putLE m.aPool (8 * b) v }

def setSize4x (b v : ℕ) : Mem3Global := { m with aPool := putLE m.aPool (8 * b + 4) v }

def setNext (i v : ℕ) : Mem3Global := setPrevSize m i v

def setPrev (i v : ℕ) : Mem3Global := setSize4x m i v

def setRoot (r : Root) (v : ℕ) : Mem3Global := { m with root := Function.update m.root r v }

/-- The list for chunks of `size` blocks. -/
def rootOf (size : ℕ) : Root := if size ≤ MX_SMALL then .aiSmall (size - 2) else .aiHash (size % N_HASH)

def memsys3UnlinkFromList (i : ℕ) (pRoot : Root) : Mem3Global :=
  let next := next m i
  let prev := prev m i
  let m := if prev = 0 then setRoot m pRoot next else setNext m prev next
  let m := if next ≠ 0 then setPrev m next prev else m
  let m := setNext m i 0
  setPrev m i 0

/-- The asserts of `memsys3Unlink` and `memsys3Link`. -/
def Linkable (i : ℕ) : Prop :=
  1 ≤ i ∧ size4x m (i - 1) &&& 1 = 0 ∧
    size4x m (i - 1) / 4 = prevSize m (i + size4x m (i - 1) / 4 - 1) ∧ 2 ≤ size4x m (i - 1) / 4

instance (i : ℕ) : Decidable (Linkable m i) := inferInstanceAs (Decidable (_ ∧ _))

def memsys3Unlink (i : ℕ) : Option Mem3Global :=
  if Linkable m i then some (memsys3UnlinkFromList m i (rootOf (size4x m (i - 1) / 4))) else none

def memsys3LinkIntoList (i : ℕ) (pRoot : Root) : Mem3Global :=
  let m := setNext m i (m.root pRoot)
  let m := setPrev m i 0
  let m := if m.root pRoot ≠ 0 then setPrev m (m.root pRoot) i else m
  setRoot m pRoot i

def memsys3Link (i : ℕ) : Option Mem3Global :=
  if Linkable m i then some (memsys3LinkIntoList m i (rootOf (size4x m (i - 1) / 4))) else none

def memsys3Checkout (i nBlock : ℕ) : Option Mem3Global :=
  if 1 ≤ i ∧ size4x m (i - 1) / 4 = nBlock ∧ prevSize m (i + nBlock - 1) = nBlock then
    let x := size4x m (i - 1)
    let m := setSize4x m (i - 1) (nBlock * 4 ||| 1 ||| (x &&& 2))
    let m := setPrevSize m (i + nBlock - 1) nBlock
    some (setSize4x m (i + nBlock - 1) (size4x m (i + nBlock - 1) ||| 2))
  else none

def memsys3FromMaster (nBlock : ℕ) : Option (Mem3Global × ℕ) :=
  if m.szMaster < nBlock then none
  else if m.szMaster - 1 ≤ nBlock then
    match memsys3Checkout m m.iMaster m.szMaster with
    | none => none
    | some m' => some ({ m' with iMaster := 0, szMaster := 0, mnMaster := 0 }, m.iMaster)
  else
    let newi := m.iMaster + m.szMaster - nBlock
    let tail := m.iMaster + m.szMaster - 1
    let m := setPrevSize m tail nBlock
    let m := setSize4x m tail (size4x m tail ||| 2)
    let m := setSize4x m (newi - 1) (nBlock * 4 + 1)
    let szMaster := m.szMaster - nBlock
    let m := setPrevSize m (newi - 1) szMaster
    let x := size4x m (m.iMaster - 1) &&& 2
    let m := setSize4x m (m.iMaster - 1) (szMaster * 4 ||| x)
    some ({ m with szMaster := szMaster, mnMaster := min szMaster m.mnMaster }, newi)

/-- A free chunk gets a new size; `x` tells whether the chunk before it is checked out. -/
def setFree (i size x : ℕ) : Mem3Global :=
  let m := setSize4x m (i - 1) (size * 4 ||| x)
  setPrevSize m (i + size - 1) size

/-- A larger chunk becomes the master. -/
def takeMaster (i size : ℕ) : Mem3Global :=
  if m.szMaster < size then { m with iMaster := i, szMaster := size } else m

/-- The loop of `memsys3Merge`, for at most `n` chunks. -/
def mergeLoop (pRoot : Root) : ℕ → ℕ → Mem3Global → Option Mem3Global
  | _, 0, m => some m
  | 0, _ + 1, _ => none
  | n + 1, i, m =>
    let iNext := next m i
    let size := size4x m (i - 1)
    if size &&& 1 ≠ 0 then none
    else if size &&& 2 = 0 then
      let m := memsys3UnlinkFromList m i pRoot
      if i ≤ prevSize m (i - 1) then none
      else
        let prev := i - prevSize m (i - 1)
        let iNext := if prev = iNext then next m prev else iNext
        match memsys3Unlink m prev with
        | none => none
        | some m =>
          let size := i + size / 4 - prev
          let x := size4x m (prev - 1) &&& 2
          match memsys3Link (setFree m prev size x) prev with
          | none => none
          | some m => mergeLoop pRoot n iNext (takeMaster m prev size)
    else mergeLoop pRoot n iNext (takeMaster m i (size / 4))

def memsys3Merge (pRoot : Root) : Option Mem3Global := mergeLoop pRoot m.nPool (m.root pRoot) m

/-- All the lists, in the order in which they are merged. -/
def roots : List Root :=
  (List.range N_HASH).map .aiHash ++ (List.range (MX_SMALL - 1)).map .aiSmall

def mergeAll : List Root → Mem3Global → Option Mem3Global
  | [], m => some m
  | r :: rs, m =>
    match memsys3Merge m r with
    | none => none
    | some m => mergeAll rs m

/-- The first loop at the end of `memsys3FreeUnsafe`, for at most `n` chunks. -/
def expandDown : ℕ → Mem3Global → Option Mem3Global
  | n, m =>
    if size4x m (m.iMaster - 1) &&& 2 = 0 then
      match n with
      | 0 => none
      | n + 1 =>
        let size := prevSize m (m.iMaster - 1)
        let m := { m with iMaster := m.iMaster - size, szMaster := m.szMaster + size }
        match memsys3Unlink m m.iMaster with
        | none => none
        | some m =>
          let x := size4x m (m.iMaster - 1) &&& 2
          expandDown n (setFree m m.iMaster m.szMaster x)
    else some m

/-- The second one. -/
def expandUp (x : ℕ) : ℕ → Mem3Global → Option Mem3Global
  | n, m =>
    if size4x m (m.iMaster + m.szMaster - 1) &&& 1 = 0 then
      match n with
      | 0 => none
      | n + 1 =>
        match memsys3Unlink m (m.iMaster + m.szMaster) with
        | none => none
        | some m =>
          let size := size4x m (m.iMaster + m.szMaster - 1) / 4
          let m := { m with szMaster := m.szMaster + size }
          expandUp x n (setFree m m.iMaster m.szMaster x)
    else some m

def memsys3FreeUnsafe (i : ℕ) : Option Mem3Global :=
  let size := size4x m (i - 1) / 4
  if 0 < i ∧ i < m.nPool ∧ size4x m (i - 1) &&& 1 = 1 ∧ i + size ≤ m.nPool + 1 then
    let m := setSize4x m (i - 1) (size4x m (i - 1) &&& 0xFFFFFFFE)
    let m := setPrevSize m (i + size - 1) size
    let m := setSize4x m (i + size - 1) (size4x m (i + size - 1) &&& 0xFFFFFFFD)
    match memsys3Link m i with
    | none => none
    | some m =>
      if m.iMaster ≠ 0 then
        match expandDown m.nPool m with
        | none => none
        | some m => expandUp (size4x m (m.iMaster - 1) &&& 2) m.nPool m
      else some m
  else none

/-- Chunks are freed one after another. -/
def freeAll : List ℕ → Mem3Global → Option Mem3Global
  | [], m => some m
  | p :: ps, m =>
    match memsys3FreeUnsafe m p with
    | none => none
    | some m => freeAll ps m

/-- `released` are the chunks that `sqlite3_release_memory` frees. -/
def memsys3OutOfMemory (released : List ℕ) : Option Mem3Global :=
  if m.alarmBusy then some m
  else
    match freeAll released { m with alarmBusy := true } with
    | none => none
    | some m => some { m with alarmBusy := false }

/-- The master is linked into its list, before the lists are merged. -/
def linkMaster : Option Mem3Global :=
  if m.iMaster ≠ 0 then
    match memsys3Link m m.iMaster with
    | none => none
    | some m => some { m with iMaster := 0, szMaster := 0 }
  else some m

/-- One round of the third step. A chunk is returned when there is one. -/
def coalesce (nBlock : ℕ) (released : List ℕ) : Option (Mem3Global × Option ℕ) :=
  match memsys3OutOfMemory m released with
  | none => none
  | some m =>
    match linkMaster m with
    | none => none
    | some m =>
      match mergeAll roots m with
      | none => none
      | some m =>
        if m.szMaster ≠ 0 then
          match memsys3Unlink m m.iMaster with
          | none => none
          | some m =>
            if nBlock ≤ m.szMaster then
              (memsys3FromMaster m nBlock).map (fun r => (r.1, some r.2))
            else some (m, none)
        else some (m, none)

/-- What `memsys3MallocUnsafe` comes to: a pointer, or null, or the loop goes on for more rounds than
there are releases for. -/
inductive Result
  | pointer (m : Mem3Global) (p : ℕ)
  | null (m : Mem3Global)
  | unfinished

/-- A result, when there are no more releases. -/
def usedUp (released : List (List ℕ)) (r : Result) : Result :=
  if released = [] then r else .unfinished

/-- The loop of the third step. The releases are used up when it ends. -/
def coalesceLoop (nBlock : ℕ) : List (List ℕ) → ℕ → Mem3Global → Option Result
  | released, toFree, m =>
    if toFree < m.nPool * 16 % 4294967296 then
      match released with
      | [] => some .unfinished
      | r :: rs =>
        match coalesce m nBlock r with
        | none => none
        | some (m, some p) => some (usedUp rs (.pointer m p))
        | some (m, none) => coalesceLoop nBlock rs (toFree * 2 % 4294967296) m
    else some (usedUp released (.null m))

/-- The search of the first step along a list, for at most `n` chunks. -/
def findSize (nBlock : ℕ) : ℕ → ℕ → Option ℕ
  | _, 0 => some 0
  | 0, _ + 1 => none
  | n + 1, i => if size4x m (i - 1) / 4 = nBlock then some i else findSize nBlock n (next m i)

/-- The value that is stored into an `int`. -/
def i32 (x : ℤ) : ℤ := (x + 2147483648) % 4294967296 - 2147483648

def blocksFor (nByte : ℤ) : ℕ :=
  if nByte ≤ 12 then 2 else ((i32 (nByte + 11)).tdiv 8 % 4294967296).toNat

def memsys3MallocUnsafe (nByte : ℤ) (released : List (List ℕ)) : Option Result :=
  let nBlock := blocksFor nByte
  if nBlock < 2 then none
  else
    let found := if nBlock ≤ MX_SMALL then some (m.root (rootOf nBlock))
      else findSize m nBlock m.nPool (m.root (rootOf nBlock))
    match found with
    | none => none
    | some i =>
      if i ≠ 0 then
        (memsys3Checkout (memsys3UnlinkFromList m i (rootOf nBlock)) i nBlock).map
          (fun m => usedUp released (.pointer m i))
      else if nBlock ≤ m.szMaster then
        (memsys3FromMaster m nBlock).map (fun r => usedUp released (.pointer r.1 r.2))
      else coalesceLoop nBlock released (nBlock * 16 % 4294967296) m

def memsys3Size (i : ℕ) : ℕ := size4x m (i - 1) / 4 * 4 * 2 - 4

def memsys3Malloc (nBytes : ℤ) (released : List (List ℕ)) : Option Result :=
  if 0 < nBytes then memsys3MallocUnsafe m nBytes released else none

def memsys3Free (pPrior : ℕ) : Option Mem3Global := memsys3FreeUnsafe m pPrior

/-- `memcpy` of `n` bytes between chunks. -/
def memcpy (p pPrior n : ℕ) : Mem3Global :=
  { m with aPool := fun x =>
      if 8 * p ≤ x ∧ x < 8 * p + n then m.aPool (8 * pPrior + (x - 8 * p)) else m.aPool x }

/-- For a pointer that is not null. -/
def memsys3Realloc (pPrior : ℕ) (nBytes : ℤ) (released : List (List ℕ)) : Option Result :=
  if nBytes ≤ 0 then (memsys3Free m pPrior).map (fun m => usedUp released (.null m))
  else
    let nOld : ℤ := memsys3Size m pPrior
    if nBytes ≤ nOld ∧ nOld - 128 ≤ nBytes then some (usedUp released (.pointer m pPrior))
    else
      match memsys3MallocUnsafe m nBytes released with
      | none => none
      | some .unfinished => some .unfinished
      | some (.null m) => some (.null m)
      | some (.pointer m p) =>
        let n := if nOld < nBytes then nOld else nBytes
        (memsys3FreeUnsafe (memcpy m p pPrior n.toNat) pPrior).map (fun m => .pointer m p)

/-- The heap has `nHeap` bytes; both sides of the subtraction in `nPool` are `size_t`. The other
static variables are zero. -/
def memsys3Init (nHeap : ℤ) (aPool : ℕ → UInt8) : Option Mem3Global :=
  let nPool := ((nHeap % 18446744073709551616 / 8 - 2) % 4294967296).toNat
  let m : Mem3Global := ⟨nPool, aPool, false, nPool, 1, nPool, fun _ => 0⟩
  -- the words that are written are words of the heap
  if 8 ≤ nHeap ∧ 8 * (nPool : ℤ) + 8 ≤ nHeap then
    let m := setSize4x m 0 (nPool <<< 2 % 4294967296 + 2)
    let m := setPrevSize m nPool nPool
    some (setSize4x m nPool 1)
  else none

end Sqlite.Mem3
