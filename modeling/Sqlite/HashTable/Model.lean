import Mathlib.Logic.Function.Basic
import Mathlib.Data.Int.Basic
import Mathlib.Data.List.Basic

/-! The symbol hash table: its elements on one doubly linked list, and an array of buckets that
point into it. Pointers to elements are numbers, and the null pointer to data is 0. -/
namespace Sqlite.HashTable

def SQLITE_MALLOC_SOFT_LIMIT : ℕ := 1024
def SIZEOF_HT : ℕ := 16

structure HtEntry where
  count : ℕ
  chain : Option ℕ

/-- `live` tells which blocks are allocated for elements. -/
structure Hash where
  htsize : ℕ
  count : ℕ
  first : Option ℕ
  ht : Option (ℕ → HtEntry)
  next : ℕ → Option ℕ
  prev : ℕ → Option ℕ
  data : ℕ → ℕ
  pKey : ℕ → List UInt8
  live : ℕ → Bool

/-- The table `sqlite3UpperToLower` for ASCII. -/
def sqlite3UpperToLower (c : UInt8) : UInt8 := if 65 ≤ c ∧ c ≤ 90 then c + 32 else c

def sqlite3StrNICmp : ℕ → List UInt8 → List UInt8 → ℤ
  | 0, _, _ => 0
  | n + 1, zLeft, zRight =>
    let a := zLeft.headD 0
    let b := zRight.headD 0
    if a ≠ 0 ∧ sqlite3UpperToLower a = sqlite3UpperToLower b then
      sqlite3StrNICmp n zLeft.tail zRight.tail
    else (sqlite3UpperToLower a).toNat - (sqlite3UpperToLower b).toNat

def strHash (z : List UInt8) : UInt32 :=
  z.foldl (fun h c => (h <<< 3) ^^^ h ^^^ (sqlite3UpperToLower c).toUInt32) 0

/-- The bucket of a key in a table of the given size. -/
def slotOf (size : ℕ) (z : List UInt8) : ℕ := (strHash z).toNat % size

def keyMatch (H : Hash) (pKey : List UInt8) (elem : ℕ) : Bool :=
  (H.pKey elem).length = pKey.length ∧ sqlite3StrNICmp pKey.length (H.pKey elem) pKey = 0

/-- The loop of `sqlite3HashClear`, for at most `n` elements. -/
def freeElems (next : ℕ → Option ℕ) : ℕ → Option ℕ → (ℕ → Bool) → Option (ℕ → Bool)
  | _, none, live => some live
  | 0, some _, _ => none
  | n + 1, some elem, live => freeElems next n (next elem) (Function.update live elem false)

def sqlite3HashClear (H : Hash) : Option Hash :=
  match freeElems H.next H.count H.first H.live with
  | none => none
  | some live => some { H with first := none, ht := none, htsize := 0, live := live, count := 0 }

/-- The first element of the bucket that `insertElement` is given, if it has one. -/
def bucketHead (H : Hash) (h : Option ℕ) : Option ℕ :=
  match H.ht, h with
  | some ht, some h => if (ht h).count ≠ 0 then (ht h).chain else none
  | _, _ => none

def bucketPush (H : Hash) (h : Option ℕ) (pNew : ℕ) : Hash :=
  match H.ht, h with
  | some ht, some h => { H with ht := some (Function.update ht h ⟨(ht h).count + 1, some pNew⟩) }
  | _, _ => H

/-- Link `pNew` into the list, in front of its bucket when that is not empty. -/
def insertElement (H : Hash) (h : Option ℕ) (pNew : ℕ) : Hash :=
  let pHead := bucketHead H h
  let H := bucketPush H h pNew
  match pHead with
  | some p =>
    let H := { H with
      next := Function.update H.next pNew (some p)
      prev := Function.update H.prev pNew (H.prev p) }
    let H := match H.prev p with
      | some q => { H with next := Function.update H.next q (some pNew) }
      | none => { H with first := some pNew }
    { H with prev := Function.update H.prev p (some pNew) }
  | none =>
    let H := { H with next := Function.update H.next pNew H.first }
    let H := match H.first with
      | some f => { H with prev := Function.update H.prev f (some pNew) }
      | none => H
    { H with prev := Function.update H.prev pNew none, first := some pNew }

/-- The loop of `rehash`, for at most `n` elements. -/
def rehashLoop (new_size : ℕ) : ℕ → Option ℕ → Hash → Option Hash
  | _, none, H => some H
  | 0, some _, _ => none
  | n + 1, some elem, H =>
    rehashLoop new_size n (H.next elem) (insertElement H (some (slotOf new_size (H.pKey elem))) elem)

/-- `extra` is by how many bytes `sqlite3MallocSize` exceeds the request, none when the request
fails. -/
def rehash (H : Hash) (new_size : ℕ) (extra : Option ℕ) : Option (Bool × Hash) :=
  let new_size := if new_size * SIZEOF_HT > SQLITE_MALLOC_SOFT_LIMIT then
    SQLITE_MALLOC_SOFT_LIMIT / SIZEOF_HT else new_size
  if new_size = H.htsize then some (false, H)
  else
    match extra with
    | none => some (false, H)
    | some extra =>
      let new_size := (new_size * SIZEOF_HT + extra) / SIZEOF_HT
      let H' := { H with ht := some (fun _ => ⟨0, none⟩), htsize := new_size, first := none }
      match rehashLoop new_size H.count H.first H' with
      | none => none
      | some H => some (true, H)

/-- The search loop of `findElementGivenHash`. -/
def findLoop (H : Hash) (pKey : List UInt8) : ℕ → Option ℕ → Option ℕ
  | 0, _ => none
  | _ + 1, none => none
  | count + 1, some elem =>
    if keyMatch H pKey elem then some elem else findLoop H pKey count (H.next elem)

def findElementGivenHash (H : Hash) (pKey : List UInt8) (h : ℕ) : Option ℕ :=
  match H.ht with
  | some ht => findLoop H pKey (ht h).count (ht h).chain
  | none => findLoop H pKey H.count H.first

/-- The part of `removeElementGivenHash` before the test for the last element. -/
def unlinkElement (H : Hash) (elem h : ℕ) : Hash :=
  let H := match H.prev elem with
    | some q => { H with next := Function.update H.next q (H.next elem) }
    | none => { H with first := H.next elem }
  let H := match H.next elem with
    | some r => { H with prev := Function.update H.prev r (H.prev elem) }
    | none => H
  let H := match H.ht with
    | some ht =>
      let chain := if (ht h).chain = some elem then H.next elem else (ht h).chain
      { H with ht := some (Function.update ht h ⟨(ht h).count - 1, chain⟩) }
    | none => H
  { H with live := Function.update H.live elem false, count := H.count - 1 }

def removeElementGivenHash (H : Hash) (elem h : ℕ) : Option Hash :=
  let H := unlinkElement H elem h
  if H.count = 0 then sqlite3HashClear H else some H

def sqlite3HashFind (H : Hash) (pKey : List UInt8) : ℕ :=
  let h := if H.ht.isSome then slotOf H.htsize pKey else 0
  match findElementGivenHash H pKey h with
  | some elem => H.data elem
  | none => 0

/-- The end of `sqlite3HashInsert`, which links a new element. -/
def addElement (H : Hash) (pKey : List UInt8) (data new_elem h : ℕ) (extra : Option ℕ) :
    Option Hash :=
  let H := { H with
    live := Function.update H.live new_elem true
    pKey := Function.update H.pKey new_elem pKey
    data := Function.update H.data new_elem data
    count := H.count + 1 }
  let r := if 10 ≤ H.count ∧ H.count > 2 * H.htsize then rehash H (H.count * 2) extra
    else some (false, H)
  match r with
  | none => none
  | some (grown, H) =>
    let h := if grown then slotOf H.htsize pKey else h
    some (insertElement H (if H.ht.isSome then some h else none) new_elem)

/-- `block` is what `sqlite3Malloc` returns for the element, `extra` as for `rehash`. -/
def sqlite3HashInsert (H : Hash) (pKey : List UInt8) (data : ℕ) (block extra : Option ℕ) :
    Option (ℕ × Hash) :=
  let h := if H.htsize ≠ 0 then slotOf H.htsize pKey else 0
  match findElementGivenHash H pKey h with
  | some elem =>
    let old_data := H.data elem
    if data = 0 then
      match removeElementGivenHash H elem h with
      | none => none
      | some H => some (old_data, H)
    else
      some (old_data, { H with
        data := Function.update H.data elem data
        pKey := Function.update H.pKey elem pKey })
  | none =>
    if data = 0 then some (0, H)
    else
      match block with
      | none => some (data, H)
      | some new_elem =>
        match addElement H pKey data new_elem h extra with
        | none => none
        | some H => some (0, H)

def sqlite3HashInit : Hash where
  htsize := 0
  count := 0
  first := none
  ht := none
  next _ := none
  prev _ := none
  data _ := 0
  pKey _ := []
  live _ := false

end Sqlite.HashTable
