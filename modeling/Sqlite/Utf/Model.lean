import Mathlib.Data.List.Basic
import Mathlib.Data.Int.Basic

/-! Translation of text between UTF-8 and the two byte orders of UTF-16. A read pointer is the list
of the bytes from it to the end of the input, and an output buffer the list of the bytes that were
written. A result `none` is an access outside of a buffer, or an assert that fails. -/
namespace Sqlite.Utf

inductive Rc
  | SQLITE_OK
  | SQLITE_NOMEM
  deriving DecidableEq

inductive Enc
  | SQLITE_UTF8
  | SQLITE_UTF16LE
  | SQLITE_UTF16BE
  deriving DecidableEq

def sqlite3Utf8Trans1 : List ℕ := [
  0x00, 0x01, 0x02, 0x03, 0x04, 0x05, 0x06, 0x07,
  0x08, 0x09, 0x0a, 0x0b, 0x0c, 0x0d, 0x0e, 0x0f,
  0x10, 0x11, 0x12, 0x13, 0x14, 0x15, 0x16, 0x17,
  0x18, 0x19, 0x1a, 0x1b, 0x1c, 0x1d, 0x1e, 0x1f,
  0x00, 0x01, 0x02, 0x03, 0x04, 0x05, 0x06, 0x07,
  0x08, 0x09, 0x0a, 0x0b, 0x0c, 0x0d, 0x0e, 0x0f,
  0x00, 0x01, 0x02, 0x03, 0x04, 0x05, 0x06, 0x07,
  0x00, 0x01, 0x02, 0x03, 0x00, 0x01, 0x00, 0x00]

def WRITE_UTF8 (c : ℕ) : List UInt8 :=
  if c < 0x80 then [.ofNat (c &&& 0xFF)]
  else if c < 0x800 then
    [.ofNat (0xC0 + ((c >>> 6) &&& 0x1F)), .ofNat (0x80 + (c &&& 0x3F))]
  else if c < 0x10000 then
    [.ofNat (0xE0 + ((c >>> 12) &&& 0x0F)), .ofNat (0x80 + ((c >>> 6) &&& 0x3F)),
      .ofNat (0x80 + (c &&& 0x3F))]
  else
    [.ofNat (0xF0 + ((c >>> 18) &&& 0x07)), .ofNat (0x80 + ((c >>> 12) &&& 0x3F)),
      .ofNat (0x80 + ((c >>> 6) &&& 0x3F)), .ofNat (0x80 + (c &&& 0x3F))]

/-- The macros that write UTF-16 put the low and the high byte of a unit in different order. -/
def writeUtf16 (unit : UInt8 → UInt8 → List UInt8) (c : ℕ) : List UInt8 :=
  if c ≤ 0xFFFF then unit (.ofNat (c &&& 0xFF)) (.ofNat ((c >>> 8) &&& 0xFF))
  else
    unit (.ofNat (((c >>> 10) &&& 0x3F) + (((c - 0x10000) >>> 10) &&& 0xC0)))
        (.ofNat (0xD8 + (((c - 0x10000) >>> 18) &&& 0x03))) ++
      unit (.ofNat (c &&& 0xFF)) (.ofNat (0xDC + ((c >>> 8) &&& 0x03)))

def WRITE_UTF16LE : ℕ → List UInt8 := writeUtf16 (fun lo hi => [lo, hi])

def WRITE_UTF16BE : ℕ → List UInt8 := writeUtf16 (fun lo hi => [hi, lo])

/-- The macros that read UTF-16, with the value of the first two bytes as a unit. `TERM` is
`zIn<zTerm`. -/
def readUtf16 (unit : UInt8 → UInt8 → ℕ) : List UInt8 → Option (ℕ × List UInt8)
  | b0 :: b1 :: zIn =>
    let c := unit b0 b1
    if 0xD800 ≤ c ∧ c < 0xE000 ∧ zIn ≠ [] then
      match zIn with
      | b2 :: b3 :: zIn =>
        let c2 := unit b2 b3
        some ((c2 &&& 0x03FF) + ((c &&& 0x003F) <<< 10) + (((c &&& 0x03C0) + 0x0040) <<< 10), zIn)
      | _ => none
    else some (c, zIn)
  | _ => none

def READ_UTF16LE : List UInt8 → Option (ℕ × List UInt8) :=
  readUtf16 (fun b0 b1 => b0.toNat + (b1.toNat <<< 8))

def READ_UTF16BE : List UInt8 → Option (ℕ × List UInt8) :=
  readUtf16 (fun b0 b1 => (b0.toNat <<< 8) + b1.toNat)

/-- The loop of `READ_UTF8` over the bytes that continue a character. -/
def utf8Tail : ℕ → List UInt8 → ℕ × List UInt8
  | c, [] => (c, [])
  | c, b :: zIn =>
    if b.toNat &&& 0xc0 = 0x80 then utf8Tail (((c <<< 6) + (0x3f &&& b.toNat)) % 4294967296) zIn
    else (c, b :: zIn)

def READ_UTF8 : List UInt8 → Option (ℕ × List UInt8)
  | [] => none
  | b :: zIn =>
    if 0xc0 ≤ b.toNat then
      match sqlite3Utf8Trans1[b.toNat - 0xc0]? with
      | none => none
      | some c =>
        let r := utf8Tail c zIn
        if r.1 < 0x80 ∨ r.1 &&& 0xFFFFF800 = 0xD800 ∨ r.1 &&& 0xFFFFFFFE = 0xFFFE then
          some (0xFFFD, r.2)
        else some r
    else some (b.toNat, zIn)

/-- A loop that reads characters and writes them to `z`, which has room for `size` bytes, for at
most `n` characters. -/
def transLoop (read : List UInt8 → Option (ℕ × List UInt8)) (write : ℕ → List UInt8) (size : ℕ) :
    ℕ → List UInt8 → List UInt8 → Option (List UInt8)
  | _, [], z => some z
  | 0, _ :: _, _ => none
  | n + 1, b :: zIn, z =>
    match read (b :: zIn) with
    | none => none
    | some (c, zIn) =>
      if z.length + (write c).length ≤ size then
        transLoop read write size n zIn (z ++ write c)
      else none

/-- The loop that swaps the bytes of each unit. -/
def swapLoop : List UInt8 → Option (List UInt8)
  | [] => some []
  | [_] => none
  | a :: b :: zIn => (swapLoop zIn).map (fun z => b :: a :: z)

/-- The value that is stored into an `int`. -/
def i32 (x : ℤ) : ℤ := (x + 2147483648) % 4294967296 - 2147483648

/-- The memory allocator in use; a block has the size that was asked for, or more. -/
structure MemMethods where
  xMalloc : ℕ → Option ℕ
  room : ∀ n size, xMalloc n = some size → n ≤ size

/-- What the allocation of memory looks at: the lookaside slots have `sz` bytes, and `pFree` tells
whether one is free. -/
structure Db where
  mallocFailed : Bool
  bEnabled : Bool
  sz : UInt16
  pFree : Bool

/-- `z` holds the `n` bytes of the text. `zMalloc` is the size of the block of that name, zero for
a null pointer, and `own` tells whether `z` points to it. `xDel` tells whether there is a destructor.
The flags are those that a translation reads or writes. -/
structure Mem where
  z : List UInt8
  enc : Enc
  zMalloc : ℕ
  own : Bool
  xDel : Bool
  isNull : Bool
  term : Bool
  dyn : Bool
  static : Bool
  ephem : Bool

variable (mem : MemMethods) (db : Option Db)

def sqlite3Malloc (n : ℤ) : Option ℕ :=
  if n ≤ 0 ∨ 0x7fffff00 ≤ n then none else mem.xMalloc n.toNat

/-- The size of the block, where there is one. -/
def sqlite3DbMallocRaw (n : ℤ) : Option ℕ :=
  match db with
  | none => sqlite3Malloc mem n
  | some db =>
    if db.mallocFailed then none
    else if db.bEnabled ∧ n ≤ db.sz.toNat ∧ db.pFree then some db.sz.toNat
    else sqlite3Malloc mem n

/-- The block that `sqlite3VdbeMemGrow` uses. -/
def growBlock (pMem : Mem) (n : ℤ) : Option ℕ :=
  let n := if n < 32 then 32 else n
  if (pMem.zMalloc : ℤ) < n then sqlite3DbMallocRaw mem db n else some pMem.zMalloc

/-- With `preserve`, for a text that is not in `zMalloc`. -/
def sqlite3VdbeMemGrow (pMem : Mem) (n : ℤ) : Option (Rc × Mem) :=
  match growBlock mem db pMem n with
  | none =>
    some (.SQLITE_NOMEM,
      ⟨[], pMem.enc, 0, true, false, true, false, false, false, false⟩)
  | some size =>
    if pMem.z.length ≤ size then
      some (.SQLITE_OK,
        { pMem with zMalloc := size, own := true, xDel := false, ephem := false, static := false })
    else none

def sqlite3VdbeMemMakeWriteable (pMem : Mem) : Option (Rc × Mem) :=
  if pMem.own = false then
    match sqlite3VdbeMemGrow mem db pMem (i32 (pMem.z.length + 2)) with
    | none => none
    | some (rc, pMem) =>
      if rc ≠ .SQLITE_OK then some (.SQLITE_NOMEM, pMem)
      else if pMem.z.length + 2 ≤ pMem.zMalloc then some (.SQLITE_OK, { pMem with term := true })
      else none
  else some (.SQLITE_OK, pMem)

/-- `n&~1` -/
def evenLen (n : ℕ) : ℕ := n / 2 * 2

/-- The bytes of the terminator. -/
def termLen : Enc → ℕ
  | .SQLITE_UTF8 => 1
  | _ => 2

def readOf : Enc → List UInt8 → Option (ℕ × List UInt8)
  | .SQLITE_UTF8 => READ_UTF8
  | .SQLITE_UTF16LE => READ_UTF16LE
  | .SQLITE_UTF16BE => READ_UTF16BE

def writeOf : Enc → ℕ → List UInt8
  | .SQLITE_UTF8 => WRITE_UTF8
  | .SQLITE_UTF16LE => WRITE_UTF16LE
  | .SQLITE_UTF16BE => WRITE_UTF16BE

/-- The branch that swaps the byte order. -/
def translateSwap (pMem : Mem) (desiredEnc : Enc) : Option (Rc × Mem) :=
  match sqlite3VdbeMemMakeWriteable mem db pMem with
  | none => none
  | some (rc, pMem) =>
    if rc ≠ .SQLITE_OK then some (.SQLITE_NOMEM, pMem)
    else
      let n := evenLen pMem.z.length
      (swapLoop (pMem.z.take n)).map
        (fun z => (.SQLITE_OK, { pMem with z := z ++ pMem.z.drop n, enc := desiredEnc }))

/-- The input of the loops that write to a new buffer: `n` is made even for UTF-16. -/
def inputOf (pMem : Mem) (desiredEnc : Enc) : List UInt8 :=
  if desiredEnc = .SQLITE_UTF8 then pMem.z.take (evenLen pMem.z.length) else pMem.z

/-- The branch that writes to a new buffer. -/
def translateCopy (pMem : Mem) (desiredEnc : Enc) : Option (Rc × Mem) :=
  let pMem := { pMem with z := inputOf pMem desiredEnc }
  let len := i32 (pMem.z.length * 2 + termLen desiredEnc)
  match sqlite3DbMallocRaw mem db len with
  | none => some (.SQLITE_NOMEM, pMem)
  | some size =>
    match transLoop (readOf pMem.enc) (writeOf desiredEnc) size pMem.z.length pMem.z [] with
    | none => none
    | some z =>
      if z.length + termLen desiredEnc ≤ size ∧ (z.length : ℤ) + termLen desiredEnc ≤ len then
        some (.SQLITE_OK, ⟨z, desiredEnc, size, true, false, pMem.isNull, true, true, false, false⟩)
      else none

def sqlite3VdbeMemTranslate (pMem : Mem) (desiredEnc : Enc) : Option (Rc × Mem) :=
  if pMem.enc ≠ .SQLITE_UTF8 ∧ desiredEnc ≠ .SQLITE_UTF8 then translateSwap mem db pMem desiredEnc
  else translateCopy mem db pMem desiredEnc

end Sqlite.Utf
