import Sqlite.Record.Decode
import Sqlite.Record.Serial

/-! `OP_Column` on a cursor that points to a record. -/
namespace Sqlite.Record

inductive Err
  | corrupt
  | toobig
  /-- Bytes behind the end of a buffer are read, or an assertion fails. -/
  | fault
  deriving DecidableEq

/-- Bytes of a payload on the page of its cell. -/
def nLocal (isIndex : Bool) (usableSize nPayload : ℕ) : ℕ :=
  let minLocal := (usableSize - 12) * 32 / 255 - 23
  let maxLocal := if isIndex then (usableSize - 12) * 64 / 255 - 23 else usableSize - 35
  if nPayload ≤ maxLocal then nPayload
  else
    let surplus := minLocal + (nPayload - minLocal) % (usableSize - 4)
    if surplus ≤ maxLocal then surplus else minLocal

/-- An entry of `aType` and `aOffset`. -/
structure Slot where
  aType : ℕ
  aOffset : ℕ
  deriving DecidableEq

/-- The parsed header that a cursor keeps. -/
structure Header where
  payloadSize : ℕ
  aRow : Option Bytes
  slots : List Slot
  deriving DecidableEq

/-- A cursor on a record: `header` is there while `cacheStatus` says so. -/
structure Cursor where
  isIndex : Bool
  nField : ℕ
  usableSize : ℕ
  payload : Bytes
  header : Option Header := none
  usable_ge : 480 ≤ usableSize

def Cursor.avail (c : Cursor) : ℕ := nLocal c.isIndex c.usableSize c.payload.length

/-- `sqlite3BtreeKeyFetch` and `sqlite3BtreeDataFetch`: the payload as far as it is on the page. -/
def Cursor.fetch (c : Cursor) : Bytes := c.payload.take c.avail

/-- Both ways to get bytes: from the page, or copied over the overflow pages. -/
def sqlite3VdbeMemFromBtree (c : Cursor) (offset amt : ℕ) : Except Err Bytes :=
  if offset + amt ≤ c.avail then .ok ((c.fetch.drop offset).take amt)
  else if offset + amt ≤ c.payload.length then .ok ((c.payload.drop offset).take amt)
  else .error .corrupt

/-- The loop over the `n` fields that are left: it stops to read at `len`, and an overflow of
`offset` ends it with an index behind `len`. An entry that is not read keeps its old type. -/
def parseFields (zData : Bytes) (len : ℕ) : ℕ → ℕ → ℕ → Except Err (List Slot × ℕ × ℕ)
  | 0, zIdx, offset => .ok ([], zIdx, offset)
  | n + 1, zIdx, offset =>
    if zIdx < len then
      match getVarint32 (zData.drop zIdx) with
      | none => .error .fault
      | some (t, k) =>
        let szField := sqlite3VdbeSerialTypeLen t
        let offset' := (offset + szField) % 2 ^ 32
        if offset' < szField then .ok ([⟨t, offset⟩], len + 1, offset')
        else (parseFields zData len n (zIdx + k) offset').map fun r => (⟨t, offset⟩ :: r.1, r.2)
    else (parseFields zData len n zIdx offset).map fun r => (⟨0, 0⟩ :: r.1, r.2)

/-- The record, if all of it is on the page. -/
def Cursor.aRow (c : Cursor) : Option Bytes :=
  if c.payload.length ≤ c.avail then some c.fetch else none

/-- The bytes that the first `len` bytes of the header are read from. -/
def headerBytes (c : Cursor) (len : ℕ) : Except Err Bytes :=
  if c.aRow = none ∧ c.avail < len then sqlite3VdbeMemFromBtree c 0 len else .ok c.fetch

def parseHeader (c : Cursor) : Except Err Header :=
  match getVarint32 c.fetch with
  | none => .error .fault
  | some (offset, szHdr) =>
    if 98307 < offset then .error .corrupt
    else do
      let len := min (c.nField * 5 + 3) offset
      let zData ← headerBytes c len
      let (slots, zIdx, offset) ← parseFields zData len c.nField szHdr offset
      if len < zIdx ∨ c.payload.length < offset ∨ (zIdx = len ∧ offset ≠ c.payload.length) then
        .error .corrupt
      else .ok { payloadSize := c.payload.length, aRow := c.aRow, slots }

/-- One execution of the opcode: its operands, the flags in `P5`, the limit on lengths at the time
and the eight bytes that the memory of `payloadSize64` holds at the start. -/
structure Call where
  p2 : ℕ
  p4 : Option Mem := none
  typeofArg : Bool := false
  lengthArg : Bool := false
  limit : Fin (2 ^ 31)
  memory : ℕ

/-- The same call with other flags in `P5`. -/
def Call.withFlags (call : Call) (typeofArg lengthArg : Bool) : Call :=
  { call with typeofArg := typeofArg, lengthArg := lengthArg }

/-- The memory of `payloadSize64`, which is set for an index without a parsed header. -/
def payloadSize64 (bigEndian : Bool) (c : Cursor) (call : Call) : Bytes :=
  if c.header = none ∧ c.isIndex then
    let size := Sqlite.Foundation.beBytes 8 c.payload.length
    if bigEndian then size else size.reverse
  else Sqlite.Foundation.beBytes 8 call.memory

/-- The cell for the field of an entry. -/
def readField (bigEndian : Bool) (c : Cursor) (call : Call) (h : Header) (slot : Slot) :
    Except Err Mem :=
  let get := fun buf => match sqlite3VdbeSerialGet buf slot.aType with
    | none => .error .fault
    | some m => .ok m
  match h.aRow with
  | some zRec => get (some (zRec.drop slot.aOffset))
  | none =>
    if (call.lengthArg ∨ call.typeofArg) ∧
        ((12 ≤ slot.aType ∧ slot.aType % 2 = 0) ∨ call.typeofArg) then
      get (if slot.aType < 12 then some (payloadSize64 bigEndian c call) else none)
    else do
      let zData ← sqlite3VdbeMemFromBtree c slot.aOffset (sqlite3VdbeSerialTypeLen slot.aType)
      get (some zData)

def Cursor.payloadSize (c : Cursor) : ℕ :=
  match c.header with
  | some h => h.payloadSize
  | none => c.payload.length

def Cursor.parsed (c : Cursor) : Except Err Header :=
  match c.header with
  | some h => .ok h
  | none => parseHeader c

/-- The cell for the column `p2`. -/
def readColumn (bigEndian : Bool) (c : Cursor) (call : Call) (h : Header) : Except Err Mem :=
  match h.slots[call.p2]? with
  | none => .error .fault
  | some slot =>
    if slot.aOffset ≠ 0 then readField bigEndian c call h slot
    else .ok (call.p4.getD { null := true })

/-- The result register and the cursor with its parsed header. -/
def opColumn (bigEndian : Bool) (c : Cursor) (call : Call) : Except Err (Mem × Cursor) :=
  if c.payloadSize = 0 then .ok ({ null := true }, c)
  else if call.limit.val < c.payloadSize then .error .toobig
  else do
    let h ← c.parsed
    let m ← readColumn bigEndian c call h
    .ok (m, { c with header := some h })

end Sqlite.Record
