import Sqlite.Foundation.Binary64
import Sqlite.Foundation.Compare
import Sqlite.Record.Read
import Sqlite.Utf.Model

/-! Comparison of two values, of a record with an unpacked one, and the unpacking itself. -/
namespace Sqlite.Record
open Sqlite.Foundation

/-! Values on their own: what is written under a serial type is read back. -/

def MEM_Int : ℤ := 0x0004

/-- The decoder as it stands: a comment hides the byte that case 1 is to read, and what is cast to
`signed char` instead is the assignment of the flags behind it. -/
def serialGetAsWritten (buf : Option Bytes) (serial_type : ℕ) : Option Mem :=
  if serial_type = 1 then some { int := true, i := MEM_Int }
  else sqlite3VdbeSerialGet buf serial_type

/-- A buffer with room for the content gets all of it. -/
theorem serialPut_room {m : Mem} (hm : m.Valid) (file_format : ℕ) {nBuf : ℤ}
    (hroom : (m.content file_format).length ≤ nBuf) (hlt : nBuf < 2 ^ 31) :
    sqlite3VdbeSerialPut nBuf m file_format = some (m.content file_format) := by
  have hmod : nBuf % 2 ^ 32 = nBuf := Int.emod_eq_of_lt (by omega) (by omega)
  have hlen := length_content hm file_format
  rw [hlen] at hroom
  unfold sqlite3VdbeSerialPut
  dsimp only
  rw [hmod]
  by_cases hsmall : 0 < sqlite3VdbeSerialType m file_format ∧ sqlite3VdbeSerialType m file_format ≤ 7
  · rw [if_pos hsmall, if_pos hroom, content_of_small m file_format hsmall.1 hsmall.2]
  rw [if_neg hsmall]
  by_cases hlarge : 12 ≤ sqlite3VdbeSerialType m file_format
  · have htype := (serialType_of_ge hm hlarge).2.2.2
    have hsize : m.size = sqlite3VdbeSerialTypeLen (sqlite3VdbeSerialType m file_format) := by
      rw [sqlite3VdbeSerialTypeLen, if_pos hlarge, htype]
      split_ifs <;> omega
    have hle : m.n ≤ m.size := by simp [Mem.size]
    have hmin : min m.size nBuf.toNat = m.size := by omega
    rw [if_pos hlarge, if_pos ⟨hsize, by omega⟩, hmin, content_of_ge hlarge]
  · dsimp only [Mem.content]
    rw [if_neg hlarge, if_neg hsmall, if_neg hlarge]

/-- The widths of an integer: `k` bytes are for a magnitude below `2 ^ (8 * k - 1)`. -/
theorem intType_width {i : ℤ} (hlo : -2 ^ 63 ≤ i) (hhi : i < 2 ^ 63) {file_format : ℕ}
    (hconst : ¬ (4 ≤ file_format ∧ (i = 0 ∨ i = 1))) {k : ℕ} (hk : k ∈ [1, 2, 3, 4, 6, 8]) :
    sqlite3VdbeSerialTypeLen (intType i file_format) ≤ k ↔
      (i.natAbs < 2 ^ (8 * k - 1) ∨ k = 8) := by
  have hbit : ¬ (4 ≤ file_format ∧ i % 2 = i) := fun h => hconst ⟨h.1, by omega⟩
  unfold intType MAX_6BYTE
  rw [if_neg hbit]
  dsimp only
  simp only [List.mem_cons, List.not_mem_nil, or_false] at hk
  rcases hk with rfl | rfl | rfl | rfl | rfl | rfl <;> split_ifs <;>
    simp [sqlite3VdbeSerialTypeLen] <;> omega

/-- A value is written whole under its serial type, and read back with its class unless it is an
integer of one byte. The width of an integer is the least that holds its magnitude. -/
theorem serial_round_trip (r : Register) (hfits : r.mem.Fits) (file_format : ℕ) (nBuf : ℤ)
    (hroom : sqlite3VdbeSerialTypeLen (sqlite3VdbeSerialType r.mem file_format) ≤ nBuf)
    (hlt : nBuf < 2 ^ 31) (rest : Bytes) :
    ∃ b, sqlite3VdbeSerialPut nBuf r.mem file_format = some b ∧
      b.length = sqlite3VdbeSerialTypeLen (sqlite3VdbeSerialType r.mem file_format) ∧
      (sqlite3VdbeSerialType r.mem file_format ≠ 1 → ∃ m,
        serialGetAsWritten (some (b ++ rest)) (sqlite3VdbeSerialType r.mem file_format) = some m ∧
          m.value = r.mem.value ∧ sqlite3VdbeMemStoreType m = sqlite3VdbeMemStoreType r.mem) ∧
      ∀ i, r.mem.value = .int i →
        if 4 ≤ file_format ∧ (i = 0 ∨ i = 1) then
          sqlite3VdbeSerialType r.mem file_format = 8 + i.toNat
        else ∀ k ∈ [1, 2, 3, 4, 6, 8],
          sqlite3VdbeSerialTypeLen (sqlite3VdbeSerialType r.mem file_format) ≤ k ↔
            (i.natAbs < 2 ^ (8 * k - 1) ∨ k = 8) := by
  have hlen := length_content r.valid file_format
  refine ⟨_, serialPut_room r.valid file_format (by rw [hlen]; exact hroom) hlt, hlen, ?_, ?_⟩
  · intro h1
    obtain ⟨m, hget, hvalue⟩ := serialGet_content r.valid hfits file_format
    rw [serialGetAsWritten, if_neg h1, serialGet_append hlen]
    exact ⟨m, hget, hvalue, storeType_eq_of_value hvalue⟩
  · intro i hi
    have hint : ¬ r.mem.null ∧ r.mem.int ∧ r.mem.i = i := by
      unfold Mem.value at hi
      split_ifs at hi with h1 h2
      exact ⟨h1, h2, by simpa using hi⟩
    obtain ⟨hnull, hflag, rfl⟩ := hint
    have htype : sqlite3VdbeSerialType r.mem file_format = intType r.mem.i file_format := by
      rw [sqlite3VdbeSerialType, if_neg hnull, if_pos hflag]
    have hlo := r.valid.int_ge hflag
    have hhi := r.valid.int_lt hflag
    rw [htype]
    split_ifs with hconst
    · have hbit : 4 ≤ file_format ∧ r.mem.i % 2 = r.mem.i := ⟨hconst.1, by omega⟩
      rw [intType, if_pos hbit]
    · intro k hk
      exact intType_width hlo hhi hconst hk

/-- The text `AB` in a register. -/
def textRegister : Register where
  mem := { str := true, z := [65, 66], n := 2 }
  valid := by constructor <;> simp [Mem.size]

theorem serial_round_trip_text :
    ∃ b, sqlite3VdbeSerialPut 2 textRegister.mem 1 = some b ∧ b.length = 2 ∧
      ∃ m, serialGetAsWritten (some (b ++ [7])) 17 = some m ∧ m.value = .text [65, 66] := by
  obtain ⟨b, hput, hlen, hget, -⟩ := serial_round_trip textRegister
    (Or.inr (Or.inr (Or.inr (by decide)))) 1 2 (by decide) (by decide) [7]
  obtain ⟨m, hm, hvalue, -⟩ := hget (by decide)
  exact ⟨b, hput, hlen, m, hm, hvalue⟩

/-- The least value of one byte gets two bytes. -/
theorem serial_wide : sqlite3VdbeSerialType { int := true, i := -128 } 1 = 2 ∧
    sqlite3VdbeSerialTypeLen 1 = 1 ∧ beInt (beBytes 1 ((-128 % 2 ^ 64 : ℤ).toNat)) = -128 := by
  decide

/-- A collating sequence: its function is for texts in the encoding `enc`. -/
structure CollSeq where
  enc : Utf.Enc
  xCmp : Bytes → Bytes → ℤ

structure KeyInfo where
  enc : Utf.Enc
  nField : ℕ
  aSortOrder : Option (List Bool)
  aColl : List (Option CollSeq)
  length_aColl : aColl.length = nField
  length_aSortOrder : ∀ l ∈ aSortOrder, l.length = nField
  /-- `SQLITE_MAX_COLUMN` must not exceed this. -/
  nField_le : nField ≤ 32767

structure UnpackedRecord where
  pKeyInfo : KeyInfo
  nField : ℕ
  incrkey : Bool := false
  prefixMatch : Bool := false
  prefixSearch : Bool := false
  rowid : ℤ := 0
  aMem : List Mem

/-- The first difference among the bytes that both have. -/
def memcmp : Bytes → Bytes → ℤ
  | x :: xs, y :: ys => if x = y then memcmp xs ys else (x.toNat : ℤ) - y.toNat
  | _, _ => 0

/-- Also for texts without a collating sequence. -/
def blobCompare (pMem1 pMem2 : Mem) : ℤ :=
  let n := min pMem1.n pMem2.n
  let rc := memcmp (pMem1.z.take n) (pMem2.z.take n)
  if rc = 0 then (pMem1.n : ℤ) - pMem2.n else rc

/-- The comparison of two numbers in the processor. -/
def doubleLt (r1 r2 : ℕ) : Bool :=
  ¬ sqlite3IsNaN r1 ∧ ¬ sqlite3IsNaN r2 ∧ Binary64.units r1 < Binary64.units r2

/-- `-rc` in thirty-two bits. -/
def negInt (rc : ℤ) : ℤ := Int.bmod (-rc) (2 ^ 32)

/-- What one field of a record is compared with. -/
def KeyInfo.coll (k : KeyInfo) (i : ℕ) : Option CollSeq :=
  if i < k.nField then k.aColl.getD i none else none

def KeyInfo.desc (k : KeyInfo) (i : ℕ) : Bool :=
  match k.aSortOrder with
  | none => false
  | some aSortOrder => i < k.nField ∧ aSortOrder.getD i false

section
variable (toDouble : ℤ → ℕ) (sqlite3ValueText : Utf.Enc → Utf.Enc → Bytes → Option Bytes)

/-- A collating function gets the texts in its own encoding. The text of a conversion that gives
a null pointer has the length zero. -/
def collate (enc : Utf.Enc) (c : CollSeq) (z1 z2 : Bytes) : ℤ :=
  if enc = c.enc then c.xCmp z1 z2
  else c.xCmp ((sqlite3ValueText enc c.enc z1).getD []) ((sqlite3ValueText enc c.enc z2).getD [])

/-- Both values have texts in the encoding `enc`. -/
def sqlite3MemCompare (pMem1 pMem2 : Mem) (enc : Utf.Enc) (pColl : Option CollSeq) : ℤ :=
  if pMem1.null ∨ pMem2.null then (pMem2.null.toNat : ℤ) - pMem1.null.toNat
  else if pMem1.int ∨ pMem1.real ∨ pMem2.int ∨ pMem2.real then
    if ¬ (pMem1.int ∨ pMem1.real) then 1
    else if ¬ (pMem2.int ∨ pMem2.real) then -1
    else if ¬ (pMem1.int ∧ pMem2.int) then
      let r1 := if ¬ pMem1.real then toDouble pMem1.i else pMem1.r
      let r2 := if ¬ pMem2.real then toDouble pMem2.i else pMem2.r
      if doubleLt r1 r2 then -1 else if doubleLt r2 r1 then 1 else 0
    else if pMem1.i < pMem2.i then -1
    else if pMem1.i > pMem2.i then 1
    else 0
  else if pMem1.str ∨ pMem2.str then
    if ¬ pMem1.str then 1
    else if ¬ pMem2.str then -1
    else
      match pColl with
      | some c => collate sqlite3ValueText enc c pMem1.z pMem2.z
      | none => blobCompare pMem1 pMem2
  else blobCompare pMem1 pMem2

variable (serialGet : Option Bytes → ℕ → Option Mem)

/-- The loop, with room for `k` more fields. -/
def unpackLoop (aKey : Bytes) (szHdr : ℕ) : ℕ → ℕ → ℕ → Option (List Mem)
  | 0, _, _ => some []
  | k + 1, idx, d =>
    if idx < szHdr ∧ d ≤ aKey.length then do
      let (serial_type, n) ← getVarint32 (aKey.drop idx)
      let m ← serialGet (some (aKey.drop d)) serial_type
      let rest ← unpackLoop aKey szHdr k (idx + n) (d + sqlite3VdbeSerialTypeLen serial_type)
      some (m :: rest)
    else some []

/-- The result is `none` where bytes behind the end are read. -/
def sqlite3VdbeRecordUnpack (pKeyInfo : KeyInfo) (aKey : Bytes) : Option UnpackedRecord := do
  let (szHdr, idx) ← getVarint32 aKey
  let aMem ← unpackLoop serialGet aKey szHdr (pKeyInfo.nField + 1) idx szHdr
  some { pKeyInfo := pKeyInfo, nField := aMem.length, aMem := aMem }

/-- One of the records ran out of fields. -/
def tieResult (pPKey2 : UnpackedRecord) (more : Bool) : ℤ :=
  if pPKey2.incrkey then -1 else if pPKey2.prefixMatch then 0 else if more then 1 else 0

/-- Field `i` made the difference. A search for a prefix gets the rowid from the last one. -/
def fieldResult (pPKey2 : UnpackedRecord) (i : ℕ) (atEnd : Bool) (mem1 : Mem) (rc : ℤ) :
    Option (ℤ × UnpackedRecord) :=
  if pPKey2.prefixSearch ∧ i + 1 = pPKey2.nField then
    if atEnd ∧ rc ≠ 0 ∧ mem1.int then
      some (rc, { pPKey2 with prefixSearch := false, rowid := mem1.i })
    else none
  else some (rc, pPKey2)

/-- The loop, with `k` fields of the unpacked record left. -/
def compareLoop (pPKey2 : UnpackedRecord) (aKey1 : Bytes) (szHdr1 : ℕ) :
    ℕ → ℕ → ℕ → ℕ → Option (ℤ × UnpackedRecord)
  | 0, _, idx1, _ => some (tieResult pPKey2 (idx1 < szHdr1), pPKey2)
  | k + 1, i, idx1, d1 =>
    if idx1 < szHdr1 then do
      let (serial_type1, n) ← getVarint32 (aKey1.drop idx1)
      if aKey1.length ≤ d1 ∧ 0 < sqlite3VdbeSerialTypeLen serial_type1 then
        some (tieResult pPKey2 (idx1 + n < szHdr1), pPKey2)
      else
        let mem1 ← serialGet (some (aKey1.drop d1)) serial_type1
        let mem2 ← pPKey2.aMem[i]?
        let rc := sqlite3MemCompare toDouble sqlite3ValueText mem1 mem2 pPKey2.pKeyInfo.enc
          (pPKey2.pKeyInfo.coll i)
        if rc ≠ 0 then
          fieldResult pPKey2 i (idx1 + n = szHdr1) mem1
            (if pPKey2.pKeyInfo.desc i then negInt rc else rc)
        else
          compareLoop pPKey2 aKey1 szHdr1 k (i + 1) (idx1 + n)
            (d1 + sqlite3VdbeSerialTypeLen serial_type1)
    else some (tieResult pPKey2 (idx1 < szHdr1), pPKey2)

/-- The result and what became of the unpacked record; `none` where an assertion fails or bytes
behind the end are read. -/
def sqlite3VdbeRecordCompare (aKey1 : Bytes) (pPKey2 : UnpackedRecord) :
    Option (ℤ × UnpackedRecord) := do
  let (szHdr1, idx1) ← getVarint32 aKey1
  compareLoop toDouble sqlite3ValueText serialGet pPKey2 aKey1 szHdr1 pPKey2.nField 0 idx1 szHdr1

/-- A record is compared with one that was unpacked. -/
def compareUnpacked (pKeyInfo : KeyInfo) (aKey1 aKey2 : Bytes) : Option ℤ := do
  let pPKey2 ← sqlite3VdbeRecordUnpack serialGet pKeyInfo aKey2
  let (rc, _) ← sqlite3VdbeRecordCompare toDouble sqlite3ValueText serialGet aKey1 pPKey2
  some rc

end

end Sqlite.Record
