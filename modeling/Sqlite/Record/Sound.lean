import Sqlite.Record.Read
import Sqlite.Record.Serial

/-! Columns of records that were made: when the values come back. -/
namespace Sqlite.Record


section

/-! `OP_MakeRecord` writes the format, a tail of zero bytes left to the b-tree layer. -/

/-- `sqlite3VdbeMemExpandBlob`, which is called for a zero tail behind other bytes only. -/
def Mem.expandBlob (m : Mem) : Mem :=
  if m.zero ∧ 0 < m.n then
    { m with zero := false, z := m.z ++ List.replicate m.nZero 0, n := m.n + m.nZero }
  else m

theorem Mem.Valid.expandBlob {m : Mem} (h : m.Valid) : m.expandBlob.Valid := by
  unfold Mem.expandBlob
  split_ifs with hzero
  · have hsize := h.size_lt
    have hz := h.length_z (Or.inr (h.zero hzero.1).1)
    exact { h with
      length_z := fun _ => by simp [hz]
      zero := fun hf => by simp at hf
      size_lt := by simpa [Mem.size, hzero.1] using hsize }
  · exact h

theorem value_expandBlob {m : Mem} (h : m.Valid) : m.expandBlob.value = m.value := by
  unfold Mem.expandBlob
  split_ifs with hzero
  · obtain ⟨-, hnull, hint, hreal, hstr⟩ := h.zero hzero.1
    simp [Mem.value, hnull, hint, hreal, hstr, hzero.1]
  · exact Eq.refl _

def Register.expandBlob (r : Register) : Register := ⟨r.mem.expandBlob, r.valid.expandBlob⟩

/-- The sums of the first loop over the registers. -/
structure Sizes where
  nData : ℕ := 0
  nHdr : ℕ := 0
  nZero : ℤ := 0

/-- `nZero` is a signed number of thirty-two bits. -/
def Sizes.add (file_format : ℕ) (s : Sizes) (r : Register) : Sizes :=
  let serial_type := sqlite3VdbeSerialType r.mem file_format
  let len := sqlite3VdbeSerialTypeLen serial_type
  { nData := s.nData + len
    nHdr := s.nHdr + sqlite3VarintLen serial_type
    nZero :=
      if r.mem.zero then Int.bmod (s.nZero + r.mem.nZero) (2 ^ 32)
      else if len ≠ 0 then 0 else s.nZero }

/-- The contents, written from the offset `i` of a record of `nByte` bytes. -/
def putContents (file_format : ℕ) (nByte : ℤ) : ℕ → List Register → Option Bytes
  | _, [] => some []
  | i, r :: rs => do
    let b ← sqlite3VdbeSerialPut (Int.bmod (nByte - i) (2 ^ 32)) r.mem file_format
    let rest ← putContents file_format nByte (i + b.length) rs
    some (b ++ rest)

/-- The blob in the output register. -/
structure Blob where
  z : Bytes
  nZero : ℕ

/-- What is stored for a blob. -/
def Blob.payload (b : Blob) : Bytes := b.z ++ List.replicate b.nZero 0

section
variable (applyAffinity : UInt8 → Register → Register)

/-- The register `k` after its affinity was applied. -/
def withAffinity (zAffinity : Option Bytes) (k : ℕ) (r : Register) : Register :=
  match zAffinity with
  | none => r
  | some aff => applyAffinity (aff.getD k 0) r

/-- The registers as the record has them. -/
def storedRegisters (zAffinity : Option Bytes) (pData0 : List Register) : List Register :=
  pData0.mapIdx fun k r => (withAffinity applyAffinity zAffinity k r).expandBlob

/-- The result is `none` for a record that is too big, and where an assertion fails. -/
def opMakeRecord (limit : Fin (2 ^ 31)) (zAffinity : Option Bytes) (file_format : ℕ)
    (pData0 : List Register) : Option Blob :=
  let data := storedRegisters applyAffinity zAffinity pData0
  let s := data.foldl (Sizes.add file_format) {}
  let nHdr := headerSize s.nHdr
  let nByte : ℤ := nHdr + s.nData - s.nZero
  if (limit.val : ℤ) < nByte then none
  else
    let hdr := putVarint32 nHdr ++
      data.flatMap fun r => putVarint32 (sqlite3VdbeSerialType r.mem file_format)
    (putContents file_format nByte hdr.length data).bind fun body =>
      if (hdr.length + body.length : ℕ) = nByte then
        some { z := hdr ++ body, nZero := s.nZero.toNat }
      else none

end

theorem sizes_foldl (file_format : ℕ) (data : List Register) (s : Sizes) :
    (data.foldl (Sizes.add file_format) s).nHdr =
        s.nHdr + (types (data.map (Register.field file_format))).length ∧
      (data.foldl (Sizes.add file_format) s).nData =
        s.nData + (contents (data.map (Register.field file_format))).length := by
  induction data generalizing s with
  | nil => simp [types, contents]
  | cons r data ih =>
    obtain ⟨hhdr, hdata⟩ := ih (s.add file_format r)
    have htype := length_typeVarint (r.field file_format)
    have hcontent := (r.field file_format).length_content
    rw [List.foldl_cons, hhdr, hdata, List.map_cons, types_cons, contents_cons, List.length_append,
      List.length_append, htype, hcontent]
    simp only [Sizes.add, Register.field]
    omega

/-- The contents are written whole up to the end of the buffer, and only zeros are left out. -/
theorem putContents_spec {file_format : ℕ} {nByte : ℤ} (hlt : nByte < 2 ^ 31) {data : List Register}
    {i : ℕ} {out : Bytes} (hfit : (i + out.length : ℕ) ≤ nByte)
    (h : putContents file_format nByte i data = some out) :
    ∃ k, contents (data.map (Register.field file_format)) = out ++ List.replicate k 0 := by
  induction data generalizing i out with
  | nil =>
    have hout : [] = out := by simpa [putContents] using h
    exact ⟨0, by simp [contents, ← hout]⟩
  | cons r data ih =>
    simp only [putContents, Option.bind_eq_bind, Option.bind_eq_some_iff, Option.some.injEq] at h
    obtain ⟨b, hb, rest, hrest, rfl⟩ := h
    rw [List.length_append] at hfit
    have hmod : Int.bmod (nByte - i) (2 ^ 32) = nByte - i :=
      Int.bmod_eq_of_le (by omega) (by omega)
    rw [hmod] at hb
    obtain ⟨k, hcontent, hk⟩ := serialPut_spec r.valid (by omega) (by omega) hb
    obtain ⟨l, hl⟩ := ih (by omega) hrest
    rw [List.map_cons, contents_cons, hl]
    change ∃ k, r.mem.content file_format ++ _ = _
    rw [hcontent]
    rcases hk with rfl | hk
    · exact ⟨l, by simp⟩
    · have hnil : rest = [] := List.eq_nil_of_length_eq_zero (by omega)
      refine ⟨k + l, ?_⟩
      simp [hnil, List.replicate_append_replicate]

/-- A record that was made is stored as the format of its values. -/
theorem opMakeRecord_spec {applyAffinity : UInt8 → Register → Register} {limit : Fin (2 ^ 31)}
    {zAffinity : Option Bytes} {file_format : ℕ} {pData0 : List Register} {b : Blob}
    (h : opMakeRecord applyAffinity limit zAffinity file_format pData0 = some b) :
    b.payload = encode ((storedRegisters applyAffinity zAffinity pData0).map
      (Register.field file_format)) := by
  dsimp only [opMakeRecord] at h
  generalize storedRegisters applyAffinity zAffinity pData0 = data at h ⊢
  obtain ⟨hhdr, hdata⟩ := sizes_foldl file_format data {}
  generalize data.foldl (Sizes.add file_format) {} = s at h hhdr hdata
  simp only [zero_add] at hhdr hdata
  split_ifs at h with hlimit
  simp only [Option.bind_eq_some_iff] at h
  obtain ⟨body, hbody, h⟩ := h
  split_ifs at h with hlen
  have hflat : (data.flatMap fun r => putVarint32 (sqlite3VdbeSerialType r.mem file_format)) =
      types (data.map (Register.field file_format)) := by
    simp [types, List.flatMap_map, Register.field, putVarint32_eq]
  rw [hflat, putVarint32_eq, hhdr] at h hbody hlen
  rw [hhdr] at hlimit
  have hlt := limit.isLt
  obtain ⟨k, hk⟩ := putContents_spec (by omega) hlen.le hbody
  rw [List.length_append] at hlen
  have hheader := length_header (data.map (Register.field file_format)) (by omega)
  unfold hdrSize at hheader
  rw [hk, List.length_append, List.length_replicate] at hdata
  rw [List.length_append] at hheader
  have hzero : s.nZero.toNat = k := by omega
  rw [← Option.some.inj h, Blob.payload, encode, hk, hzero, hdrSize]
  simp

end

/-- A cursor that comes to a record. -/
def cursorOn (b : Blob) (isIndex : Bool) (nField : ℕ) {usableSize : ℕ} (h : 480 ≤ usableSize) :
    Cursor where
  isIndex := isIndex
  nField := nField
  usableSize := usableSize
  payload := b.payload
  usable_ge := h

/-- The cursor stays on the record while columns are read and the parsed header gets stale. -/
inductive Reaches (bigEndian : Bool) (start : Cursor) : Cursor → Prop
  | start : Reaches bigEndian start start
  | column {c c' : Cursor} {call : Call} {m : Mem} : Reaches bigEndian start c →
      opColumn bigEndian c call = .ok (m, c') → Reaches bigEndian start c'
  | stale {c : Cursor} : Reaches bigEndian start c →
      Reaches bigEndian start { c with header := none }

/-- A cursor on a stored record, with a header that was parsed there. -/
structure Cursor.On (c : Cursor) (fields : List Field) : Prop where
  payload : c.payload = encode fields
  header : ∀ h, c.header = some h → parseHeader c = .ok h

def result (bigEndian : Bool) (c : Cursor) (call : Call) : Except Err Mem :=
  (opColumn bigEndian c call).map Prod.fst

/-- `length()`: the characters of a text and the digits of a number are counted elsewhere. -/
def lengthFunc (chars : Bytes → ℕ) (digits : Value → ℕ) (m : Mem) : Option ℕ :=
  match sqlite3VdbeMemStoreType m with
  | .null => none
  | .text => some (chars m.z)
  | .blob => some m.size
  | _ => some (digits m.value)

/-- The value comes back, and the flags do not change what they are for. -/
def ColumnOk (bigEndian : Bool) (chars : Bytes → ℕ) (digits : Value → ℕ) (c : Cursor) (call : Call)
    (v : Value) : Prop :=
  ∃ m, result bigEndian c (call.withFlags false false) = .ok m ∧
    m.value = v ∧
    (∀ lengthArg, ∃ m',
      result bigEndian c (call.withFlags true lengthArg) = .ok m' ∧
        sqlite3VdbeMemStoreType m' = sqlite3VdbeMemStoreType m) ∧
    ∃ m', result bigEndian c (call.withFlags false true) = .ok m' ∧
      lengthFunc chars digits m' = lengthFunc chars digits m

/-- The value of a column: that of the register, else the default. -/
def columnValue (regs : List Register) (call : Call) : Value :=
  match regs[call.p2]? with
  | some r => r.mem.value
  | none => (call.p4.getD { null := true }).value

/-- When a column can be read: the record and its header are not too long, the columns of the
cursor do not fill the buffer for the header, the size of the value fits into its serial type, and
a real number on overflow pages meets no memory that spells something that is not a number. -/
structure Readable (bigEndian : Bool) (file_format : ℕ) (regs : List Register) (c : Cursor)
    (call : Call) : Prop where
  size : c.payload.length ≤ call.limit
  header : hdrSize (regs.map (Register.field file_format)) ≤ 98307
  room : ¬ HeaderFull c.nField (regs.map (Register.field file_format))
  fits : ∀ r, regs[call.p2]? = some r → r.mem.Fits
  number : ∀ r, regs[call.p2]? = some r → sqlite3VdbeSerialType r.mem file_format = 7 →
    c.aRow = none → ¬ sqlite3IsNaN (Foundation.beNat (payloadSize64 bigEndian c call))

theorem Cursor.On.of_start {c : Cursor} {fields : List Field} (hp : c.payload = encode fields)
    (hh : c.header = none) : c.On fields where
  payload := hp
  header := by simp [hh]

theorem parseHeader_payloadSize {c : Cursor} {h : Header} (hh : parseHeader c = .ok h) :
    h.payloadSize = c.payload.length := by
  unfold parseHeader at hh
  split at hh
  · simp at hh
  · split_ifs at hh
    simp only [bind, Except.bind] at hh
    split at hh
    · simp at hh
    · split at hh
      · simp at hh
      · split_ifs at hh
        rw [← Except.ok.inj hh]

theorem Cursor.On.payloadSize {c : Cursor} {fields : List Field} (hon : c.On fields) :
    c.payloadSize = c.payload.length := by
  unfold Cursor.payloadSize
  cases hh : c.header with
  | none => simp
  | some h => exact parseHeader_payloadSize (hon.header h hh)

theorem Cursor.On.parsed {c : Cursor} {fields : List Field} (hon : c.On fields) :
    c.parsed = parseHeader c := by
  unfold Cursor.parsed
  cases hh : c.header with
  | none => simp
  | some h => exact (hon.header h hh).symm

theorem encode_pos (fields : List Field) : 0 < (encode fields).length := by
  have hhdr := headerSize_eq (types fields).length
  have hpos := varintLen_pos (headerSize (types fields).length)
  by_contra hnil
  have hencode : encode fields = [] := List.length_eq_zero_iff.mp (by omega)
  have hlen := length_hdrVarint fields (by
    rw [hencode]
    decide)
  have hpos' := varintLen_pos (hdrSize fields)
  simp only [encode, List.append_eq_nil_iff] at hencode
  rw [hencode.1.1] at hlen
  simp at hlen
  omega

/-- The header is parsed again where it is not there, with the same result. -/
theorem opColumn_eq (bigEndian : Bool) {c : Cursor} {fields : List Field} (hon : c.On fields)
    (call : Call) : opColumn bigEndian c call =
      if call.limit.val < c.payload.length then .error .toobig
      else (parseHeader c).bind fun h => (readColumn bigEndian c call h).bind fun m =>
        .ok (m, { c with header := some h }) := by
  have hpos := encode_pos fields
  rw [← hon.payload] at hpos
  unfold opColumn
  rw [hon.payloadSize, hon.parsed, if_neg (by omega)]
  exact Eq.refl _

theorem Cursor.On.column {bigEndian : Bool} {c c' : Cursor} {fields : List Field} {call : Call}
    {m : Mem} (hon : c.On fields) (h : opColumn bigEndian c call = .ok (m, c')) : c'.On fields := by
  rw [opColumn_eq bigEndian hon] at h
  split_ifs at h
  cases hp : parseHeader c with
  | error e => simp [hp, Except.bind] at h
  | ok hdr =>
    rw [hp] at h
    simp only [Except.bind] at h
    split at h
    · simp at h
    · simp only [Except.ok.injEq, Prod.mk.injEq] at h
      rw [← h.2]
      exact ⟨hon.payload, fun h' hh => by rw [← Option.some.inj hh]; exact hp⟩

theorem Reaches.nField_eq {bigEndian : Bool} {start c : Cursor} (h : Reaches bigEndian start c) :
    c.nField = start.nField := by
  induction h with
  | start => simp
  | column _ hcall ih =>
    rw [← ih]
    unfold opColumn at hcall
    split_ifs at hcall
    · simp only [Except.ok.injEq, Prod.mk.injEq] at hcall
      rw [← hcall.2]
    · simp only [bind, Except.bind] at hcall
      split at hcall
      · simp at hcall
      · split at hcall
        · simp at hcall
        · simp only [Except.ok.injEq, Prod.mk.injEq] at hcall
          rw [← hcall.2]
  | stale _ ih => exact ih

theorem Reaches.on {bigEndian : Bool} {start c : Cursor} {fields : List Field}
    (hstart : start.On fields) (h : Reaches bigEndian start c) : c.On fields := by
  induction h with
  | start => exact hstart
  | column _ hcall ih => exact ih.column hcall
  | stale _ ih => exact .of_start ih.payload rfl

section
variable {bigEndian : Bool} {chars : Bytes → ℕ} {digits : Value → ℕ} {file_format : ℕ}
  {regs : List Register} {c : Cursor} {call : Call}

theorem result_of_parsed {fields : List Field} (hon : c.On fields)
    (hlimit : c.payload.length ≤ call.limit) (hparse : parseHeader c = .ok (c.headerOf fields)) :
    result bigEndian c call = readColumn bigEndian c call (c.headerOf fields) := by
  rw [result, opColumn_eq bigEndian hon, if_neg (not_lt.mpr hlimit), hparse]
  dsimp only [Except.bind]
  cases readColumn bigEndian c call (c.headerOf fields) <;> simp [Except.map]

/-- A call that answers has parsed a header. -/
theorem parsed_of_result {fields : List Field} (hon : c.On fields) {m : Mem}
    (h : result bigEndian c call = .ok m) :
    c.payload.length ≤ call.limit ∧ hdrSize fields ≤ 98307 ∧ ¬ HeaderFull c.nField fields ∧
      parseHeader c = .ok (c.headerOf fields) := by
  rw [result, opColumn_eq bigEndian hon] at h
  have hlt := call.limit.isLt
  by_cases hlimit : call.limit.val < c.payload.length
  · simp [hlimit, Except.map] at h
  rw [if_neg hlimit] at h
  obtain ⟨hbad, hgood⟩ := parseHeader_spec hon.payload (by omega)
  by_cases hcorrupt : 98307 < hdrSize fields ∨ HeaderFull c.nField fields
  · rw [hbad hcorrupt] at h
    simp [Except.bind, Except.map] at h
  · obtain ⟨hhdr, hroom⟩ := not_or.mp hcorrupt
    exact ⟨not_lt.mp hlimit, not_lt.mp hhdr, hroom, hgood (not_lt.mp hhdr) hroom⟩

/-- What the flag for `typeof` makes of a field on overflow pages: its class is that of the serial
type, unless the memory read in place of a real number is not a number. -/
theorem shortcut_typeof {t : ℕ}
    (hnum : t = 7 → ¬ sqlite3IsNaN (Foundation.beNat (payloadSize64 bigEndian c call))) :
    ∃ m, sqlite3VdbeSerialGet (if t < 12 then some (payloadSize64 bigEndian c call) else none) t =
      some m ∧ sqlite3VdbeMemStoreType m = serialValueType t := by
  have h8 := length_payloadSize64 bigEndian c call
  by_cases ht : t < 12
  · have hlen : ∀ t < 12, sqlite3VdbeSerialTypeLen t ≤ 8 := by decide
    obtain ⟨m, hm⟩ := serialGet_isSome (b := payloadSize64 bigEndian c call) (t := t)
      (by rw [h8]; exact hlen t ht)
    rw [if_pos ht]
    refine ⟨m, hm, storeType_serialGet hm ?_⟩
    intro b hb h7
    rw [← Option.some.inj hb, List.take_of_length_le (by omega)]
    exact hnum h7
  · rw [if_neg ht]
    have hsome : ∃ m, sqlite3VdbeSerialGet none t = some m := by
      dsimp only [sqlite3VdbeSerialGet]
      rw [if_neg (by omega), if_neg (by omega), if_pos (by omega)]
      simp
    obtain ⟨m, hm⟩ := hsome
    exact ⟨m, hm, storeType_serialGet hm (by simp)⟩

/-- What the flag for `length` makes of a blob on overflow pages. -/
theorem shortcut_length (bigEndian : Bool) (chars : Bytes → ℕ) (digits : Value → ℕ) (c : Cursor)
    (call : Call) {t : ℕ} (ht : 12 ≤ t ∧ t % 2 = 0) {m : Mem} {b : Bytes}
    (hm : sqlite3VdbeSerialGet (some b) t = some m) :
    ∃ m', sqlite3VdbeSerialGet (if t < 12 then some (payloadSize64 bigEndian c call) else none) t =
      some m' ∧ lengthFunc chars digits m' = lengthFunc chars digits m := by
  rw [if_neg (by omega)]
  have hsome : ∃ m', sqlite3VdbeSerialGet none t = some m' := by
    dsimp only [sqlite3VdbeSerialGet]
    rw [if_neg (by omega), if_neg (by omega), if_pos ht.1]
    simp
  obtain ⟨m', hm'⟩ := hsome
  refine ⟨m', hm', ?_⟩
  have hblob : serialValueType t = .blob := by
    rw [serialValueType, if_neg (by omega), if_pos ht.1, if_neg (by omega)]
  have htype := storeType_serialGet hm (by omega)
  have htype' := storeType_serialGet hm' (by simp)
  have hn := n_serialGet ht.1 hm
  have hn' := n_serialGet ht.1 hm'
  simp [lengthFunc, htype, htype', hblob, Mem.size, hn, hn', zero_serialGet hm, zero_serialGet hm']

theorem columnOk_of_readable (hon : c.On (regs.map (Register.field file_format)))
    (hp : call.p2 < c.nField) (h : Readable bigEndian file_format regs c call) :
    ColumnOk bigEndian chars digits c call (columnValue regs call) := by
  have hlt := call.limit.isLt
  have hlimit := h.size
  have hsize : c.payload.length < 2 ^ 32 := by omega
  have hparse := (parseHeader_spec hon.payload hsize).2 h.header h.room
  have hresult : ∀ typeofArg lengthArg,
      result bigEndian c (call.withFlags typeofArg lengthArg) =
        readColumn bigEndian c (call.withFlags typeofArg lengthArg)
          (c.headerOf (regs.map (Register.field file_format))) :=
    fun _ _ => result_of_parsed hon h.size hparse
  unfold ColumnOk columnValue
  cases hk : regs[call.p2]? with
  | none =>
    have hfield : (regs.map (Register.field file_format))[call.p2]? = none := by simp [hk]
    have hread : ∀ typeofArg lengthArg,
        result bigEndian c (call.withFlags typeofArg lengthArg) =
          .ok (call.p4.getD { null := true }) := by
      intro typeofArg lengthArg
      rw [hresult]
      exact readColumn_default bigEndian (call.withFlags typeofArg lengthArg) hp hfield
    exact ⟨_, hread _ _, rfl, fun _ => ⟨_, hread _ _, rfl⟩, _, hread _ _, rfl⟩
  | some r =>
    have hfield : (regs.map (Register.field file_format))[call.p2]? = some (r.field file_format) := by
      simp [hk]
    obtain ⟨m, hget, hvalue⟩ := serialGet_content r.valid (h.fits r hk) file_format
    have htype : sqlite3VdbeMemStoreType m =
        serialValueType (sqlite3VdbeSerialType r.mem file_format) := by
      rw [storeType_eq_of_value hvalue]
      exact storeType_of_fits r.valid (h.fits r hk) file_format
    have hcontent : ∀ typeofArg lengthArg,
        (c.aRow = none → ¬ Shortcut (call.withFlags typeofArg lengthArg)
          (sqlite3VdbeSerialType r.mem file_format)) →
        result bigEndian c (call.withFlags typeofArg lengthArg) = .ok m := by
      intro typeofArg lengthArg hno
      rw [hresult, readColumn_field bigEndian (call.withFlags typeofArg lengthArg) hp hfield]
      exact readField_content bigEndian (call.withFlags typeofArg lengthArg) hon.payload hsize hfield
        hget hno
    have hshort : ∀ typeofArg lengthArg m', c.aRow = none →
        Shortcut (call.withFlags typeofArg lengthArg)
          (sqlite3VdbeSerialType r.mem file_format) →
        sqlite3VdbeSerialGet (if sqlite3VdbeSerialType r.mem file_format < 12 then
          some (payloadSize64 bigEndian c call) else none) (sqlite3VdbeSerialType r.mem file_format) =
            some m' →
        result bigEndian c (call.withFlags typeofArg lengthArg) = .ok m' := by
      intro typeofArg lengthArg m' hrow hshort hm'
      rw [hresult, readColumn_field bigEndian (call.withFlags typeofArg lengthArg) hp hfield]
      exact readField_shortcut bigEndian (call.withFlags typeofArg lengthArg) _ _ hrow hshort hm'
    refine ⟨m, hcontent false false (by simp [Shortcut, Call.withFlags]), hvalue, ?_, ?_⟩
    · intro lengthArg
      by_cases hrow : c.aRow = none
      · obtain ⟨m', hm', htype'⟩ := shortcut_typeof (fun h7 => h.number r hk h7 hrow)
        exact ⟨m', hshort true lengthArg m' hrow (by simp [Shortcut, Call.withFlags]) hm',
          htype'.trans htype.symm⟩
      · exact ⟨m, hcontent true lengthArg (fun hnone => absurd hnone hrow), rfl⟩
    · by_cases hrow : c.aRow = none ∧ 12 ≤ sqlite3VdbeSerialType r.mem file_format ∧
          sqlite3VdbeSerialType r.mem file_format % 2 = 0
      · obtain ⟨m', hm', hlen⟩ := shortcut_length bigEndian chars digits c call hrow.2 hget
        exact ⟨m', hshort false true m' hrow.1 (by simpa [Shortcut, Call.withFlags] using hrow.2) hm', hlen⟩
      · exact ⟨m, hcontent false true (fun hnone hs => hrow ⟨hnone, by simpa [Shortcut, Call.withFlags] using hs⟩), rfl⟩

theorem readable_of_columnOk (hon : c.On (regs.map (Register.field file_format)))
    (hp : call.p2 < c.nField) (h : ColumnOk bigEndian chars digits c call (columnValue regs call)) :
    Readable bigEndian file_format regs c call := by
  obtain ⟨m, hm, hvalue, htypeof, -⟩ := h
  obtain ⟨hlimit, hhdr, hroom, hparse⟩ := parsed_of_result hon hm
  have hlt := call.limit.isLt
  have hlimit' : c.payload.length ≤ call.limit := hlimit
  have hsize : c.payload.length < 2 ^ 32 := by omega
  -- the value of a field is that of its content
  have hget : ∀ r, regs[call.p2]? = some r → sqlite3VdbeSerialGet (some (r.mem.content file_format))
      (sqlite3VdbeSerialType r.mem file_format) = some m := by
    intro r hk
    have hfield : (regs.map (Register.field file_format))[call.p2]? = some (r.field file_format) := by
      simp [hk]
    obtain ⟨m', hm'⟩ := serialGet_isSome (b := r.mem.content file_format)
      (length_content r.valid file_format).ge
    have hread := readField_content bigEndian (call.withFlags false false) hon.payload hsize hfield hm'
      (by simp [Shortcut, Call.withFlags])
    rw [result_of_parsed hon hlimit hparse,
      readColumn_field bigEndian (call.withFlags false false) hp hfield, hread] at hm
    rw [hm', Except.ok.inj hm]
  refine ⟨hlimit', hhdr, hroom, ?_, ?_⟩
  · intro r hk
    by_contra hfits
    apply value_ne_of_not_fits r.valid hfits (hget r hk)
    rw [hvalue, columnValue, hk]
  · intro r hk h7 hrow hnan
    have hfield : (regs.map (Register.field file_format))[call.p2]? = some (r.field file_format) := by
      simp [hk]
    have hfits : r.mem.Fits := by
      by_contra hfits
      apply value_ne_of_not_fits r.valid hfits (hget r hk)
      rw [hvalue, columnValue, hk]
    have hfloat : sqlite3VdbeMemStoreType m = .float := by
      have hv : m.value = r.mem.value := by rw [hvalue, columnValue, hk]
      rw [storeType_eq_of_value hv, storeType_of_fits r.valid hfits file_format, h7]
      decide
    obtain ⟨m', hm', htype⟩ := htypeof false
    have hnull : sqlite3VdbeSerialGet (if (7 : ℕ) < 12 then
        some (payloadSize64 bigEndian c (call.withFlags true false)) else none)
          7 = some { null := true, r := Foundation.beNat (payloadSize64 bigEndian c call) } := by
      have h8 := length_payloadSize64 bigEndian c call
      have hlen : sqlite3VdbeSerialTypeLen 7 = 8 := by decide
      have htake : (payloadSize64 bigEndian c call).take 8 = payloadSize64 bigEndian c call :=
        List.take_of_length_le (by omega)
      change sqlite3VdbeSerialGet (some (payloadSize64 bigEndian c call)) 7 = _
      simp [sqlite3VdbeSerialGet, hlen, h8, htake, hnan]
    have hread := fun off => readField_shortcut bigEndian (call.withFlags true false)
      (regs.map (Register.field file_format)) off hrow (by simp [Shortcut, Call.withFlags]) hnull
    have h7' : (r.field file_format).serial_type = 7 := h7
    have hlimit'' : c.payload.length ≤ (call.withFlags true false).limit := hlimit
    rw [result_of_parsed hon hlimit'' hparse,
      readColumn_field bigEndian (call.withFlags true false) hp hfield, h7', hread] at hm'
    rw [← Except.ok.inj hm', hfloat] at htype
    simp [sqlite3VdbeMemStoreType] at htype

end

/-- What the registers hold that go into a record. -/
def affinityRegisters (applyAffinity : UInt8 → Register → Register) (zAffinity : Option Bytes)
    (pData0 : List Register) : List Register :=
  pData0.mapIdx fun k r => withAffinity applyAffinity zAffinity k r

theorem storedRegisters_eq (applyAffinity : UInt8 → Register → Register) (zAffinity : Option Bytes)
    (pData0 : List Register) : storedRegisters applyAffinity zAffinity pData0 =
      (affinityRegisters applyAffinity zAffinity pData0).map Register.expandBlob := by
  apply List.ext_getElem?
  intro k
  simp [storedRegisters, affinityRegisters, Function.comp_def]

theorem columnValue_expandBlob (regs : List Register) (call : Call) :
    columnValue (regs.map Register.expandBlob) call = columnValue regs call := by
  unfold columnValue
  rw [List.getElem?_map]
  cases regs[call.p2]? with
  | none => simp
  | some r => exact value_expandBlob r.valid

/-- Every column of a record that was made comes back, whatever was read before it, exactly when
it is readable. -/
theorem column_round_trip_iff (applyAffinity : UInt8 → Register → Register) (chars : Bytes → ℕ)
    (digits : Value → ℕ) (bigEndian : Bool) (limit : Fin (2 ^ 31)) (zAffinity : Option Bytes)
    (file_format : ℕ) (pData0 : List Register) (b : Blob)
    (hmake : opMakeRecord applyAffinity limit zAffinity file_format pData0 = some b)
    (isIndex : Bool) (nField usableSize : ℕ) (husable : 480 ≤ usableSize) (c : Cursor)
    (hc : Reaches bigEndian (cursorOn b isIndex nField husable) c) (call : Call)
    (hp : call.p2 < nField) :
    ColumnOk bigEndian chars digits c call
        (columnValue (affinityRegisters applyAffinity zAffinity pData0) call) ↔
      Readable bigEndian file_format (storedRegisters applyAffinity zAffinity pData0) c call := by
  have hpayload := opMakeRecord_spec hmake
  have hstart : (cursorOn b isIndex nField husable).On
      ((storedRegisters applyAffinity zAffinity pData0).map (Register.field file_format)) :=
    .of_start hpayload rfl
  have hon := hc.on hstart
  have hcols := hc.nField_eq
  have hvalue : columnValue (affinityRegisters applyAffinity zAffinity pData0) call =
      columnValue (storedRegisters applyAffinity zAffinity pData0) call := by
    rw [storedRegisters_eq, columnValue_expandBlob]
  have hp' : call.p2 < c.nField := by
    rw [hcols]
    exact hp
  rw [hvalue]
  exact ⟨readable_of_columnOk hon hp', columnOk_of_readable hon hp'⟩

theorem valid_int (i : Fin 1000) : Mem.Valid { int := true, i := Int.ofNat i.val } := by
  constructor <;> simp [Mem.size]
  all_goals omega

theorem valid_zeros (nZero : Fin 1000) :
    Mem.Valid { blob := true, zero := true, nZero := nZero.val } := by
  constructor <;> simp [Mem.size]
  omega

/-- An integer and a blob of zeros, as registers. -/
def intRegister (i : Fin 1000) : Register where
  mem := { int := true, i := Int.ofNat i.val }
  valid := valid_int i

def zeroRegister (nZero : Fin 1000) : Register where
  mem := { blob := true, zero := true, nZero := nZero.val }
  valid := valid_zeros nZero

theorem column_round_trip_zeros :
    ColumnOk false List.length (fun _ => 1) (cursorOn ⟨[3, 1, 52, 5], 20⟩ true 3 (le_refl 480))
      { p2 := 1, limit := 1000, memory := 0 } (.blob (List.replicate 20 0)) :=
  (column_round_trip_iff (fun _ r => r) List.length (fun _ => 1) false 1000 none 4
    [intRegister 5, zeroRegister 20] ⟨[3, 1, 52, 5], 20⟩ (by rfl) true 3 480 (le_refl 480) _ .start
    { p2 := 1, limit := 1000, memory := 0 } (by decide)).mpr
    { size := by decide
      header := by decide
      room := fun h => absurd h.1 (by decide)
      fits := by
        intro r hr
        have hmem : r = (zeroRegister 20).expandBlob := by
          simpa [storedRegisters, withAffinity] using hr.symm
        rw [hmem]
        exact Or.inr (Or.inr (Or.inr (by decide)))
      number := fun _ _ _ hrow => absurd hrow (by decide) }

/-- Two blobs of zeros whose sizes the check of `OP_MakeRecord` leaves out are stored and never
read: each is within the limit on lengths, both together are not. -/
theorem column_too_big : ¬ ∀ (applyAffinity : UInt8 → Register → Register) (chars : Bytes → ℕ)
    (digits : Value → ℕ) (bigEndian : Bool) (limit : Fin (2 ^ 31)) (zAffinity : Option Bytes)
    (file_format : ℕ) (pData0 : List Register) (b : Blob),
    opMakeRecord applyAffinity limit zAffinity file_format pData0 = some b →
    ∀ (isIndex : Bool) (nField usableSize : ℕ) (husable : 480 ≤ usableSize) (c : Cursor),
    Reaches bigEndian (cursorOn b isIndex nField husable) c →
    ∀ call : Call, call.p2 < nField → call.limit = limit →
    ColumnOk bigEndian chars digits c call
      (columnValue (affinityRegisters applyAffinity zAffinity pData0) call) := by
  intro h
  obtain ⟨m, hm, -⟩ := h (fun _ r => r) List.length (fun _ => 1) false 30 none 4
    [zeroRegister 20, zeroRegister 20] ⟨[3, 52, 52], 40⟩ (by rfl) false 2 480 (le_refl 480) _ .start
    { p2 := 0, limit := 30, memory := 0 } (by decide) rfl
  have hbig : result false (cursorOn ⟨[3, 52, 52], 40⟩ false 2 (le_refl 480))
      (Call.withFlags { p2 := 0, limit := 30, memory := 0 } false false) = .error .toobig := by rfl
  rw [hbig] at hm
  simp at hm

end Sqlite.Record
