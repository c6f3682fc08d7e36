import Sqlite.Foundation.BigEndian
import Sqlite.Record.Varint

/-! Values of memory cells, their serial types and their bytes in a record. -/
namespace Sqlite.Record
open Sqlite.Foundation

/-- A memory cell: its flags, the number `u.i`, the bits of `r`, and the `n` bytes at `z`. -/
structure Mem where
  null : Bool := false
  int : Bool := false
  real : Bool := false
  str : Bool := false
  blob : Bool := false
  zero : Bool := false
  i : ℤ := 0
  nZero : ℕ := 0
  r : ℕ := 0
  z : Bytes := []
  n : ℕ := 0
  deriving DecidableEq

/-- What a cell means. A number is given by its bits where it is not an integer. -/
inductive Value
  | null
  | int (i : ℤ)
  | real (r : ℕ)
  | text (z : Bytes)
  | blob (z : Bytes)
  deriving DecidableEq

/-- The order of the tests in `sqlite3VdbeMemStoreType`. -/
def Mem.value (m : Mem) : Value :=
  if m.null then .null
  else if m.int then .int m.i
  else if m.real then .real m.r
  else if m.str then .text m.z
  else .blob (m.z ++ List.replicate (if m.zero then m.nZero else 0) 0)

/-- Sixty-four bits that are not a number. -/
def sqlite3IsNaN (r : ℕ) : Bool := r / 2 ^ 52 % 2 ^ 11 = 2047 ∧ r % 2 ^ 52 ≠ 0

/-- Bytes of a text or blob, with those of the zero tail. -/
def Mem.size (m : Mem) : ℕ := m.n + if m.zero then m.nZero else 0

structure Mem.Valid (m : Mem) : Prop where
  typed : m.null ∨ m.int ∨ m.real ∨ m.str ∨ m.blob
  int_ge : m.int → -2 ^ 63 ≤ m.i
  int_lt : m.int → m.i < 2 ^ 63
  real_lt : m.real → m.r < 2 ^ 64
  real_num : m.real → ¬ sqlite3IsNaN m.r
  length_z : m.str ∨ m.blob → m.z.length = m.n
  zero : m.zero → m.blob ∧ ¬ m.null ∧ ¬ m.int ∧ ¬ m.real ∧ ¬ m.str
  size_lt : m.size < 2 ^ 31

/-- A register that holds a value. -/
structure Register where
  mem : Mem
  valid : mem.Valid

def MAX_6BYTE : ℤ := 2 ^ 47 - 1

/-- The serial type of an integer. -/
def intType (i : ℤ) (file_format : ℕ) : ℕ :=
  if 4 ≤ file_format ∧ i % 2 = i then 8 + i.toNat
  else if i < -MAX_6BYTE then 6
  else
    let u := i.natAbs
    if u ≤ 127 then 1
    else if u ≤ 32767 then 2
    else if u ≤ 8388607 then 3
    else if u ≤ 2147483647 then 4
    else if u ≤ MAX_6BYTE then 5
    else 6

def sqlite3VdbeSerialType (m : Mem) (file_format : ℕ) : ℕ :=
  if m.null then 0
  else if m.int then intType m.i file_format
  else if m.real then 7
  else (m.size * 2 + 12 + if m.str then 1 else 0) % 2 ^ 32

def sqlite3VdbeSerialTypeLen (serial_type : ℕ) : ℕ :=
  if 12 ≤ serial_type then (serial_type - 12) / 2
  else [0, 1, 2, 3, 4, 6, 8, 8, 0, 0, 0, 0].getD serial_type 0

/-- The number whose low bytes go into the record: `u.i` as an unsigned one, or the bits of `r`. -/
def Mem.bits (m : Mem) (serial_type : ℕ) : ℕ :=
  if serial_type = 7 then m.r else (m.i % 2 ^ 64).toNat

/-- The bytes written to a buffer of `nBuf` bytes; `none` where an assertion fails. -/
def sqlite3VdbeSerialPut (nBuf : ℤ) (m : Mem) (file_format : ℕ) : Option Bytes :=
  let serial_type := sqlite3VdbeSerialType m file_format
  let len := sqlite3VdbeSerialTypeLen serial_type
  if 0 < serial_type ∧ serial_type ≤ 7 then
    if len ≤ nBuf % 2 ^ 32 then some (beBytes len (m.bits serial_type)) else none
  else if 12 ≤ serial_type then
    if m.size = len ∧ m.n ≤ nBuf then
      -- the zero tail only as far as the buffer goes
      some (m.z ++ List.replicate (min m.size (nBuf % 2 ^ 32).toNat - m.n) 0)
    else none
  else some []

/-- The cell for the bytes at `buf`, which is `none` for a null pointer. The result is `none`
where bytes behind the end are read. -/
def sqlite3VdbeSerialGet (buf : Option Bytes) (serial_type : ℕ) : Option Mem :=
  let len := sqlite3VdbeSerialTypeLen serial_type
  if serial_type = 0 ∨ serial_type = 10 ∨ serial_type = 11 then some { null := true }
  else if serial_type = 8 ∨ serial_type = 9 then some { int := true, i := serial_type - 8 }
  else if 12 ≤ serial_type then
    let isText := serial_type % 2 = 1
    match buf with
    | none => some { str := isText, blob := ¬ isText, n := len }
    | some b =>
      if len ≤ b.length then
        some { str := isText, blob := ¬ isText, z := b.take len, n := len }
      else none
  else
    match buf with
    | none => none
    | some b =>
      if len ≤ b.length then
        if serial_type = 7 then
          let x := beNat (b.take len)
          some (if sqlite3IsNaN x then { null := true, r := x } else { real := true, r := x })
        -- one, two, three, four, six and eight bytes
        else some { int := true, i := beInt (b.take len) }
      else none

/-- The bytes of a value as the format has them, the zero tail included. -/
def Mem.content (m : Mem) (file_format : ℕ) : Bytes :=
  let serial_type := sqlite3VdbeSerialType m file_format
  if 0 < serial_type ∧ serial_type ≤ 7 then
    beBytes (sqlite3VdbeSerialTypeLen serial_type) (m.bits serial_type)
  else if 12 ≤ serial_type then m.z ++ List.replicate (m.size - m.n) 0
  else []

/-- The serial type of a text or blob is that of its size: thirty-two bits are enough for it. -/
def Mem.Fits (m : Mem) : Prop :=
  m.null ∨ m.int ∨ m.real ∨ m.size * 2 + 12 + (if m.str then 1 else 0) < 2 ^ 32

theorem intType_cases {i : ℤ} (hlo : -2 ^ 63 ≤ i) (hhi : i < 2 ^ 63) (file_format : ℕ) :
    (intType i file_format = 8 ∧ i = 0) ∨ (intType i file_format = 9 ∧ i = 1) ∨
      (1 ≤ intType i file_format ∧ intType i file_format ≤ 6 ∧
        -(256 ^ sqlite3VdbeSerialTypeLen (intType i file_format) : ℤ) ≤ 2 * i ∧
        2 * i < 256 ^ sqlite3VdbeSerialTypeLen (intType i file_format)) := by
  unfold intType MAX_6BYTE
  by_cases hbit : 4 ≤ file_format ∧ i % 2 = i
  · rw [if_pos hbit]
    have hbits : i = 0 ∨ i = 1 := by omega
    rcases hbits with rfl | rfl <;> simp
  · rw [if_neg hbit]
    dsimp only
    split_ifs
    all_goals right; right
    all_goals simp [sqlite3VdbeSerialTypeLen]
    all_goals omega

theorem serialType_lt (m : Mem) (hm : m.Valid) (file_format : ℕ) :
    sqlite3VdbeSerialType m file_format < 2 ^ 32 := by
  unfold sqlite3VdbeSerialType
  split_ifs with hnull hint hreal
  · decide
  · have hcases := intType_cases (hm.int_ge hint) (hm.int_lt hint) file_format
    omega
  · decide
  all_goals exact Nat.mod_lt _ (by decide)

/-- The sizes of text and blobs are below the modulus by less than a serial type of twelve. -/
theorem serialType_of_ge {m : Mem} (hm : m.Valid) {file_format : ℕ}
    (h : 12 ≤ sqlite3VdbeSerialType m file_format) :
    ¬ m.null ∧ ¬ m.int ∧ ¬ m.real ∧
      sqlite3VdbeSerialType m file_format = m.size * 2 + 12 + if m.str then 1 else 0 := by
  have hsize := hm.size_lt
  unfold sqlite3VdbeSerialType at h ⊢
  by_cases hnull : m.null
  · simp [hnull] at h
  by_cases hint : m.int
  · have hcases := intType_cases (hm.int_ge hint) (hm.int_lt hint) file_format
    rw [if_neg hnull, if_pos hint] at h
    omega
  by_cases hreal : m.real
  · simp [hnull, hint, hreal] at h
  · rw [if_neg hnull, if_neg hint, if_neg hreal] at h ⊢
    refine ⟨hnull, hint, hreal, ?_⟩
    split_ifs at h ⊢ <;> omega

theorem length_content {m : Mem} (hm : m.Valid) (file_format : ℕ) :
    (m.content file_format).length =
      sqlite3VdbeSerialTypeLen (sqlite3VdbeSerialType m file_format) := by
  dsimp only [Mem.content]
  split_ifs with hlow hhigh
  · simp
  · obtain ⟨hnull, hint, hreal, htype⟩ := serialType_of_ge hm hhigh
    have hdata : m.str ∨ m.blob := by
      rcases hm.typed with h | h | h | h | h <;> simp_all
    have hz := hm.length_z hdata
    have hle : m.n ≤ m.size := by simp [Mem.size]
    simp only [List.length_append, List.length_replicate, hz, sqlite3VdbeSerialTypeLen, if_pos hhigh]
    rw [htype]
    split_ifs <;> omega
  · have hsmall : ∀ t < 12, ¬ (0 < t ∧ t ≤ 7) → sqlite3VdbeSerialTypeLen t = 0 := by decide
    rw [hsmall _ (not_le.mp hhigh) hlow, List.length_nil]

theorem content_of_small (m : Mem) (file_format : ℕ)
    (hpos : 0 < sqlite3VdbeSerialType m file_format)
    (hle : sqlite3VdbeSerialType m file_format ≤ 7) :
    m.content file_format = beBytes (sqlite3VdbeSerialTypeLen (sqlite3VdbeSerialType m file_format))
      (m.bits (sqlite3VdbeSerialType m file_format)) := by
  dsimp only [Mem.content]
  rw [if_pos ⟨hpos, hle⟩]

theorem content_of_ge {m : Mem} {file_format : ℕ}
    (h : 12 ≤ sqlite3VdbeSerialType m file_format) :
    m.content file_format = m.z ++ List.replicate (m.size - m.n) 0 := by
  dsimp only [Mem.content]
  rw [if_neg (by omega), if_pos h]

/-- What the content reads as depends on nothing behind it. -/
theorem serialGet_append {b rest : Bytes} {t : ℕ} (h : b.length = sqlite3VdbeSerialTypeLen t) :
    sqlite3VdbeSerialGet (some (b ++ rest)) t = sqlite3VdbeSerialGet (some b) t := by
  unfold sqlite3VdbeSerialGet
  have htake : (b ++ rest).take (sqlite3VdbeSerialTypeLen t) = b := by rw [← h, List.take_left]
  have hself : b.take (sqlite3VdbeSerialTypeLen t) = b := by rw [← h, List.take_length]
  have hle : sqlite3VdbeSerialTypeLen t ≤ (b ++ rest).length := by simp [h]
  simp only [htake, hself, hle, h, le_refl, if_true]

private theorem read_int {m : Mem} (hm : m.Valid) (hnull : ¬ m.null) (hint : m.int)
    (file_format : ℕ) : ∃ m', sqlite3VdbeSerialGet (some (m.content file_format))
      (sqlite3VdbeSerialType m file_format) = some m' ∧ m'.value = .int m.i := by
  have htype : sqlite3VdbeSerialType m file_format = intType m.i file_format := by
    rw [sqlite3VdbeSerialType, if_neg hnull, if_pos hint]
  have hlen := length_content hm file_format
  rcases intType_cases (hm.int_ge hint) (hm.int_lt hint) file_format with
    ⟨ht, hi⟩ | ⟨ht, hi⟩ | ⟨hpos, hle, hlo, hhi⟩
  · rw [htype, ht, hi]
    simp [sqlite3VdbeSerialGet, Mem.value]
  · rw [htype, ht, hi]
    simp [sqlite3VdbeSerialGet, Mem.value]
  · rw [← htype] at hpos hle hlo hhi
    generalize ht : sqlite3VdbeSerialType m file_format = t at *
    have hsmall : ∀ t ≤ 6, 1 ≤ t → 0 < sqlite3VdbeSerialTypeLen t ∧
        sqlite3VdbeSerialTypeLen t ≤ 8 := by decide
    obtain ⟨hlpos, hl8⟩ := hsmall t hle hpos
    have hbytes := content_of_small m file_format (by omega) (by omega)
    rw [ht] at hbytes
    have hbits : m.bits t = (m.i % 2 ^ 64).toNat := by rw [Mem.bits, if_neg (by omega)]
    have hmod : (m.bits t : ℤ) % 256 ^ sqlite3VdbeSerialTypeLen t =
        m.i % 256 ^ sqlite3VdbeSerialTypeLen t := by
      rw [hbits, Int.toNat_of_nonneg (Int.emod_nonneg _ (by decide))]
      have hdvd : (256 ^ sqlite3VdbeSerialTypeLen t : ℤ) ∣ 2 ^ 64 := by
        have hpow := pow_dvd_pow (256 : ℤ) hl8
        have h64 : (256 : ℤ) ^ 8 = 2 ^ 64 := by norm_num
        rwa [h64] at hpow
      exact Int.emod_emod_of_dvd _ hdvd
    have hread := beInt_beBytes hlpos hmod hlo hhi
    refine ⟨{ int := true, i := m.i }, ?_, by simp [Mem.value]⟩
    simp only [sqlite3VdbeSerialGet]
    rw [if_neg (by omega), if_neg (by omega), if_neg (by omega), hlen, if_pos le_rfl,
      if_neg (by omega), ← hlen, List.take_length, hbytes, hread]

private theorem read_real {m : Mem} (hm : m.Valid) (hnull : ¬ m.null) (hint : ¬ m.int)
    (hreal : m.real) (file_format : ℕ) :
    ∃ m', sqlite3VdbeSerialGet (some (m.content file_format))
      (sqlite3VdbeSerialType m file_format) = some m' ∧ m'.value = .real m.r := by
  have ht : sqlite3VdbeSerialType m file_format = 7 := by
    rw [sqlite3VdbeSerialType, if_neg hnull, if_neg hint, if_pos hreal]
  have hbytes : m.content file_format = beBytes 8 m.r := by
    rw [content_of_small m file_format (by omega) (by omega), ht]
    simp [sqlite3VdbeSerialTypeLen, Mem.bits]
  have hread : beNat (beBytes 8 m.r) = m.r :=
    beNat_beBytes_of_lt (lt_of_lt_of_le (hm.real_lt hreal) (by norm_num))
  have htake : (beBytes 8 m.r).take 8 = beBytes 8 m.r := by
    rw [List.take_of_length_le (by simp)]
  refine ⟨{ real := true, r := m.r }, ?_, by simp [Mem.value]⟩
  rw [ht, hbytes]
  simp [sqlite3VdbeSerialGet, sqlite3VdbeSerialTypeLen, htake, hread, hm.real_num hreal]

private theorem read_data {m : Mem} (hm : m.Valid) {file_format : ℕ}
    (h : 12 ≤ sqlite3VdbeSerialType m file_format) :
    ∃ m', sqlite3VdbeSerialGet (some (m.content file_format))
      (sqlite3VdbeSerialType m file_format) = some m' ∧ m'.value = m.value := by
  obtain ⟨hnull, hint, hreal, htype⟩ := serialType_of_ge hm h
  have hlen := length_content hm file_format
  have htail : m.size - m.n = if m.zero then m.nZero else 0 := by simp [Mem.size]
  simp only [sqlite3VdbeSerialGet]
  rw [if_neg (by omega), if_neg (by omega), if_pos h, hlen, if_pos le_rfl, ← hlen,
    List.take_length]
  refine ⟨_, rfl, ?_⟩
  rw [content_of_ge h, htail]
  by_cases hstr : m.str
  · have hodd : sqlite3VdbeSerialType m file_format % 2 = 1 := by
      rw [htype, if_pos hstr]
      omega
    have hzero : ¬ m.zero := fun hz => (hm.zero hz).2.2.2.2 hstr
    simp [Mem.value, hodd, hnull, hint, hreal, hstr, hzero]
  · have heven : sqlite3VdbeSerialType m file_format % 2 = 0 := by
      rw [htype, if_neg hstr]
      omega
    simp [Mem.value, heven, hnull, hint, hreal, hstr]

/-- Reading the content of a valid cell gives its value back, if its size fits. -/
theorem serialGet_content {m : Mem} (hm : m.Valid) (hfits : m.Fits) (file_format : ℕ) :
    ∃ m', sqlite3VdbeSerialGet (some (m.content file_format))
      (sqlite3VdbeSerialType m file_format) = some m' ∧ m'.value = m.value := by
  by_cases hnull : m.null
  · have ht : sqlite3VdbeSerialType m file_format = 0 := by simp [sqlite3VdbeSerialType, hnull]
    refine ⟨{ null := true }, ?_, by simp [Mem.value, hnull]⟩
    simp [sqlite3VdbeSerialGet, ht]
  by_cases hint : m.int
  · have hval : m.value = .int m.i := by simp [Mem.value, hnull, hint]
    rw [hval]
    exact read_int hm hnull hint file_format
  by_cases hreal : m.real
  · have hval : m.value = .real m.r := by simp [Mem.value, hnull, hint, hreal]
    rw [hval]
    exact read_real hm hnull hint hreal file_format
  · have hlt : m.size * 2 + 12 + (if m.str then 1 else 0) < 2 ^ 32 := by
      simpa [Mem.Fits, hnull, hint, hreal] using hfits
    apply read_data hm
    rw [sqlite3VdbeSerialType, if_neg hnull, if_neg hint, if_neg hreal, Nat.mod_eq_of_lt hlt]
    omega

/-- A serial type below twelve is that of a NULL or a number. -/
theorem value_of_small {buf : Option Bytes} {t : ℕ} {m : Mem} (ht : t < 12)
    (h : sqlite3VdbeSerialGet buf t = some m) :
    m.value = .null ∨ (∃ i, m.value = .int i) ∨ ∃ r, m.value = .real r := by
  dsimp only [sqlite3VdbeSerialGet] at h
  rw [if_neg (not_le.mpr ht)] at h
  cases buf with
  | none =>
    dsimp only at h
    split_ifs at h <;> rw [← Option.some.inj h] <;> simp [Mem.value]
  | some b =>
    dsimp only at h
    split_ifs at h <;> rw [← Option.some.inj h] <;> simp [Mem.value]

/-- A text or blob whose serial type wraps around is read as something else. -/
theorem value_ne_of_not_fits {buf : Option Bytes} {m m' : Mem} (hm : m.Valid) (hfits : ¬ m.Fits)
    {file_format : ℕ}
    (h : sqlite3VdbeSerialGet buf (sqlite3VdbeSerialType m file_format) = some m') :
    m'.value ≠ m.value := by
  simp only [Mem.Fits, not_or] at hfits
  obtain ⟨hnull, hint, hreal, hlarge⟩ := hfits
  have hsmall : sqlite3VdbeSerialType m file_format < 12 := by
    by_contra hge
    obtain ⟨-, -, -, htype⟩ := serialType_of_ge hm (not_lt.mp hge)
    have hlt := serialType_lt m hm file_format
    omega
  have hvalue : (∃ z, m.value = .text z) ∨ ∃ z, m.value = .blob z := by
    by_cases hstr : m.str <;> simp [Mem.value, hnull, hint, hreal, hstr]
  rcases value_of_small hsmall h with hv | ⟨i, hv⟩ | ⟨r, hv⟩ <;>
    rcases hvalue with ⟨z, hz⟩ | ⟨z, hz⟩ <;> simp [hv, hz]

/-- What is written is the content, short of zero bytes only where the buffer ends. -/
theorem serialPut_spec {nBuf : ℤ} {m : Mem} (hm : m.Valid) {file_format : ℕ} {b : Bytes}
    (hpos : 0 ≤ nBuf) (hlt : nBuf < 2 ^ 32) (h : sqlite3VdbeSerialPut nBuf m file_format = some b) :
    ∃ k, m.content file_format = b ++ List.replicate k 0 ∧ (k = 0 ∨ (b.length : ℤ) = nBuf) := by
  have hmod : nBuf % 2 ^ 32 = nBuf := Int.emod_eq_of_lt hpos hlt
  unfold sqlite3VdbeSerialPut at h
  dsimp only at h
  rw [hmod] at h
  split_ifs at h with hsmall hroom hlarge hsize
  · refine ⟨0, ?_, Or.inl rfl⟩
    rw [content_of_small m file_format hsmall.1 hsmall.2, ← Option.some.inj h]
    simp
  · obtain ⟨hnull, hint, hreal, -⟩ := serialType_of_ge hm hlarge
    have hdata : m.str ∨ m.blob := by
      rcases hm.typed with h | h | h | h | h <;> simp_all
    have hz := hm.length_z hdata
    refine ⟨m.size - m.n - (min m.size nBuf.toNat - m.n), ?_, ?_⟩
    · rw [content_of_ge hlarge, ← Option.some.inj h, List.append_assoc, List.replicate_append_replicate]
      congr 2
      omega
    · rw [← Option.some.inj h, List.length_append, List.length_replicate, hz]
      omega
  · refine ⟨0, ?_, Or.inl rfl⟩
    dsimp only [Mem.content]
    rw [if_neg hsmall, if_neg hlarge, ← Option.some.inj h]
    simp

/-! The format of a record: a header with its own size and the serial types, then the contents. -/

/-- A value as it stands in a record. -/
structure Field where
  serial_type : ℕ
  content : Bytes
  type_lt : serial_type < 2 ^ 32
  length_content : content.length = sqlite3VdbeSerialTypeLen serial_type

/-- The bytes of the serial types. -/
def types (fields : List Field) : Bytes :=
  fields.flatMap fun f => sqlite3PutVarint f.serial_type

def contents (fields : List Field) : Bytes := fields.flatMap (·.content)

/-- The size of a header, its own size included, for serial types of `nHdr` bytes. -/
def headerSize (nHdr : ℕ) : ℕ :=
  let nVarint := sqlite3VarintLen nHdr
  if nVarint < sqlite3VarintLen (nHdr + nVarint) then nHdr + nVarint + 1 else nHdr + nVarint

/-- The size of the header of some fields. -/
def hdrSize (fields : List Field) : ℕ := headerSize (types fields).length

def encode (fields : List Field) : Bytes :=
  sqlite3PutVarint (hdrSize fields) ++ types fields ++ contents fields

/-- The value of a register as a field. -/
def Register.field (file_format : ℕ) (r : Register) : Field where
  serial_type := sqlite3VdbeSerialType r.mem file_format
  content := r.mem.content file_format
  type_lt := serialType_lt r.mem r.valid file_format
  length_content := Sqlite.Record.length_content r.valid file_format

/-- The size in the header counts the bytes that it takes itself. -/
theorem headerSize_eq (nHdr : ℕ) : headerSize nHdr = nHdr + sqlite3VarintLen (headerSize nHdr) := by
  unfold headerSize
  dsimp only
  generalize ha : sqlite3VarintLen nHdr = a
  generalize hb : sqlite3VarintLen (nHdr + a) = b
  have hb9 : b ≤ 9 := hb ▸ varintLen_le_nine (nHdr + a)
  split_ifs with hlt
  · have hn : nHdr < 128 ^ a := lt_of_varintLen (by omega) ha.le
    have hpow : ∀ k < 9, 128 ^ k + k + 1 ≤ 128 ^ (k + 1) := by decide
    have hle : sqlite3VarintLen (nHdr + a + 1) ≤ a + 1 :=
      varintLen_le (by linarith [hpow a (by omega)])
    have hge : sqlite3VarintLen (nHdr + a) ≤ sqlite3VarintLen (nHdr + a + 1) :=
      varintLen_mono (Nat.le_succ _)
    omega
  · have hge := varintLen_mono (Nat.le_add_right nHdr a)
    omega

theorem headerSize_le (nHdr : ℕ) : headerSize nHdr ≤ nHdr + 9 := by
  have heq := headerSize_eq nHdr
  have h9 := varintLen_le_nine (headerSize nHdr)
  omega

theorem length_header (fields : List Field) (h : (types fields).length < 2 ^ 55) :
    (sqlite3PutVarint (hdrSize fields) ++ types fields).length = hdrSize fields := by
  have hle := headerSize_le (types fields).length
  have hlen := length_putVarint (v := hdrSize fields) (by
    unfold hdrSize
    omega)
  have heq := headerSize_eq (types fields).length
  rw [List.length_append, hlen]
  unfold hdrSize
  omega

theorem types_cons (f : Field) (fields : List Field) :
    types (f :: fields) = sqlite3PutVarint f.serial_type ++ types fields := by
  simp [types]

theorem contents_cons (f : Field) (fields : List Field) :
    contents (f :: fields) = f.content ++ contents fields := by
  simp [contents]

theorem length_typeVarint (f : Field) :
    (sqlite3PutVarint f.serial_type).length = sqlite3VarintLen f.serial_type :=
  length_putVarint (lt_trans f.type_lt (by decide))

theorem typeVarint_pos (f : Field) : 0 < (sqlite3PutVarint f.serial_type).length := by
  rw [length_typeVarint]
  exact varintLen_pos _

theorem typeVarint_le (f : Field) : (sqlite3PutVarint f.serial_type).length ≤ 5 := by
  rw [length_typeVarint]
  exact varintLen_le (lt_trans f.type_lt (by decide))

end Sqlite.Record
