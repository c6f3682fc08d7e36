import Sqlite.Record.Parse

/-! What one execution of `OP_Column` reads from a stored record. -/
namespace Sqlite.Record

inductive ValueType
  | null
  | integer
  | float
  | text
  | blob
  deriving DecidableEq

/-- What `typeof` tells the types by. -/
def sqlite3VdbeMemStoreType (m : Mem) : ValueType :=
  if m.null then .null
  else if m.int then .integer
  else if m.real then .float
  else if m.str then .text
  else .blob

/-- The type that a serial type stands for, a real number that is not a number apart. -/
def serialValueType (t : ℕ) : ValueType :=
  if t = 0 ∨ t = 10 ∨ t = 11 then .null
  else if 12 ≤ t then (if t % 2 = 1 then .text else .blob)
  else if t = 7 then .float
  else .integer

theorem serialGet_isSome {b : Bytes} {t : ℕ} (h : sqlite3VdbeSerialTypeLen t ≤ b.length) :
    ∃ m, sqlite3VdbeSerialGet (some b) t = some m := by
  dsimp only [sqlite3VdbeSerialGet]
  simp only [if_pos h]
  split_ifs <;> simp

theorem storeType_serialGet {buf : Option Bytes} {t : ℕ} {m : Mem}
    (h : sqlite3VdbeSerialGet buf t = some m)
    (hnum : ∀ b, buf = some b → t = 7 → ¬ sqlite3IsNaN (Foundation.beNat (b.take 8))) :
    sqlite3VdbeMemStoreType m = serialValueType t := by
  dsimp only [sqlite3VdbeSerialGet] at h
  unfold serialValueType
  by_cases h0 : t = 0 ∨ t = 10 ∨ t = 11
  · rw [if_pos h0] at h ⊢
    rw [← Option.some.inj h]
    simp [sqlite3VdbeMemStoreType]
  rw [if_neg h0] at h ⊢
  by_cases h12 : 12 ≤ t
  · rw [if_neg (by omega), if_pos h12] at h
    rw [if_pos h12]
    have hparity : t % 2 = 1 ∨ t % 2 = 0 := by omega
    cases buf with
    | none =>
      rw [← Option.some.inj h]
      rcases hparity with ht | ht <;> simp [sqlite3VdbeMemStoreType, ht]
    | some b =>
      dsimp only at h
      split_ifs at h
      rw [← Option.some.inj h]
      rcases hparity with ht | ht <;> simp [sqlite3VdbeMemStoreType, ht]
  rw [if_neg h12] at h ⊢
  by_cases h89 : t = 8 ∨ t = 9
  · rw [if_pos h89] at h
    rw [if_neg (by omega), ← Option.some.inj h]
    simp [sqlite3VdbeMemStoreType]
  rw [if_neg h89] at h
  cases buf with
  | none => simp at h
  | some b =>
    dsimp only at h
    by_cases h7 : t = 7
    · have hlen : sqlite3VdbeSerialTypeLen t = 8 := by
        rw [h7]
        decide
      rw [hlen] at h
      rw [if_pos h7] at h ⊢
      split_ifs at h with hroom hnan
      · exact absurd hnan (hnum b (Eq.refl _) h7)
      · rw [← Option.some.inj h]
        simp [sqlite3VdbeMemStoreType]
    · rw [if_neg h7] at h ⊢
      split_ifs at h
      rw [← Option.some.inj h]
      simp [sqlite3VdbeMemStoreType]

/-- The size of a text or blob is known without its bytes. -/
theorem n_serialGet {buf : Option Bytes} {t : ℕ} {m : Mem} (ht : 12 ≤ t)
    (h : sqlite3VdbeSerialGet buf t = some m) : m.n = sqlite3VdbeSerialTypeLen t := by
  dsimp only [sqlite3VdbeSerialGet] at h
  rw [if_neg (by omega), if_neg (by omega), if_pos ht] at h
  cases buf with
  | none => rw [← Option.some.inj h]
  | some b =>
    dsimp only at h
    split_ifs at h
    rw [← Option.some.inj h]

theorem zero_serialGet {buf : Option Bytes} {t : ℕ} {m : Mem}
    (h : sqlite3VdbeSerialGet buf t = some m) : m.zero = false := by
  dsimp only [sqlite3VdbeSerialGet] at h
  cases buf with
  | none =>
    dsimp only at h
    split_ifs at h <;> rw [← Option.some.inj h]
  | some b =>
    dsimp only at h
    split_ifs at h <;> rw [← Option.some.inj h]

/-- The class of a value that fits is that of its serial type. -/
theorem storeType_of_fits {m : Mem} (hm : m.Valid) (hfits : m.Fits) (file_format : ℕ) :
    sqlite3VdbeMemStoreType m = serialValueType (sqlite3VdbeSerialType m file_format) := by
  unfold sqlite3VdbeMemStoreType sqlite3VdbeSerialType
  by_cases hnull : m.null
  · simp [hnull, serialValueType]
  rw [if_neg hnull, if_neg hnull]
  by_cases hint : m.int
  · have hcases := intType_cases (hm.int_ge hint) (hm.int_lt hint) file_format
    rw [if_pos hint, if_pos hint, serialValueType, if_neg (by omega), if_neg (by omega),
      if_neg (by omega)]
  rw [if_neg hint, if_neg hint]
  by_cases hreal : m.real
  · simp [hreal, serialValueType]
  have hlt : m.size * 2 + 12 + (if m.str then 1 else 0) < 2 ^ 32 := by
    simpa [Mem.Fits, hnull, hint, hreal] using hfits
  rw [if_neg hreal, if_neg hreal, Nat.mod_eq_of_lt hlt]
  by_cases hstr : m.str
  · rw [if_pos hstr, if_pos hstr, serialValueType, if_neg (by omega), if_pos (by omega),
      if_pos (by omega)]
  · rw [if_neg hstr, if_neg hstr, serialValueType, if_neg (by omega), if_pos (by omega),
      if_neg (by omega)]

/-- Cells of one value have one class. -/
theorem storeType_eq_of_value {m m' : Mem} (h : m.value = m'.value) :
    sqlite3VdbeMemStoreType m = sqlite3VdbeMemStoreType m' := by
  unfold Mem.value at h
  unfold sqlite3VdbeMemStoreType
  split_ifs at h ⊢ <;> simp_all

/-- The bytes of a field come from the page or over the overflow pages. -/
theorem fromBtree_content {c : Cursor} {off amt : ℕ} {content rest : Bytes}
    (hdrop : c.payload.drop off = content ++ rest) (hlen : content.length = amt)
    (hin : off + amt ≤ c.payload.length) : sqlite3VdbeMemFromBtree c off amt = .ok content := by
  have htake : (c.payload.drop off).take amt = content := by rw [hdrop, ← hlen, List.take_left]
  unfold sqlite3VdbeMemFromBtree
  split_ifs with havail
  · rw [Cursor.fetch, List.drop_take, List.take_take, min_eq_left (by omega), htake]
  · rw [htake]

theorem hdrSize_pos (fields : List Field) : 0 < hdrSize fields := by
  have heq := headerSize_eq (types fields).length
  have hpos := varintLen_pos (headerSize (types fields).length)
  unfold hdrSize
  omega

section
variable (bigEndian : Bool) {c : Cursor} (call : Call) {fields : List Field}

theorem readColumn_default (hp : call.p2 < c.nField) (hk : fields[call.p2]? = none) :
    readColumn bigEndian c call (c.headerOf fields) = .ok (call.p4.getD { null := true }) := by
  unfold readColumn Cursor.headerOf
  rw [slotsFrom_getElem? _ _ hp, hk]
  simp

theorem readColumn_field (hp : call.p2 < c.nField) {f : Field} (hk : fields[call.p2]? = some f) :
    readColumn bigEndian c call (c.headerOf fields) =
      readField bigEndian c call (c.headerOf fields)
        ⟨f.serial_type, hdrSize fields + (contents (fields.take call.p2)).length⟩ := by
  have hpos := hdrSize_pos fields
  unfold readColumn Cursor.headerOf
  rw [slotsFrom_getElem? _ _ hp, hk]
  dsimp only
  rw [if_pos (by omega)]

/-- The flags lead away from the content for a record that continues on overflow pages only. -/
abbrev Shortcut (call : Call) (t : ℕ) : Prop :=
  (call.lengthArg ∨ call.typeofArg) ∧ ((12 ≤ t ∧ t % 2 = 0) ∨ call.typeofArg)

theorem readField_content (hpay : c.payload = encode fields) (hsize : c.payload.length < 2 ^ 32)
    {f : Field} (hk : fields[call.p2]? = some f) {m : Mem}
    (hget : sqlite3VdbeSerialGet (some f.content) f.serial_type = some m)
    (hread : c.aRow = none → ¬ Shortcut call f.serial_type) :
    readField bigEndian c call (c.headerOf fields)
      ⟨f.serial_type, hdrSize fields + (contents (fields.take call.p2)).length⟩ = .ok m := by
  have henc : (encode fields).length < 2 ^ 32 := hpay ▸ hsize
  have hdrop := drop_content henc hk
  dsimp only [readField, Cursor.headerOf]
  cases hrow : c.aRow with
  | some zRec =>
    have hzRec : zRec = encode fields := by
      unfold Cursor.aRow at hrow
      split_ifs at hrow with hlocal
      rw [← Option.some.inj hrow, Cursor.fetch, List.take_of_length_le hlocal, hpay]
    dsimp only
    rw [hzRec, hdrop, serialGet_append f.length_content, hget]
  | none =>
    have hin : hdrSize fields + (contents (fields.take call.p2)).length +
        sqlite3VdbeSerialTypeLen f.serial_type ≤ c.payload.length := by
      have hlen := congrArg List.length hdrop
      have hpos : f.content.length ≤ (f.content ++ contents (fields.drop (call.p2 + 1))).length := by
        simp
      rw [List.length_drop] at hlen
      have htotal := length_encode henc
      have hsum := congrArg List.length (contents_take_append call.p2 fields)
      rw [List.length_append] at hsum
      rw [hpay, ← f.length_content]
      omega
    dsimp only
    rw [if_neg (by simpa [Shortcut] using hread hrow),
      fromBtree_content (by rw [hpay]; exact hdrop) f.length_content hin]
    dsimp only [bind, Except.bind]
    rw [hget]

theorem readField_shortcut (fields : List Field) {t : ℕ} (off : ℕ) (hrow : c.aRow = none) (hshort : Shortcut call t)
    {m : Mem} (hget : sqlite3VdbeSerialGet (if t < 12 then some (payloadSize64 bigEndian c call) else none) t =
      some m) :
    readField bigEndian c call (c.headerOf fields) ⟨t, off⟩ = .ok m := by
  dsimp only [readField, Cursor.headerOf]
  rw [hrow]
  change (if Shortcut call t then _ else _) = _
  rw [if_pos hshort, hget]

end

theorem length_payloadSize64 (bigEndian : Bool) (c : Cursor) (call : Call) :
    (payloadSize64 bigEndian c call).length = 8 := by
  unfold payloadSize64
  split_ifs <;> simp

end Sqlite.Record
