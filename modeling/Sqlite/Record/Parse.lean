import Sqlite.Record.Column

/-! What the header of a stored record is parsed to. -/
namespace Sqlite.Record

/-- The entries for `n` columns of a record whose contents start at `offset`. -/
def slotsFrom : ℕ → List Field → ℕ → List Slot
  | _, _, 0 => []
  | offset, [], n + 1 => ⟨0, 0⟩ :: slotsFrom offset [] n
  | offset, f :: fields, n + 1 =>
    ⟨f.serial_type, offset⟩ :: slotsFrom (offset + f.content.length) fields n

/-- The serial types of `n` columns end where the longest possible header of `n` fields does, and
behind them is a column with content. -/
def HeaderFull (n : ℕ) (fields : List Field) : Prop :=
  (sqlite3PutVarint (hdrSize fields)).length + (types (fields.take n)).length = n * 5 + 3 ∧
    contents (fields.drop n) ≠ []

theorem nLocal_le (isIndex : Bool) {usableSize : ℕ} (husable : 480 ≤ usableSize) (nPayload : ℕ) :
    nLocal isIndex usableSize nPayload ≤ nPayload := by
  dsimp only [nLocal]
  have hmod := Nat.mod_le (nPayload - ((usableSize - 12) * 32 / 255 - 23)) (usableSize - 4)
  cases isIndex <;> simp only [Bool.false_eq_true, if_false, if_true] <;> split_ifs <;> omega

/-- The page has the whole payload or a good part of it. -/
theorem nLocal_ge (isIndex : Bool) {usableSize : ℕ} (husable : 480 ≤ usableSize) (nPayload : ℕ) :
    nPayload = nLocal isIndex usableSize nPayload ∨ 35 ≤ nLocal isIndex usableSize nPayload := by
  dsimp only [nLocal]
  cases isIndex <;> simp only [Bool.false_eq_true, if_false, if_true] <;> split_ifs <;> omega

theorem getVarint32_take {v m : ℕ} (hv : v < 2 ^ 32) (hm : (sqlite3PutVarint v).length ≤ m)
    (rest : Bytes) : getVarint32 ((sqlite3PutVarint v ++ rest).take m) =
      some (v, (sqlite3PutVarint v).length) := by
  rw [List.take_append, List.take_of_length_le hm, getVarint32_putVarint hv]

theorem types_take_length_le (n : ℕ) (fields : List Field) :
    (types (fields.take n)).length + (types (fields.drop n)).length = (types fields).length := by
  rw [← List.length_append, types, types, ← List.flatMap_append, List.take_append_drop, types]

theorem contents_take_append (n : ℕ) (fields : List Field) :
    contents (fields.take n) ++ contents (fields.drop n) = contents fields := by
  rw [contents, contents, ← List.flatMap_append, List.take_append_drop, contents]

theorem types_take_le (n : ℕ) (fields : List Field) :
    (types (fields.take n)).length ≤ n * 5 := by
  induction n generalizing fields with
  | zero => simp [types]
  | succ n ih =>
    cases fields with
    | nil => simp [types]
    | cons f fields =>
      have hle := typeVarint_le f
      have htail := ih fields
      rw [List.take_succ_cons, types_cons, List.length_append]
      omega

theorem types_pos_of_contents {fields : List Field} (h : contents fields ≠ []) :
    0 < (types fields).length := by
  cases fields with
  | nil => simp [contents] at h
  | cons f fields =>
    have hpos := typeVarint_pos f
    rw [types_cons, List.length_append]
    omega

/-- The loop reads the types of the fields that are there. No varint is cut off at `len`, since
each takes five bytes at most. -/
theorem parseFields_spec {zData tail : Bytes} {len m room hdr n zIdx offset : ℕ}
    {fields : List Field} (hz : zData.drop zIdx = (types fields ++ tail).take (m - zIdx))
    (hhdr : zIdx + (types fields).length = hdr) (hroom : zIdx + n * 5 ≤ room)
    (hlen : len = min room hdr) (hm : len ≤ m)
    (hoffset : offset + (contents fields).length < 2 ^ 32) :
    parseFields zData len n zIdx offset =
      .ok (slotsFrom offset fields n, zIdx + (types (fields.take n)).length,
        offset + (contents (fields.take n)).length) := by
  induction n generalizing zIdx offset fields with
  | zero => simp [parseFields, slotsFrom, types, contents]
  | succ n ih =>
    cases fields with
    | nil =>
      have hend : ¬ zIdx < len := by
        simp only [types, List.flatMap_nil, List.length_nil] at hhdr
        omega
      rw [parseFields, if_neg hend, ih hz hhdr (by omega) hoffset]
      simp [Except.map, slotsFrom]
    | cons f fields =>
      have hpos := typeVarint_pos f
      have hle := typeVarint_le f
      rw [types_cons] at hz hhdr
      rw [List.length_append] at hhdr
      rw [contents_cons, List.length_append] at hoffset
      have hread : zIdx < len := by omega
      have hvarint := getVarint32_take (m := m - zIdx) f.type_lt (by omega) (types fields ++ tail)
      rw [← List.append_assoc, ← hz] at hvarint
      have hnext : zData.drop (zIdx + (sqlite3PutVarint f.serial_type).length) =
          (types fields ++ tail).take (m - (zIdx + (sqlite3PutVarint f.serial_type).length)) := by
        rw [← List.drop_drop, hz, List.drop_take, List.append_assoc, List.drop_left, Nat.sub_sub]
      have hmod : (offset + f.content.length) % 2 ^ 32 = offset + f.content.length :=
        Nat.mod_eq_of_lt (by omega)
      rw [parseFields, if_pos hread, hvarint]
      dsimp only
      rw [← f.length_content, hmod, if_neg (by omega),
        ih hnext (by omega) (by omega) (by omega)]
      simp [Except.map, slotsFrom, types_cons, contents_cons, add_assoc]

/-- The header is read from a buffer that has all of it that is needed. -/
theorem headerBytes_spec (c : Cursor) {len : ℕ} (hlen : len ≤ c.payload.length) :
    ∃ m, len ≤ m ∧ headerBytes c len = .ok (c.payload.take m) := by
  unfold headerBytes Cursor.aRow
  by_cases hlocal : c.payload.length ≤ c.avail
  · exact ⟨c.avail, by omega, by simp [hlocal, Cursor.fetch]⟩
  · by_cases havail : c.avail < len
    · refine ⟨len, le_rfl, ?_⟩
      rw [if_neg hlocal, if_pos ⟨by simp, havail⟩, sqlite3VdbeMemFromBtree, if_neg (by omega),
        if_pos (by omega), List.drop_zero]
    · exact ⟨c.avail, by omega, by simp [hlocal, havail, Cursor.fetch]⟩

theorem length_header_of_encode {fields : List Field} (h : (encode fields).length < 2 ^ 32) :
    (sqlite3PutVarint (hdrSize fields) ++ types fields).length = hdrSize fields := by
  apply length_header fields
  simp only [encode, List.length_append] at h
  omega

theorem length_encode {fields : List Field} (h : (encode fields).length < 2 ^ 32) :
    (encode fields).length = hdrSize fields + (contents fields).length := by
  rw [encode, List.length_append, length_header_of_encode h]

theorem length_hdrVarint (fields : List Field) (h : (encode fields).length < 2 ^ 32) :
    (sqlite3PutVarint (hdrSize fields)).length = sqlite3VarintLen (hdrSize fields) := by
  have hlen := length_encode h
  exact length_putVarint (by omega)

/-- The header that a cursor on a stored record gets. -/
def Cursor.headerOf (c : Cursor) (fields : List Field) : Header where
  payloadSize := c.payload.length
  aRow := c.aRow
  slots := slotsFrom (hdrSize fields) fields c.nField

/-- The test behind the loop lets a stored record pass, unless the columns fill the buffer. -/
theorem parseHeader_spec {c : Cursor} {fields : List Field} (hp : c.payload = encode fields)
    (hsize : c.payload.length < 2 ^ 32) :
    (98307 < hdrSize fields ∨ HeaderFull c.nField fields → parseHeader c = .error .corrupt) ∧
      (hdrSize fields ≤ 98307 → ¬ HeaderFull c.nField fields →
        parseHeader c = .ok (c.headerOf fields)) := by
  have henc : (encode fields).length < 2 ^ 32 := hp ▸ hsize
  have hlength := length_encode henc
  have hvarlen := length_hdrVarint fields henc
  have hhdr : (sqlite3PutVarint (hdrSize fields)).length + (types fields).length = hdrSize fields := by
    rw [← List.length_append]
    exact length_header_of_encode henc
  have hlocal := nLocal_le c.isIndex c.usable_ge c.payload.length
  have hfirst : getVarint32 c.fetch =
      some (hdrSize fields, (sqlite3PutVarint (hdrSize fields)).length) := by
    have h5 : sqlite3VarintLen (hdrSize fields) ≤ 5 := varintLen_le (by omega)
    have hroom : (sqlite3PutVarint (hdrSize fields)).length ≤ c.avail := by
      rcases nLocal_ge c.isIndex c.usable_ge c.payload.length with heq | hge
      · unfold Cursor.avail
        rw [← heq, hp]
        omega
      · unfold Cursor.avail
        omega
    rw [Cursor.fetch, hp, encode, List.append_assoc]
    exact getVarint32_take (by omega) hroom _
  by_cases hbig : 98307 < hdrSize fields
  · have herr : parseHeader c = .error .corrupt := by
      unfold parseHeader
      rw [hfirst]
      dsimp only
      rw [if_pos hbig]
    exact ⟨fun _ => herr, fun hle => absurd hbig (not_lt.mpr hle)⟩
  have h3 : sqlite3VarintLen (hdrSize fields) ≤ 3 := varintLen_le (by omega)
  have hlen : min (c.nField * 5 + 3) (hdrSize fields) ≤ c.payload.length := by
    rw [hp]
    omega
  obtain ⟨m, hm, hzData⟩ := headerBytes_spec c hlen
  have hdrop : (c.payload.take m).drop (sqlite3PutVarint (hdrSize fields)).length =
      (types fields ++ contents fields).take (m - (sqlite3PutVarint (hdrSize fields)).length) := by
    rw [hp, encode, List.append_assoc, List.drop_take, List.drop_left]
  have hoffset : hdrSize fields + (contents fields).length < 2 ^ 32 := by omega
  have hloop := parseFields_spec (n := c.nField) hdrop hhdr (by omega : _ ≤ c.nField * 5 + 3) rfl hm
    hoffset
  have htypes := types_take_length_le c.nField fields
  have hcontents := congrArg List.length (contents_take_append c.nField fields)
  rw [List.length_append] at hcontents
  unfold parseHeader
  rw [hfirst]
  dsimp only
  rw [if_neg hbig, hzData]
  simp only [bind, Except.bind, hloop]
  have hfull : (min (c.nField * 5 + 3) (hdrSize fields) <
      (sqlite3PutVarint (hdrSize fields)).length + (types (fields.take c.nField)).length ∨
      c.payload.length < hdrSize fields + (contents (fields.take c.nField)).length ∨
      (sqlite3PutVarint (hdrSize fields)).length + (types (fields.take c.nField)).length =
        min (c.nField * 5 + 3) (hdrSize fields) ∧
      hdrSize fields + (contents (fields.take c.nField)).length ≠ c.payload.length) ↔
      HeaderFull c.nField fields := by
    have hle := types_take_le c.nField fields
    rw [hp, HeaderFull, ← List.length_pos_iff]
    constructor
    · rintro (hbad | hbad | ⟨hend, hne⟩)
      · omega
      · omega
      · have hrest : 0 < (contents (fields.drop c.nField)).length := by omega
        have hpos := types_pos_of_contents (List.length_pos_iff.mp hrest)
        exact ⟨by omega, hrest⟩
    · rintro ⟨hend, hrest⟩
      have hpos := types_pos_of_contents (List.length_pos_iff.mp hrest)
      exact Or.inr (Or.inr ⟨by omega, by omega⟩)
  constructor
  · intro hbad
    rw [if_pos (hfull.mpr (hbad.resolve_left hbig))]
  · intro _ hok
    rw [if_neg (fun h => hok (hfull.mp h)), Cursor.headerOf]

/-- The entry of a column behind the last field has the offset zero. -/
theorem slotsFrom_getElem? (offset : ℕ) (fields : List Field) {n k : ℕ} (hk : k < n) :
    (slotsFrom offset fields n)[k]? = some
      (match fields[k]? with
        | some f => ⟨f.serial_type, offset + (contents (fields.take k)).length⟩
        | none => ⟨0, 0⟩) := by
  induction n generalizing k offset fields with
  | zero => omega
  | succ n ih =>
    cases fields with
    | nil =>
      cases k with
      | zero => simp [slotsFrom]
      | succ k =>
        have htail := ih offset [] (k := k) (by omega)
        simpa [slotsFrom] using htail
    | cons f fields =>
      cases k with
      | zero => simp [slotsFrom, contents]
      | succ k =>
        have htail := ih (offset + f.content.length) fields (k := k) (by omega)
        simpa [slotsFrom, contents_cons, add_assoc] using htail

/-- The content of a field stands at the offset of its entry. -/
theorem drop_content {fields : List Field} (h : (encode fields).length < 2 ^ 32) {k : ℕ} {f : Field}
    (hk : fields[k]? = some f) :
    (encode fields).drop (hdrSize fields + (contents (fields.take k)).length) =
      f.content ++ contents (fields.drop (k + 1)) := by
  have hsplit : contents fields =
      contents (fields.take k) ++ (f.content ++ contents (fields.drop (k + 1))) := by
    obtain ⟨hlt, hget⟩ := List.getElem?_eq_some_iff.mp hk
    rw [← contents_take_append k fields, List.drop_eq_getElem_cons hlt, contents_cons, hget]
  rw [← List.drop_drop, encode, List.drop_left' (length_header_of_encode h), hsplit, List.drop_left]

end Sqlite.Record
