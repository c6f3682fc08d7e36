import Mathlib.Tactic.IntervalCases
import Sqlite.Foundation.Traced
import Sqlite.Record.Column

/-! The bytes that `OP_Column` reads to parse the header of a record, and where the columns end that it
finds. -/
namespace Sqlite.Record

open Sqlite.Foundation

/-! Memory behind the record holds any bytes. -/

/-- The bytes at `z` up to the first below 0x80, at most `n`. -/
def readBytes (memory : ℕ → UInt8) : ℕ → ℕ → Traced ℕ Bytes
  | 0, _ => pure []
  | n + 1, z => do
    Traced.tell z
    if (memory z).toNat < 128 then return [memory z]
    else return memory z :: (← readBytes memory n (z + 1))

/-- `getVarint32` on the bytes at `z`. -/
def varint32At (memory : ℕ → UInt8) (z : ℕ) : Traced ℕ (ℕ × ℕ) := do
  Traced.lift (getVarint32 (← readBytes memory 9 z))

/-- The loop over the `n` fields that are left, as in `parseFields`. -/
def parseFieldsAt (memory : ℕ → UInt8) (len : ℕ) : ℕ → ℕ → ℕ → Traced ℕ (List Slot × ℕ × ℕ)
  | 0, zIdx, offset => pure ([], zIdx, offset)
  | n + 1, zIdx, offset =>
    if zIdx < len then do
      let (t, k) ← varint32At memory zIdx
      let szField := sqlite3VdbeSerialTypeLen t
      let offset' := (offset + szField) % 2 ^ 32
      if offset' < szField then return ([⟨t, offset⟩], len + 1, offset')
      else return (← parseFieldsAt memory len n (zIdx + k) offset').map (⟨t, offset⟩ :: ·) id
    else return (← parseFieldsAt memory len n zIdx offset).map (⟨0, 0⟩ :: ·) id

/-- The record as far as it is on the page, and what follows it there. -/
def Cursor.pageMemory (c : Cursor) (behind : ℕ → UInt8) (i : ℕ) : UInt8 := c.fetch[i]?.getD (behind i)

/-- A copy of the first `len` bytes of the record, with two zero bytes. -/
def Cursor.copyMemory (c : Cursor) (len : ℕ) (behind : ℕ → UInt8) (i : ℕ) : UInt8 :=
  (c.payload.take len ++ [0, 0])[i]?.getD (behind i)

/-- Where the first `len` bytes of the header are read; `none` if the record is shorter than the copy. -/
def Cursor.headerMemory (c : Cursor) (behind : ℕ → UInt8) (len : ℕ) : Option (ℕ → UInt8) :=
  if c.aRow = none ∧ c.avail < len then
    if len ≤ c.payload.length then some (c.copyMemory len behind) else none
  else some (c.pageMemory behind)

def Cursor.headerLen (c : Cursor) (offset : ℕ) : ℕ := min (c.nField * 5 + 3) offset

/-- The loop over the fields and the check behind it. -/
def checkedFields (c : Cursor) (memory : ℕ → UInt8) (len szHdr offset : ℕ) :
    Traced ℕ (Except Err (Option Header)) := do
  let (slots, zIdx, offset) ← parseFieldsAt memory len c.nField szHdr offset
  return if len < zIdx ∨ c.payload.length < offset ∨ (zIdx = len ∧ offset ≠ c.payload.length) then
      .error .corrupt
    else .ok (some { payloadSize := c.payload.length, aRow := c.aRow, slots })

/-- The parse behind the length of the header. -/
def readTypes (c : Cursor) (behind : ℕ → UInt8) (offset szHdr : ℕ) : Traced ℕ (Except Err (Option Header)) :=
  if 98307 < offset then return .error .corrupt
  else
    match c.headerMemory behind (c.headerLen offset) with
    | none => return .error .corrupt
    | some memory => checkedFields c memory (c.headerLen offset) szHdr offset

/-- The parse of the header; there is none of an empty record. -/
def readHeader (c : Cursor) (behind : ℕ → UInt8) : Traced ℕ (Except Err (Option Header)) :=
  if c.payload = [] then return .ok none
  else do
    let (offset, szHdr) ← varint32At (c.pageMemory behind) 0
    readTypes c behind offset szHdr

/-- The bytes of memory from `z` on up to `size`. -/
def window (memory : ℕ → UInt8) (size z : ℕ) : Bytes := (List.range' z (size - z)).map memory

/-- The serial types that are read are complete in the first `size` bytes: up to `len`, for at most `n`
columns, and no further than to an offset that overflows. -/
def TypesInside (memory : ℕ → UInt8) (size len : ℕ) : ℕ → ℕ → ℕ → Prop
  | 0, _, _ => True
  | n + 1, zIdx, offset => zIdx < len → ∃ t k, getVarint32 (window memory size zIdx) = some (t, k) ∧
      (offset + sqlite3VdbeSerialTypeLen t < 2 ^ 32 →
        TypesInside memory size len n (zIdx + k) (offset + sqlite3VdbeSerialTypeLen t))

/-- The length of the header and the serial types that are read are complete in the record. -/
def HeaderInside (c : Cursor) (behind : ℕ → UInt8) : Prop :=
  c.payload = [] ∨
    ∃ offset szHdr, getVarint32 (window (c.pageMemory behind) c.payload.length 0) = some (offset, szHdr) ∧
      (offset ≤ 98307 → ∀ memory, c.headerMemory behind (c.headerLen offset) = some memory →
        TypesInside memory c.payload.length (c.headerLen offset) c.nField szHdr offset)

section Varint

variable {memory : ℕ → UInt8} {size z : ℕ}

theorem window_eq_cons (h : z < size) : window memory size z = memory z :: window memory size (z + 1) := by
  have hs : size - z = (size - (z + 1)) + 1 := by omega
  rw [window, hs, List.range'_succ, List.map_cons, window]

theorem window_eq_nil (h : size ≤ z) : window memory size z = [] := by
  rw [window, Nat.sub_eq_zero_of_le h]; rfl

/-- The bytes that `readBytes` reads. -/
def varintBytes (memory : ℕ → UInt8) : ℕ → ℕ → Bytes
  | 0, _ => []
  | n + 1, z => if (memory z).toNat < 128 then [memory z] else memory z :: varintBytes memory n (z + 1)

theorem readBytes_eq (n z : ℕ) :
    readBytes memory n z = ⟨List.range' z (varintBytes memory n z).length,
      some (varintBytes memory n z)⟩ := by
  induction n generalizing z with
  | zero => rfl
  | succ n ih =>
    rw [readBytes, varintBytes]
    split_ifs with h
    · rfl
    · rw [ih, List.length_cons, List.range'_succ]
      exact congrArg (fun l => Traced.mk (z :: l) _) (List.append_nil _)

/-- The first `size` bytes give the number if all of its bytes are among them, and else nothing. -/
theorem formatLoop_window (n a z : ℕ) : ∃ v,
    formatLoop n a (varintBytes memory (n + 1) z) = some (v, (varintBytes memory (n + 1) z).length) ∧
    formatLoop n a (window memory size z) =
      if z + (varintBytes memory (n + 1) z).length ≤ size then
        some (v, (varintBytes memory (n + 1) z).length) else none := by
  induction n generalizing a z with
  | zero =>
    obtain ⟨b, hb, rfl⟩ : ∃ b, varintBytes memory 1 z = [b] ∧ b = memory z := by
      rw [varintBytes]
      split_ifs <;> exact ⟨_, rfl, rfl⟩
    refine ⟨a * 256 + (memory z).toNat, by rw [hb]; rfl, ?_⟩
    rw [hb, List.length_singleton]
    split_ifs with h
    · rw [window_eq_cons h]; rfl
    · rw [window_eq_nil (by omega)]; rfl
  | succ n ih =>
    obtain ⟨v, hv, hw⟩ := ih (a * 128 + (memory z).toNat % 128) (z + 1)
    have hlow (hm : (memory z).toNat < 128) (p : Bytes) :
        formatLoop (n + 1) a (memory z :: p) = some (a * 128 + (memory z).toNat, 1) := by
      rw [formatLoop, if_pos hm]
    have hhigh (hm : ¬ (memory z).toNat < 128) (p : Bytes) : formatLoop (n + 1) a (memory z :: p) =
        (formatLoop n (a * 128 + (memory z).toNat % 128) p).map fun r => (r.1, r.2 + 1) := by
      rw [formatLoop, if_neg hm]
    rw [varintBytes]
    split_ifs with hm h h
    · refine ⟨_, hlow hm [], ?_⟩
      rw [window_eq_cons h, hlow hm, List.length_singleton]
    · refine ⟨_, hlow hm [], ?_⟩
      rw [window_eq_nil (not_lt.mp h), formatLoop]
    · rw [List.length_cons] at h
      rw [if_pos (by omega)] at hw
      refine ⟨v, by rw [hhigh hm, hv]; rfl, ?_⟩
      rw [window_eq_cons (by omega), hhigh hm, hw]
      rfl
    · rw [List.length_cons] at h
      refine ⟨v, by rw [hhigh hm, hv]; rfl, ?_⟩
      rcases lt_or_ge z size with hz | hz
      · rw [if_neg (by omega)] at hw
        rw [window_eq_cons hz, hhigh hm, hw]
        rfl
      · rw [window_eq_nil hz, formatLoop]

theorem varintBytes_pos (n z : ℕ) : 0 < (varintBytes memory (n + 1) z).length := by
  rw [varintBytes]
  split_ifs <;> simp

/-- What `getVarint32` gets and reads. -/
theorem varint32At_spec (memory : ℕ → UInt8) (size z : ℕ) : ∃ t k, 0 < k ∧ t < 2 ^ 32 ∧
    varint32At memory z = ⟨List.range' z k, some (t, k)⟩ ∧
    getVarint32 (window memory size z) = if z + k ≤ size then some (t, k) else none := by
  obtain ⟨v, hv, hw⟩ := @formatLoop_window memory size 8 0 z
  have hget : getVarint32 (varintBytes memory 9 z) = some (clamp (v, (varintBytes memory 9 z).length)) := by
    rw [getVarint32_eq, formatVarint, hv, Option.map_some]
  obtain ⟨t, ht⟩ : ∃ t, clamp (v, (varintBytes memory 9 z).length) = (t,
    (varintBytes memory 9 z).length) := by
    unfold clamp
    split_ifs <;> exact ⟨_, rfl⟩
  rw [ht] at hget
  refine ⟨t, (varintBytes memory 9 z).length, varintBytes_pos 8 z, getVarint32_lt hget, ?_, ?_⟩
  · rw [varint32At, readBytes_eq]
    exact congrArg₂ Traced.mk (List.append_nil _) hget
  · rw [getVarint32_eq, formatVarint, hw]
    split_ifs
    · rw [Option.map_some, ht]
    · rfl

theorem keeps_varint32At {t k : ℕ} (h : varint32At memory z = ⟨List.range' z k, some (t, k)⟩) :
    (varint32At memory z).Keeps (fun _ => True) (· = (t, k)) := by
  rw [h]
  exact ⟨fun _ _ => trivial, fun _ h => (Option.some.inj h).symm⟩

/-- The bytes that are read lie in the first `size` bytes just if these hold the whole number. -/
theorem forall_mem_range' {k : ℕ} (hk : 0 < k) : (∀ i ∈ List.range' z k, i < size) ↔ z + k ≤ size := by
  constructor
  · intro h
    have := h (z + (k - 1)) (List.mem_range'_1.mpr ⟨by omega, by omega⟩)
    omega
  · intro h i hi
    have := List.mem_range'_1.mp hi
    omega

end Varint

theorem serialTypeLen_lt {t : ℕ} (ht : t < 2 ^ 32) : sqlite3VdbeSerialTypeLen t < 2 ^ 32 := by
  unfold sqlite3VdbeSerialTypeLen
  split_ifs with h
  · omega
  · interval_cases t <;> decide

/-- The sum of two words wraps around just if it is smaller than the second. -/
theorem wraps_iff {a b : ℕ} (ha : a < 2 ^ 32) (hb : b < 2 ^ 32) : (a + b) % 2 ^ 32 < b ↔ 2 ^ 32 ≤ a + b := by
  rcases lt_or_ge (a + b) (2 ^ 32) with h | h
  · rw [Nat.mod_eq_of_lt h]; omega
  · rw [Nat.mod_eq_sub_mod h, Nat.mod_eq_of_lt (by omega)]; omega

theorem typesInside_of_le {memory : ℕ → UInt8} {size len zIdx : ℕ} (h : len ≤ zIdx) (n offset : ℕ) :
    TypesInside memory size len n zIdx offset := by
  cases n with
  | zero => trivial
  | succ n => exact fun hz => absurd hz (not_lt.mpr h)

/-- The serial types are read in the first `size` bytes just if these hold them. -/
theorem parseFieldsAt_inside (memory : ℕ → UInt8) (size len n : ℕ) {zIdx offset : ℕ} (ho : offset < 2 ^ 32) :
    (∀ i ∈ (parseFieldsAt memory len n zIdx offset).trace, i < size) ↔
      TypesInside memory size len n zIdx offset := by
  induction n generalizing zIdx offset with
  | zero => simp [parseFieldsAt, TypesInside, pure]
  | succ n ih =>
    rw [parseFieldsAt, TypesInside]
    by_cases hz : zIdx < len
    · obtain ⟨t, k, hk, ht, hvar, hget⟩ := varint32At_spec memory size zIdx
      have hwrap := wraps_iff ho (serialTypeLen_lt ht)
      rw [if_pos hz, hvar]
      simp only [hz, Traced.trace_bind, Option.elim_some, List.forall_mem_append, hwrap,
        forall_mem_range' hk, forall_const, hget]
      rcases lt_or_ge (offset + sqlite3VdbeSerialTypeLen t) (2 ^ 32) with hover | hover
      · rw [if_neg (not_le.mpr hover), Nat.mod_eq_of_lt hover, Traced.trace_bind_pure, ih hover]
        have hlt : offset + sqlite3VdbeSerialTypeLen t < 4294967296 := hover
        split_ifs with hsize <;> simp [hsize, hlt]
      · rw [if_pos hover, Traced.trace_pure]
        have hge : ¬ offset + sqlite3VdbeSerialTypeLen t < 4294967296 := not_lt.mpr hover
        split_ifs with hsize <;> simp [hsize, hge]
    · rw [if_neg hz, Traced.trace_bind_pure, ih ho]
      simp only [hz, false_implies, iff_true]
      exact typesInside_of_le (not_lt.mp hz) n offset

/-- Without an overflow, the columns that are present end where the offset is at last, or before. -/
theorem parseFieldsAt_ends (memory : ℕ → UInt8) (len n : ℕ) {zIdx offset : ℕ} (ho : offset < 2 ^ 32) :
    (parseFieldsAt memory len n zIdx offset).Keeps (fun _ => True) fun r =>
      len < r.2.1 ∨ offset ≤ r.2.2 ∧
        ∀ slot ∈ r.1, slot.aOffset ≠ 0 → slot.aOffset + sqlite3VdbeSerialTypeLen slot.aType ≤ r.2.2 := by
  induction n generalizing zIdx offset with
  | zero => exact Traced.keeps_pure (.inr ⟨le_rfl, by simp⟩)
  | succ n ih =>
    rw [parseFieldsAt]
    split_ifs with hz
    · obtain ⟨t, k, -, ht, hvar, -⟩ := varint32At_spec memory 0 zIdx
      have hwrap := wraps_iff ho (serialTypeLen_lt ht)
      refine (keeps_varint32At hvar).bind ?_
      rintro _ rfl
      dsimp only
      split_ifs with hover
      · exact Traced.keeps_pure (.inl (Nat.lt_succ_self len))
      · rw [hwrap, not_le] at hover
        rw [Nat.mod_eq_of_lt hover]
        refine (ih hover).map ?_
        rintro ⟨slots, z, o⟩ (hz' | ⟨hle, hslots⟩)
        · exact .inl hz'
        · simp only at hle hslots
          refine .inr ⟨by simp; omega, ?_⟩
          simp only [Prod.map_fst, List.forall_mem_cons, Prod.map_snd, id_eq]
          exact ⟨fun _ => hle, hslots⟩
    · refine (ih ho).map ?_
      rintro ⟨slots, z, o⟩ (hz' | ⟨hle, hslots⟩)
      · exact .inl hz'
      · refine .inr ⟨hle, ?_⟩
        simp only [Prod.map_fst, List.forall_mem_cons, Prod.map_snd, id_eq]
        exact ⟨fun h => absurd rfl h, hslots⟩

theorem readTypes_inside (c : Cursor) (behind : ℕ → UInt8) {offset : ℕ} (szHdr : ℕ) (ho : offset < 2 ^ 32) :
    (∀ i ∈ (readTypes c behind offset szHdr).trace, i < c.payload.length) ↔
      (offset ≤ 98307 → ∀ memory, c.headerMemory behind (c.headerLen offset) = some memory →
        TypesInside memory c.payload.length (c.headerLen offset) c.nField szHdr offset) := by
  unfold readTypes
  split_ifs with hbig
  · simp [not_le.mpr hbig]
  · cases hmem : c.headerMemory behind (c.headerLen offset) with
    | none => simp
    | some memory =>
      simp only [not_lt.mp hbig, forall_const, Option.some.injEq, forall_eq']
      exact (Traced.trace_bind_pure _ _).symm ▸ parseFieldsAt_inside memory _ _ _ ho

/-- The bytes that are read lie in the record just if the numbers that are read do. -/
theorem readHeader_inside (c : Cursor) (behind : ℕ → UInt8) :
    (∀ i ∈ (readHeader c behind).trace, i < c.payload.length) ↔ HeaderInside c behind := by
  obtain ⟨offset, szHdr, hpos, ho, hvar, hget⟩ := varint32At_spec (c.pageMemory behind) c.payload.length 0
  unfold readHeader HeaderInside
  by_cases hnil : c.payload = []
  · simp [hnil]
  rw [zero_add] at hget
  rw [if_neg hnil, hvar, hget]
  simp only [hnil, false_or, Traced.trace_bind, Option.elim_some, List.forall_mem_append,
    forall_mem_range' hpos,
    readTypes_inside c behind szHdr ho, zero_add]
  split_ifs with h <;> simp [h]

/-- The columns that are found lie in the record. -/
theorem checkedFields_fits (c : Cursor) (memory : ℕ → UInt8) (len szHdr : ℕ) {offset : ℕ}
    (ho : offset < 2 ^ 32) :
    (checkedFields c memory len szHdr offset).Keeps (fun _ => True) fun r => ∀ h, r = .ok (some h) →
      ∀ slot ∈ h.slots, slot.aOffset ≠ 0 →
        slot.aOffset + sqlite3VdbeSerialTypeLen slot.aType ≤ c.payload.length := by
  refine (parseFieldsAt_ends memory len c.nField ho).map ?_
  rintro ⟨slots, zIdx, o⟩ hends h
  dsimp only at hends ⊢
  split_ifs with hcorrupt
  · intro h; cases h
  · rintro ⟨⟩ slot hslot h0
    obtain ⟨-, hfits⟩ := hends.resolve_left fun h => hcorrupt (.inl h)
    exact (hfits slot hslot h0).trans (not_lt.mp fun h => hcorrupt (.inr (.inl h)))

theorem readHeader_fits (c : Cursor) (behind : ℕ → UInt8) :
    (readHeader c behind).Keeps (fun _ => True) fun r => ∀ h, r = .ok (some h) →
      ∀ slot ∈ h.slots, slot.aOffset ≠ 0 →
        slot.aOffset + sqlite3VdbeSerialTypeLen slot.aType ≤ c.payload.length := by
  obtain ⟨offset, szHdr, -, ho, hvar, -⟩ := varint32At_spec (c.pageMemory behind) c.payload.length 0
  unfold readHeader
  split_ifs with hnil
  · exact Traced.keeps_pure fun h hh => by cases hh
  · refine (keeps_varint32At hvar).bind ?_
    rintro _ rfl
    simp only [readTypes]
    split_ifs with hbig
    · exact Traced.keeps_pure fun h hh => by cases hh
    · cases c.headerMemory behind (c.headerLen offset) with
      | none => exact Traced.keeps_pure fun h hh => by cases hh
      | some memory => exact checkedFields_fits c memory _ szHdr ho

/-- The reads of the header stay in the record just if the numbers that it starts with do. What columns are
found lie in the record in any case. -/
theorem readHeader_iff (c : Cursor) (behind : ℕ → UInt8) :
    ((∀ i ∈ (readHeader c behind).trace, i < c.payload.length) ↔ HeaderInside c behind) ∧
    ∀ h, (readHeader c behind).result = some (.ok (some h)) → ∀ slot ∈ h.slots, slot.aOffset ≠ 0 →
      slot.aOffset + sqlite3VdbeSerialTypeLen slot.aType ≤ c.payload.length :=
  ⟨readHeader_inside c behind, fun h hh => (readHeader_fits c behind).result _ hh h rfl⟩

theorem usable_1024 : 480 ≤ 1024 := by decide

/-- A record of two bytes on one page, whose header says that it has five bytes. -/
def shortCursor : Cursor := ⟨false, 3, 1024, [5, 1], none, usable_1024⟩

theorem readHeader_outside :
    ¬ ∀ i ∈ (readHeader shortCursor fun _ => 0).trace, i < shortCursor.payload.length := by
  decide

/-! The parse agrees with `parseHeader` where that stays inside of its buffers. -/

section Agreement

variable {memory : ℕ → UInt8} {zData : Bytes}

theorem window_eq_drop (h : ∀ i (hi : i < zData.length), memory i = zData[i]) (z : ℕ) :
    window memory zData.length z = zData.drop z := by
  refine List.ext_getElem (by simp [window]) fun i h1 h2 => ?_
  rw [List.length_drop] at h2
  simp [window, h (z + i) (by omega)]

theorem varint32At_of_get (h : ∀ i (hi : i < zData.length), memory i = zData[i]) {z : ℕ} {r : ℕ × ℕ}
    (hr : getVarint32 (zData.drop z) = some r) : (varint32At memory z).result = some r := by
  obtain ⟨t, k, -, -, hvar, hget⟩ := varint32At_spec memory zData.length z
  rw [window_eq_drop h, hr] at hget
  rw [hvar]
  split_ifs at hget
  exact hget.symm

theorem parseFieldsAt_eq (h : ∀ i (hi : i < zData.length), memory i = zData[i]) (len n zIdx offset : ℕ)
    (hok : parseFields zData len n zIdx offset ≠ .error .fault) :
    ∃ r, parseFields zData len n zIdx offset = .ok r ∧
      (parseFieldsAt memory len n zIdx offset).result = some r := by
  induction n generalizing zIdx offset with
  | zero => exact ⟨_, rfl, rfl⟩
  | succ n ih =>
    rw [parseFields] at hok ⊢
    rw [parseFieldsAt]
    split_ifs at hok ⊢ with hz
    · cases hget : getVarint32 (zData.drop zIdx) with
      | none => simp [hget] at hok
      | some r =>
        obtain ⟨t, k⟩ := r
        rw [hget] at hok
        simp only [Traced.result_bind, varint32At_of_get h hget, Option.bind_some] at hok ⊢
        split_ifs at hok ⊢
        · exact ⟨_, rfl, rfl⟩
        · obtain ⟨r, hr, hr'⟩ := ih _ _ fun he => hok (by rw [he]; rfl)
          exact ⟨_, by rw [hr]; rfl, by rw [Traced.result_bind, hr']; rfl⟩
    · obtain ⟨r, hr, hr'⟩ := ih _ _ fun he => hok (by rw [he]; rfl)
      exact ⟨_, by rw [hr]; rfl, by rw [Traced.result_bind, hr']; rfl⟩

/-- The header is read where `parseHeader` has its bytes. -/
theorem headerMemory_eq (c : Cursor) (behind : ℕ → UInt8) (len : ℕ) :
    (headerBytes c len = .error .corrupt ∧ c.headerMemory behind len = none) ∨
    ∃ zData memory, headerBytes c len = .ok zData ∧ c.headerMemory behind len = some memory ∧
      ∀ i (hi : i < zData.length), memory i = zData[i] := by
  unfold headerBytes Cursor.headerMemory sqlite3VdbeMemFromBtree
  simp only [zero_add, List.drop_zero]
  by_cases hcopy : c.aRow = none ∧ c.avail < len
  · rw [if_pos hcopy, if_pos hcopy, if_neg (by omega)]
    by_cases hlen : len ≤ c.payload.length
    · rw [if_pos hlen, if_pos hlen]
      refine .inr ⟨_, _, rfl, rfl, fun i hi => ?_⟩
      rw [Cursor.copyMemory, List.getElem?_append_left hi, List.getElem?_eq_getElem hi, Option.getD_some]
    · rw [if_neg hlen, if_neg hlen]
      exact .inl ⟨rfl, rfl⟩
  · rw [if_neg hcopy, if_neg hcopy]
    refine .inr ⟨_, _, rfl, rfl, fun i hi => ?_⟩
    rw [Cursor.pageMemory, List.getElem?_eq_getElem hi, Option.getD_some]

end Agreement

theorem readHeader_result (c : Cursor) (behind : ℕ → UInt8) (hnil : c.payload ≠ [])
    (h : parseHeader c ≠ .error .fault) :
    (readHeader c behind).result = some ((parseHeader c).map some) := by
  have hpage : ∀ i (hi : i < c.fetch.length), c.pageMemory behind i = c.fetch[i] := fun i hi => by
    simp [Cursor.pageMemory, hi]
  unfold parseHeader at h ⊢
  unfold readHeader
  rw [if_neg hnil, Traced.result_bind]
  cases hget : getVarint32 c.fetch with
  | none => simp [hget] at h
  | some r =>
    obtain ⟨offset, szHdr⟩ := r
    rw [hget] at h
    rw [varint32At_of_get hpage (z := 0) hget, Option.bind_some]
    change (readTypes c behind offset szHdr).result = _
    unfold readTypes
    dsimp only at h ⊢
    split_ifs at h ⊢ with hbig
    · rfl
    · rw [show min (c.nField * 5 + 3) offset = c.headerLen offset from rfl] at h ⊢
      generalize c.headerLen offset = len at h ⊢
      rcases headerMemory_eq c behind len with ⟨hb, hm⟩ | ⟨zData, memory, hb, hm, hagree⟩
      · rw [hb, hm]
        rfl
      · have hbind {β : Type} (f : Bytes → Except Err β) : (Except.ok zData >>= f) = f zData := rfl
        rw [hb, hbind] at h ⊢
        rw [hm]
        obtain ⟨r, hr, hr'⟩ := parseFieldsAt_eq hagree len c.nField szHdr offset fun he => h (by rw [he]; rfl)
        rw [hr]
        change ((parseFieldsAt memory len c.nField szHdr offset).result.bind _) = _
        rw [hr', Option.bind_some]
        change some _ = some (Except.map some (if _ then _ else _))
        split_ifs <;> rfl

end Sqlite.Record
