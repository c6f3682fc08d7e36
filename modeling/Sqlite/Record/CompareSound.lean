import Sqlite.Record.Order
import Sqlite.Record.Parse

/-! The comparison of stored records is the order of their values. -/
namespace Sqlite.Record
open Sqlite.Foundation

/-- The cells that a decoder builds. -/
inductive Mem.Decoded : Mem → Prop
  | null (r : ℕ) : Decoded { null := true, r := r }
  | int (i : ℤ) (hlo : -2 ^ 63 ≤ i) (hhi : i < 2 ^ 63) : Decoded { int := true, i := i }
  | real (r : ℕ) (h : ¬ sqlite3IsNaN r) : Decoded { real := true, r := r }
  | text (z : Bytes) : Decoded { str := true, z := z, n := z.length }
  | blob (z : Bytes) : Decoded { blob := true, z := z, n := z.length }

/-- A decoder makes a cell of every field, whatever stands behind the content. -/
def Reads (serialGet : Option Bytes → ℕ → Option Mem) : Prop :=
  ∀ f : Field, ∃ m : Mem, m.Decoded ∧ m.n ≤ f.content.length ∧
    ∀ rest, serialGet (some (f.content ++ rest)) f.serial_type = some m

/-- The cell for a field. -/
def Field.mem (serialGet : Option Bytes → ℕ → Option Mem) (f : Field) : Mem :=
  (serialGet (some f.content) f.serial_type).getD {}

def values (serialGet : Option Bytes → ℕ → Option Mem) (fields : List Field) : List Value :=
  fields.map fun f => (f.mem serialGet).value

theorem Reads.mem {serialGet : Option Bytes → ℕ → Option Mem} (h : Reads serialGet) (f : Field) :
    (f.mem serialGet).Decoded ∧ (f.mem serialGet).n ≤ f.content.length ∧
      ∀ rest, serialGet (some (f.content ++ rest)) f.serial_type = some (f.mem serialGet) := by
  obtain ⟨m, hm, hn, hread⟩ := h f
  have hnil := hread []
  rw [List.append_nil] at hnil
  have heq : f.mem serialGet = m := by simp [Field.mem, hnil]
  rw [heq]
  exact ⟨hm, hn, hread⟩

/-- A content of eight bytes or fewer spells a number of sixty-four bits. -/
theorem decoded_int {b : Bytes} (hne : b ≠ []) (hlen : b.length ≤ 8) :
    Mem.Decoded { int := true, i := beInt b } := by
  obtain ⟨hlo, hhi⟩ := beInt_bounds hne
  have hpow : (256 : ℤ) ^ b.length ≤ 256 ^ 8 := pow_le_pow_right₀ (by decide) hlen
  have h64 : (256 : ℤ) ^ 8 = 2 ^ 64 := by norm_num
  exact .int _ (by omega) (by omega)

theorem serialGet_decoded (f : Field) :
    ∃ m : Mem, m.Decoded ∧ m.n ≤ f.content.length ∧
      sqlite3VdbeSerialGet (some f.content) f.serial_type = some m := by
  have hlen := f.length_content
  generalize f.serial_type = t at hlen ⊢
  generalize f.content = b at hlen ⊢
  unfold sqlite3VdbeSerialGet
  dsimp only
  simp only [← hlen, le_refl, if_true, List.take_length]
  by_cases hnull : t = 0 ∨ t = 10 ∨ t = 11
  · rw [if_pos hnull]
    exact ⟨_, .null 0, Nat.zero_le _, rfl⟩
  rw [if_neg hnull]
  by_cases hconst : t = 8 ∨ t = 9
  · rw [if_pos hconst]
    exact ⟨_, .int _ (by omega) (by omega), Nat.zero_le _, rfl⟩
  rw [if_neg hconst]
  by_cases hlarge : 12 ≤ t
  · rw [if_pos hlarge]
    by_cases hodd : t % 2 = 1
    · exact ⟨_, .text b, le_rfl, by simp [hodd]⟩
    · exact ⟨_, .blob b, le_rfl, by simp [hodd]⟩
  have hsmall : ∀ t < 12, ¬ (t = 0 ∨ t = 10 ∨ t = 11) → ¬ (t = 8 ∨ t = 9) →
      0 < sqlite3VdbeSerialTypeLen t ∧ sqlite3VdbeSerialTypeLen t ≤ 8 := by decide
  obtain ⟨hpos, h8⟩ := hsmall t (by omega) hnull hconst
  rw [if_neg hlarge]
  by_cases hreal : t = 7
  · rw [if_pos hreal]
    split_ifs with hnan
    · exact ⟨_, .null _, Nat.zero_le _, rfl⟩
    · exact ⟨_, .real _ hnan, Nat.zero_le _, rfl⟩
  · rw [if_neg hreal]
    exact ⟨_, decoded_int (List.length_pos_iff.mp (by omega)) (by omega), Nat.zero_le _, rfl⟩

theorem reads_serialGet : Reads sqlite3VdbeSerialGet := by
  intro f
  obtain ⟨m, hm, hn, hget⟩ := serialGet_decoded f
  exact ⟨m, hm, hn, fun rest => by rw [serialGet_append f.length_content, hget]⟩

theorem reads_asWritten : Reads serialGetAsWritten := by
  intro f
  unfold serialGetAsWritten
  by_cases hone : f.serial_type = 1
  · exact ⟨_, .int MEM_Int (by decide) (by decide), Nat.zero_le _, fun rest => by rw [if_pos hone]⟩
  · obtain ⟨m, hm, hn, hget⟩ := reads_serialGet f
    exact ⟨m, hm, hn, fun rest => by rw [if_neg hone, hget]⟩

section
variable {toDouble : ℤ → ℕ} (sqlite3ValueText : Utf.Enc → Utf.Enc → Bytes → Option Bytes)

theorem blobCompare_eq {m1 m2 : Mem} (h1 : m1.z.length = m1.n) (h2 : m2.z.length = m2.n) :
    blobCompare m1 m2 = byteOrder m1.z m2.z := by
  simp only [blobCompare, byteOrder, ← h1, ← h2, memcmp_take]

theorem doubleLt_eq {r1 r2 : ℕ} (h1 : ¬ sqlite3IsNaN r1) (h2 : ¬ sqlite3IsNaN r2) :
    (if doubleLt r1 r2 then -1 else if doubleLt r2 r1 then (1 : ℤ) else 0) =
      threeWay (Binary64.units r1) (Binary64.units r2) := by
  simp [doubleLt, threeWay, h1, h2]

/-- A number that was rounded is none of those that are not numbers. -/
theorem toDouble_num (hround : Rounds toDouble) {i : ℤ} (hlo : -2 ^ 63 ≤ i) (hhi : i < 2 ^ 63) :
    ¬ sqlite3IsNaN (toDouble i) := by
  have hfin := (hround i hlo hhi).1
  unfold Binary64.IsFinite Binary64.exponent at hfin
  simp only [sqlite3IsNaN, decide_eq_true_eq, not_and]
  omega

/-- The flags lead to the order of the values. -/
theorem memCompare_eq (hround : Rounds toDouble) {m1 m2 : Mem} (h1 : m1.Decoded) (h2 : m2.Decoded)
    (enc : Utf.Enc) (coll : Option CollSeq) :
    sqlite3MemCompare toDouble sqlite3ValueText m1 m2 enc coll =
      byRank Value.rank (withinRank toDouble (textOrder sqlite3ValueText enc coll))
        m1.value m2.value := by
  cases h1 <;> cases h2 <;> simp [sqlite3MemCompare, Mem.value, byRank, Value.rank, withinRank]
  case null.null => simp [threeWay, Value.asDouble]
  case int.int => simp [threeWay]
  case int.real i hlo hhi r h => exact doubleLt_eq (toDouble_num hround hlo hhi) h
  case real.int r h i hlo hhi => exact doubleLt_eq h (toDouble_num hround hlo hhi)
  case real.real r1 h1 r2 h2 => exact doubleLt_eq h1 h2
  case text.text z1 z2 =>
    cases coll with
    | none => exact blobCompare_eq rfl rfl
    | some c => simp [textOrder]
  case blob.blob => exact blobCompare_eq rfl rfl

end

/-- The content of the field `k` ends inside of the record. -/
theorem drop_contents_cons {aKey : Bytes} {d : ℕ} {f : Field} {fields : List Field}
    (hd : aKey.drop d = contents (f :: fields)) :
    aKey.drop (d + f.content.length) = contents fields := by
  rw [← List.drop_drop, hd, contents_cons, List.drop_left]

section
variable {toDouble : ℤ → ℕ} {sqlite3ValueText : Utf.Enc → Utf.Enc → Bytes → Option Bytes}
  {serialGet : Option Bytes → ℕ → Option Mem}

theorem unpackLoop_spec (hreads : Reads serialGet) {aKey tail : Bytes} {szHdr k idx d : ℕ}
    {fields : List Field} (hidx : aKey.drop idx = types fields ++ tail)
    (hhdr : idx + (types fields).length = szHdr) (hd : aKey.drop d = contents fields)
    (hin : d ≤ aKey.length) :
    unpackLoop serialGet aKey szHdr k idx d = some ((fields.take k).map (Field.mem serialGet)) := by
  induction k generalizing idx d fields with
  | zero => simp [unpackLoop]
  | succ k ih =>
    cases fields with
    | nil =>
      simp only [types, List.flatMap_nil, List.length_nil] at hhdr
      rw [unpackLoop, if_neg (by omega)]
      simp
    | cons f fields =>
      have hpos := typeVarint_pos f
      rw [types_cons, List.append_assoc] at hidx
      rw [types_cons, List.length_append] at hhdr
      have hvarint := getVarint32_putVarint f.type_lt (types fields ++ tail)
      have hget := (hreads.mem f).2.2 (contents fields)
      have hlen := congrArg List.length hd
      rw [List.length_drop, contents_cons, List.length_append] at hlen
      have hnext : aKey.drop (idx + (sqlite3PutVarint f.serial_type).length) = types fields ++ tail := by
        rw [← List.drop_drop, hidx, List.drop_left]
      have hrest := ih hnext (by omega) (drop_contents_cons hd) (by omega)
      rw [contents_cons] at hd
      rw [unpackLoop, if_pos ⟨by omega, hin⟩, hidx, hvarint, hd]
      simp only [Option.bind_eq_bind, Option.bind_some, hget, ← f.length_content, hrest]
      simp

theorem short_value (hreads : Reads serialGet) {f : Field} (h : f.content.length < 2 ^ 31) :
    (f.mem serialGet).value.Short := by
  obtain ⟨hm, hn, -⟩ := hreads.mem f
  generalize f.mem serialGet = m at hm hn
  cases hm <;> simp only [Mem.value] <;> simp [Value.Short]
  all_goals exact lt_of_le_of_lt hn h

/-- The comparison of two fields, with the sign that the loop gives it. -/
theorem fieldOrder_eq (hround : Rounds toDouble) (hreads : Reads serialGet) {k : KeyInfo}
    (hk : k.IsOrder) (i : ℕ) {f g : Field} (hf : f.content.length < 2 ^ 31)
    (hg : g.content.length < 2 ^ 31) :
    (if k.desc i then
        negInt (sqlite3MemCompare toDouble sqlite3ValueText (f.mem serialGet) (g.mem serialGet) k.enc
          (k.coll i))
      else sqlite3MemCompare toDouble sqlite3ValueText (f.mem serialGet) (g.mem serialGet) k.enc
        (k.coll i)) =
      columnOrder toDouble sqlite3ValueText k i (f.mem serialGet).value (g.mem serialGet).value := by
  obtain ⟨hlo, hhi⟩ := rank_bounds toDouble sqlite3ValueText hk i (short_value hreads hf)
    (short_value hreads hg)
  rw [memCompare_eq _ hround (hreads.mem f).1 (hreads.mem g).1]
  unfold columnOrder negInt
  split_ifs
  · exact Int.bmod_eq_of_le (by omega) (by omega)
  · rfl

theorem fieldOrder_ne (hround : Rounds toDouble) (hreads : Reads serialGet) (k : KeyInfo) (i : ℕ)
    (f g : Field) :
    sqlite3MemCompare toDouble sqlite3ValueText (f.mem serialGet) (g.mem serialGet) k.enc
        (k.coll i) ≠ 0 ↔
      columnOrder toDouble sqlite3ValueText k i (f.mem serialGet).value (g.mem serialGet).value ≠
        0 := by
  rw [memCompare_eq _ hround (hreads.mem f).1 (hreads.mem g).1]
  unfold columnOrder
  cases k.desc i <;> simp

variable (sqlite3ValueText) in
/-- The loop stops at the first field that makes a difference. -/
theorem compareLoop_spec (hround : Rounds toDouble) (hreads : Reads serialGet) {p : UnpackedRecord}
    (hk : p.pKeyInfo.IsOrder) (hsearch : p.prefixSearch = false) {aKey1 tail : Bytes}
    {szHdr1 i idx1 d1 : ℕ} {xs ys : List Field} (hidx : aKey1.drop idx1 = types xs ++ tail)
    (hhdr : idx1 + (types xs).length = szHdr1) (hd : aKey1.drop d1 = contents xs)
    (hmem : p.aMem.drop i = ys.map (Field.mem serialGet))
    (hx : ∀ f ∈ xs, f.content.length < 2 ^ 31) (hy : ∀ f ∈ ys, f.content.length < 2 ^ 31) :
    compareLoop toDouble sqlite3ValueText serialGet p aKey1 szHdr1 ys.length i idx1 d1 =
      some (if firstNonzero (columnOrder toDouble sqlite3ValueText p.pKeyInfo) i
            (values serialGet xs) (values serialGet ys) ≠ 0 then
          firstNonzero (columnOrder toDouble sqlite3ValueText p.pKeyInfo) i
            (values serialGet xs) (values serialGet ys)
        else tieResult p (ys.length < xs.length), p) := by
  induction ys generalizing i idx1 d1 xs with
  | nil =>
    have hmore : (idx1 < szHdr1) ↔ ([] : List Field).length < xs.length := by
      cases xs with
      | nil => simp [types] at hhdr ⊢; omega
      | cons f xs =>
        have hpos := typeVarint_pos f
        rw [types_cons, List.length_append] at hhdr
        simp; omega
    cases xs <;> simp [compareLoop, values, firstNonzero, hmore]
  | cons g ys ih =>
    cases xs with
    | nil =>
      simp only [types, List.flatMap_nil, List.length_nil] at hhdr
      have hend : ¬ idx1 < szHdr1 := by omega
      simp [compareLoop, values, firstNonzero, hend]
    | cons f xs =>
      have hpos := typeVarint_pos f
      rw [types_cons, List.append_assoc] at hidx
      rw [types_cons, List.length_append] at hhdr
      have hvarint := getVarint32_putVarint f.type_lt (types xs ++ tail)
      have hget := (hreads.mem f).2.2 (contents xs)
      have hlen := congrArg List.length hd
      rw [List.length_drop, contents_cons, List.length_append] at hlen
      have hroom : ¬ (aKey1.length ≤ d1 ∧ 0 < f.content.length) := by omega
      have hhead : p.aMem[i]? = some (g.mem serialGet) := by
        have hzero : (p.aMem.drop i)[0]? = some (g.mem serialGet) := by simp [hmem]
        simpa using hzero
      have hnext : aKey1.drop (idx1 + (sqlite3PutVarint f.serial_type).length) = types xs ++ tail := by
        rw [← List.drop_drop, hidx, List.drop_left]
      have hmems : p.aMem.drop (i + 1) = ys.map (Field.mem serialGet) := by
        rw [← List.drop_drop, hmem]
        simp
      have hrest := ih hnext (by omega) (drop_contents_cons hd) hmems
        (fun e he => hx e (List.mem_cons_of_mem _ he)) (fun e he => hy e (List.mem_cons_of_mem _ he))
      rw [contents_cons] at hd
      rw [List.length_cons, compareLoop, if_pos (by omega), hidx, hvarint]
      simp only [Option.bind_eq_bind, Option.bind_some, if_neg hroom, hd, hget, hhead,
        ← f.length_content, hrest, fieldOrder_ne hround hreads,
        fieldOrder_eq hround hreads hk i (hx f List.mem_cons_self) (hy g List.mem_cons_self)]
      simp only [values, List.map_cons, firstNonzero, List.length_cons, Nat.add_lt_add_iff_right]
      by_cases hne : columnOrder toDouble sqlite3ValueText p.pKeyInfo i (f.mem serialGet).value
          (g.mem serialGet).value = 0
      · simp only [hne, ne_eq, not_true_eq_false, if_false]
        rfl
      · simp [hne, fieldResult, hsearch]

end

/-- A record in the format, of a size that an `int` can count. -/
structure StoredRecord where
  fields : List Field
  size_lt : (encode fields).length < 2 ^ 31

theorem StoredRecord.content_lt (r : StoredRecord) : ∀ f ∈ r.fields, f.content.length < 2 ^ 31 := by
  intro f hf
  have hlen := length_encode (lt_trans r.size_lt (by decide))
  have hle : f.content.length ≤ (contents r.fields).length := by
    unfold contents
    exact (List.sublist_flatten_of_mem (List.mem_map_of_mem hf)).length_le
  have hlt := r.size_lt
  omega

/-- The bytes of a stored record from the header's size on. -/
theorem StoredRecord.header (r : StoredRecord) :
    getVarint32 (encode r.fields) =
        some (hdrSize r.fields, (sqlite3PutVarint (hdrSize r.fields)).length) ∧
      (encode r.fields).drop (sqlite3PutVarint (hdrSize r.fields)).length =
        types r.fields ++ contents r.fields ∧
      (sqlite3PutVarint (hdrSize r.fields)).length + (types r.fields).length = hdrSize r.fields ∧
      (encode r.fields).drop (hdrSize r.fields) = contents r.fields ∧
      hdrSize r.fields ≤ (encode r.fields).length := by
  have henc : (encode r.fields).length < 2 ^ 32 := lt_trans r.size_lt (by decide)
  have hlen := length_encode henc
  have hheader := length_header_of_encode henc
  refine ⟨?_, ?_, ?_, ?_, by omega⟩
  · rw [encode, List.append_assoc, getVarint32_putVarint (by omega)]
  · rw [encode, List.append_assoc, List.drop_left]
  · rw [← List.length_append, hheader]
  · rw [encode, List.drop_left' hheader]

section
variable {toDouble : ℤ → ℕ} {sqlite3ValueText : Utf.Enc → Utf.Enc → Bytes → Option Bytes}
  {serialGet : Option Bytes → ℕ → Option Mem}

/-- What a record is unpacked to: as many fields as there is room for. -/
def StoredRecord.unpacked (serialGet : Option Bytes → ℕ → Option Mem) (k : KeyInfo)
    (r : StoredRecord) : UnpackedRecord where
  pKeyInfo := k
  nField := (r.fields.take (k.nField + 1)).length
  aMem := (r.fields.take (k.nField + 1)).map (Field.mem serialGet)

theorem recordUnpack_spec (hreads : Reads serialGet) (k : KeyInfo) (r : StoredRecord) :
    sqlite3VdbeRecordUnpack serialGet k (encode r.fields) = some (r.unpacked serialGet k) := by
  obtain ⟨hfirst, hidx, hhdr, hd, hin⟩ := r.header
  have hloop := unpackLoop_spec (k := k.nField + 1) hreads hidx hhdr hd hin
  simp [sqlite3VdbeRecordUnpack, hfirst, hloop, StoredRecord.unpacked]

variable (sqlite3ValueText) in
/-- The code's comparison is that of the values. -/
theorem compareUnpacked_eq (hround : Rounds toDouble) (hreads : Reads serialGet) {k : KeyInfo}
    (hk : k.IsOrder) (a b : StoredRecord) :
    compareUnpacked toDouble sqlite3ValueText serialGet k (encode a.fields) (encode b.fields) =
      some (recordOrder toDouble sqlite3ValueText k (values serialGet a.fields)
        (values serialGet b.fields)) := by
  obtain ⟨hfirst, hidx, hhdr, hd, -⟩ := a.header
  have hmem : (b.unpacked serialGet k).aMem.drop 0 =
      (b.fields.take (k.nField + 1)).map (Field.mem serialGet) := by simp [StoredRecord.unpacked]
  have hloop := compareLoop_spec sqlite3ValueText hround hreads (p := b.unpacked serialGet k) hk rfl
    hidx hhdr hd hmem a.content_lt (fun f hf => b.content_lt f (List.mem_of_mem_take hf))
  have hcompare : sqlite3VdbeRecordCompare toDouble sqlite3ValueText serialGet (encode a.fields)
      (b.unpacked serialGet k) = some (recordOrder toDouble sqlite3ValueText k
        (values serialGet a.fields) (values serialGet b.fields), b.unpacked serialGet k) := by
    rw [sqlite3VdbeRecordCompare, hfirst]
    simp only [Option.bind_eq_bind, Option.bind_some]
    rw [StoredRecord.unpacked] at hloop ⊢
    rw [hloop]
    simp [recordOrder, tieResult, values]
  simp [compareUnpacked, recordUnpack_spec hreads, hcompare]

/-- The values of column `i` in some records. -/
def column (serialGet : Option Bytes → ℕ → Option Mem) (S : StoredRecord → Prop) (i : ℕ) (v : Value) :
    Prop := ∃ r, S r ∧ (values serialGet r.fields)[i]? = some v

theorem inRange_column (hreads : Reads serialGet) (S : StoredRecord → Prop) (i : ℕ) :
    InRange (column serialGet S i) := by
  rintro j ⟨r, -, hv⟩
  simp only [values, List.getElem?_map, Option.map_eq_some_iff] at hv
  obtain ⟨f, -, hv⟩ := hv
  obtain ⟨hm, -, -⟩ := hreads.mem f
  generalize f.mem serialGet = m at hm hv
  cases hm with
  | int l hlo hhi =>
    obtain rfl : l = j := by simpa [Mem.value] using hv
    exact ⟨hlo, hhi⟩
  | _ => simp [Mem.value] at hv

theorem firstNonzero_take {α : Type*} (c : ℕ → α → α → ℤ) (i m : ℕ) (xs ys : List α) :
    firstNonzero c i xs (ys.take m) = firstNonzero c i (xs.take m) (ys.take m) := by
  induction m generalizing i xs ys with
  | zero => cases xs <;> simp [firstNonzero]
  | succ m ih =>
    cases xs with
    | nil => simp
    | cons x xs =>
      cases ys with
      | nil => simp [firstNonzero]
      | cons y ys =>
        simp only [List.take_succ_cons, firstNonzero]
        rw [ih]

/-- The difference among the fields that are unpacked. -/
def fieldsOrder (toDouble : ℤ → ℕ) (sqlite3ValueText : Utf.Enc → Utf.Enc → Bytes → Option Bytes)
    (serialGet : Option Bytes → ℕ → Option Mem) (k : KeyInfo) (a b : StoredRecord) : ℤ :=
  firstNonzero (columnOrder toDouble sqlite3ValueText k) 0
    ((values serialGet a.fields).take (k.nField + 1)) ((values serialGet b.fields).take (k.nField + 1))

theorem antisymm_fieldsOrder {k : KeyInfo} (hk : k.IsOrder) :
    Antisymm (fieldsOrder toDouble sqlite3ValueText serialGet k) :=
  (antisymm_firstNonzero (antisymm_columnOrder hk) 0).comap fun r : StoredRecord =>
    (values serialGet r.fields).take (k.nField + 1)

theorem transOn_fieldsOrder (hround : Rounds toDouble) (hreads : Reads serialGet) {k : KeyInfo}
    (hk : k.IsOrder) {S : StoredRecord → Prop} {n : ℕ} (hn : ∀ r, S r → r.fields.length = n)
    (hclash : ∀ i, ¬ Clash toDouble (column serialGet S i)) :
    TransOn (fieldsOrder toDouble sqlite3ValueText serialGet k) S := by
  have hlists : TransOn (firstNonzero (columnOrder toDouble sqlite3ValueText k) 0)
      fun l => ∃ r, S r ∧ (values serialGet r.fields).take (k.nField + 1) = l := by
    refine transOn_firstNonzero (antisymm_columnOrder hk) (n := min (k.nField + 1) n) ?_ fun i => ?_
    · rintro l ⟨r, hr, rfl⟩
      rw [List.length_take, values, List.length_map, hn r hr]
    · rw [Nat.zero_add]
      apply (transOn_columnOrder hround (inRange_column hreads S i) (hclash i) hk i).mono
      rintro v ⟨l, ⟨r, hr, rfl⟩, hv⟩
      rw [List.getElem?_take] at hv
      split_ifs at hv
      exact ⟨r, hr, hv⟩
  exact (hlists.comap _).mono fun r hr => ⟨r, hr, rfl⟩

theorem recordOrder_eq (k : KeyInfo) {a b : StoredRecord} (h : a.fields.length = b.fields.length) :
    recordOrder toDouble sqlite3ValueText k (values serialGet a.fields) (values serialGet b.fields) =
      if fieldsOrder toDouble sqlite3ValueText serialGet k a b ≠ 0 then
        fieldsOrder toDouble sqlite3ValueText serialGet k a b
      else if k.nField + 1 < a.fields.length then 1 else 0 := by
  have hlen : ((values serialGet b.fields).take (k.nField + 1)).length <
      (values serialGet a.fields).length ↔ k.nField + 1 < a.fields.length := by
    simp only [List.length_take, values, List.length_map]
    omega
  rw [recordOrder, firstNonzero_take]
  simp only [hlen, fieldsOrder]
  rfl

end

section
variable (toDouble : ℤ → ℕ) (sqlite3ValueText : Utf.Enc → Utf.Enc → Bytes → Option Bytes)
  (serialGet : Option Bytes → ℕ → Option Mem) (k : KeyInfo)

/-- The comparison of two stored records gives `rc`. -/
def Compares (a b : StoredRecord) (rc : ℤ) : Prop :=
  compareUnpacked toDouble sqlite3ValueText serialGet k (encode a.fields) (encode b.fields) = some rc

/-- The first difference of the fields that are unpacked, or the larger record where more follow. -/
def CompareSpec (S : StoredRecord → Prop) (n : ℕ) : Prop :=
  ∀ a b, S a → S b → Compares toDouble sqlite3ValueText serialGet k a b
    (if fieldsOrder toDouble sqlite3ValueText serialGet k a b ≠ 0 then
      fieldsOrder toDouble sqlite3ValueText serialGet k a b
    else if k.nField + 1 < n then 1 else 0)

def CompareAntisymm (S : StoredRecord → Prop) : Prop :=
  ∀ a b x y, S a → S b → Compares toDouble sqlite3ValueText serialGet k a b x →
    Compares toDouble sqlite3ValueText serialGet k b a y → (0 < x ↔ y < 0)

def CompareTrans (S : StoredRecord → Prop) : Prop :=
  ∀ a b c x y z, S a → S b → S c → Compares toDouble sqlite3ValueText serialGet k a b x →
    Compares toDouble sqlite3ValueText serialGet k b c y →
    Compares toDouble sqlite3ValueText serialGet k a c z → x ≤ 0 → y ≤ 0 → z ≤ 0

end

theorem rounds_ofInt : Rounds Binary64.ofInt :=
  fun _ hlo hhi => Binary64.ofInt_nearest (by omega)

/-- One column in the order of the bytes. -/
def oneColumn : KeyInfo where
  enc := .SQLITE_UTF8
  nField := 1
  aSortOrder := none
  aColl := [none]
  length_aColl := rfl
  length_aSortOrder := by simp
  nField_le := by decide

theorem isOrder_oneColumn : oneColumn.IsOrder := by
  intro c hc
  simp [oneColumn] at hc

theorem length_number (serial_type : Fin 2) (v : ℕ) :
    (beBytes 8 v).length = sqlite3VdbeSerialTypeLen (6 + serial_type.val) := by
  rw [length_beBytes]
  revert serial_type
  decide

/-- Eight bytes, of an integer or of a real by the serial type. -/
def numberField (serial_type : Fin 2) (v : ℕ) : Field where
  serial_type := 6 + serial_type.val
  content := beBytes 8 v
  type_lt := by omega
  length_content := length_number serial_type v

theorem length_numberRecord (serial_type : Fin 2) (v : ℕ) :
    (encode [numberField serial_type v]).length < 2 ^ 31 := by
  have hhdr : ∀ t : Fin 2, (sqlite3PutVarint (headerSize (sqlite3PutVarint (6 + t.val)).length) ++
      sqlite3PutVarint (6 + t.val)).length = 2 := by decide
  have hlen := hhdr serial_type
  rw [List.length_append] at hlen
  simp [encode, hdrSize, types, contents, numberField]
  omega

def numberRecord (serial_type : Fin 2) (v : ℕ) : StoredRecord where
  fields := [numberField serial_type v]
  size_lt := length_numberRecord serial_type v

/-- The comparison of stored records, by the decoder as it stands and by the one that is meant. It
is antisymmetric where all fields are unpacked, and transitive on records without two integers of
one double beside the real that they round to. -/
theorem recordCompare_order (serialGet : Option Bytes → ℕ → Option Mem)
    (hget : serialGet = serialGetAsWritten ∨ serialGet = sqlite3VdbeSerialGet) (toDouble : ℤ → ℕ)
    (hround : Rounds toDouble) (sqlite3ValueText : Utf.Enc → Utf.Enc → Bytes → Option Bytes)
    (k : KeyInfo) (hk : k.IsOrder) (S : StoredRecord → Prop) (n : ℕ)
    (hn : ∀ r, S r → r.fields.length = n) :
    CompareSpec toDouble sqlite3ValueText serialGet k S n ∧
      (n ≤ k.nField + 1 → CompareAntisymm toDouble sqlite3ValueText serialGet k S) ∧
      ((∀ i, ¬ Clash toDouble (column serialGet S i)) →
        CompareTrans toDouble sqlite3ValueText serialGet k S) := by
  have hreads : Reads serialGet := by
    rcases hget with rfl | rfl
    · exact reads_asWritten
    · exact reads_serialGet
  have hspec : CompareSpec toDouble sqlite3ValueText serialGet k S n := by
    intro a b ha hb
    have heq := compareUnpacked_eq sqlite3ValueText hround hreads hk a b
    rw [recordOrder_eq k ((hn a ha).trans (hn b hb).symm), hn a ha] at heq
    exact heq
  have hvalue (a b : StoredRecord) (x : ℤ) (ha : S a) (hb : S b)
      (hx : Compares toDouble sqlite3ValueText serialGet k a b x) := Option.some.inj
    ((hspec a b ha hb).symm.trans hx)
  refine ⟨hspec, fun hle a b x y ha hb hx hy => ?_, fun hclash a b c x y z ha hb hc hx hy hz => ?_⟩
  · have hanti : Antisymm (fieldsOrder toDouble sqlite3ValueText serialGet k) :=
      antisymm_fieldsOrder hk
    have hab := hanti a b
    have hba := hanti b a
    rw [← hvalue a b x ha hb hx, ← hvalue b a y hb ha hy]
    split_ifs <;> omega
  · have htrans : TransOn (fieldsOrder toDouble sqlite3ValueText serialGet k) S :=
      transOn_fieldsOrder hround hreads hk hn hclash
    have hle := htrans a b c ha hb hc
    have hsq := htrans.squeeze (antisymm_fieldsOrder hk) ha hb hc
    rw [← hvalue a b x ha hb hx, ← hvalue b c y hb hc hy, ← hvalue a c z ha hc hz]
    split_ifs <;> omega

/-- The integer five is below the real eight. -/
theorem recordCompare_order_numbers :
    Compares Binary64.ofInt (fun _ _ z => some z) serialGetAsWritten oneColumn (numberRecord 0 5)
      (numberRecord 1 0x4020000000000000) (-1) := by
  have hn : ∀ r, r = numberRecord 0 5 ∨ r = numberRecord 1 0x4020000000000000 →
      r.fields.length = 1 := by
    rintro r (rfl | rfl)
    · rfl
    · rfl
  obtain ⟨hspec, -, -⟩ := recordCompare_order serialGetAsWritten (Or.inl rfl) Binary64.ofInt
    rounds_ofInt (fun _ _ z => some z) oneColumn isOrder_oneColumn _ 1 hn
  have heq := hspec (numberRecord 0 5) (numberRecord 1 0x4020000000000000) (by simp) (by simp)
  have horder : fieldsOrder Binary64.ofInt (fun _ _ z => some z) serialGetAsWritten oneColumn
      (numberRecord 0 5) (numberRecord 1 0x4020000000000000) = -1 := by decide +kernel
  simpa [horder] using heq

/-- Three fields where the key has one column. -/
def longRecord : StoredRecord where
  fields := [numberField 0 1, numberField 0 2, numberField 0 3]
  size_lt := by decide

/-- The order of the bytes, with the least `int` for "less". -/
def leastInt : CollSeq where
  enc := .SQLITE_UTF8
  xCmp x y := if byteOrder x y < 0 then -2 ^ 31 else if 0 < byteOrder x y then 1 else 0

theorem isPreorder_leastInt : leastInt.IsPreorder where
  antisymm := by
    intro x y
    have hxy := antisymm_byteOrder x y
    have hyx := antisymm_byteOrder y x
    simp only [leastInt]
    split_ifs <;> omega
  trans := by
    intro x y z _ _ _
    have hle := transOn_byteOrder x y z trivial trivial trivial
    simp only [leastInt]
    split_ifs <;> omega

def descending : KeyInfo where
  enc := .SQLITE_UTF8
  nField := 1
  aSortOrder := some [true]
  aColl := [some leastInt]
  length_aColl := rfl
  length_aSortOrder := by simp
  nField_le := by decide

theorem isPreorder_descending : descending.IsPreorder := by
  intro c hc
  obtain rfl : c = leastInt := by simpa [descending] using hc
  exact isPreorder_leastInt

def textField (b : UInt8) : Field where
  serial_type := 15
  content := [b]
  type_lt := by decide
  length_content := rfl

def textA : StoredRecord where
  fields := [textField 65]
  size_lt := by decide

def textB : StoredRecord where
  fields := [textField 66]
  size_lt := by decide

/-- Two integers of one double beside the real that they are rounded to; records with more fields
than are unpacked; and the least `int`, which has no negative. -/
theorem recordCompare_not_preorder :
    (¬ ∀ (toDouble : ℤ → ℕ) (sqlite3ValueText : Utf.Enc → Utf.Enc → Bytes → Option Bytes)
      (k : KeyInfo) (n : ℕ), Rounds toDouble → k.IsOrder → n ≤ k.nField + 1 →
        CompareTrans toDouble sqlite3ValueText serialGetAsWritten k fun r => r.fields.length = n) ∧
    (¬ ∀ (toDouble : ℤ → ℕ) (sqlite3ValueText : Utf.Enc → Utf.Enc → Bytes → Option Bytes)
      (k : KeyInfo) (n : ℕ), Rounds toDouble → k.IsOrder →
        CompareAntisymm toDouble sqlite3ValueText serialGetAsWritten k fun r => r.fields.length = n) ∧
    ¬ ∀ (toDouble : ℤ → ℕ) (sqlite3ValueText : Utf.Enc → Utf.Enc → Bytes → Option Bytes)
      (k : KeyInfo) (n : ℕ), Rounds toDouble → k.IsPreorder → n ≤ k.nField + 1 →
        CompareAntisymm toDouble sqlite3ValueText serialGetAsWritten k
          fun r => r.fields.length = n := by
  refine ⟨fun h => ?_, fun h => ?_, fun h => ?_⟩
  · have hle := h Binary64.ofInt (fun _ _ z => some z) oneColumn 1 rounds_ofInt isOrder_oneColumn
      (by decide) (numberRecord 0 (2 ^ 53 + 1)) (numberRecord 1 0x4340000000000000)
      (numberRecord 0 (2 ^ 53)) 0 0 1 rfl rfl rfl
    unfold Compares at hle
    have hpos : ¬ (1 : ℤ) ≤ 0 := by decide
    exact hpos (hle (by decide +kernel) (by decide +kernel) (by decide +kernel) le_rfl le_rfl)
  · have hiff := h Binary64.ofInt (fun _ _ z => some z) oneColumn 3 rounds_ofInt isOrder_oneColumn
      longRecord longRecord 1 1 rfl rfl
    unfold Compares at hiff
    have hpos : ¬ ((0 : ℤ) < 1 ↔ (1 : ℤ) < 0) := by decide
    exact hpos (hiff (by decide +kernel) (by decide +kernel))
  · have hiff := h Binary64.ofInt (fun _ _ z => some z) descending 1 rounds_ofInt
      isPreorder_descending (by decide) textB textA (-1) (-2 ^ 31) rfl rfl
    unfold Compares at hiff
    have hneg : ¬ ((0 : ℤ) < -1 ↔ (-2 ^ 31 : ℤ) < 0) := by decide
    exact hneg (hiff (by decide +kernel) (by decide +kernel))

end Sqlite.Record
