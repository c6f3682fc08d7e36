import Sqlite.Record.CompareSound

/-! A key is read inside of its bytes by every comparison exactly when its header and the fields
that begin inside of it end there. -/
namespace Sqlite.Record.Bounds
open Sqlite.Foundation

section

/-! The comparison and the unpacking of a key of any bytes: what is read outside of the key. -/

inductive Fault
  /-- A byte before or behind the key is read. -/
  | overread
  /-- An assertion fails, or a cell of the unpacked record is missing. -/
  | assertion
  deriving DecidableEq

/-- The bytes of the key at the pointer `&aKey[d]`, where `d` is an `int`. -/
def keyFrom (aKey : Bytes) (d : ℤ) : Bytes := if 0 ≤ d then aKey.drop d.toNat else []

def varintAt (aKey : Bytes) (idx : ℕ) : Except Fault (ℕ × ℕ) :=
  match getVarint32 (aKey.drop idx) with
  | some r => .ok r
  | none => .error .overread

section
variable (serialGet : Option Bytes → ℕ → Option Mem)

/-- A text or blob stays where it is: its `n` bytes may go beyond those of the key at `z`. -/
def serialGetAt (aKey : Bytes) (d : ℤ) (serial_type : ℕ) : Except Fault Mem :=
  if 12 ≤ serial_type then
    let len := sqlite3VdbeSerialTypeLen serial_type
    let isText := serial_type % 2 = 1
    .ok { str := isText, blob := ¬ isText, z := (keyFrom aKey d).take len, n := len }
  else
    match serialGet (some (keyFrom aKey d)) serial_type with
    | some m => .ok m
    | none => .error .overread

/-- How many bytes of `pMem1->z` are read to compare two cells. A collating function may read all
that it is given, and so may a conversion to its encoding. -/
def bytesRead (pMem1 pMem2 : Mem) (pColl : Option CollSeq) : ℕ :=
  if pMem1.null ∨ pMem2.null then 0
  else if pMem1.int ∨ pMem1.real ∨ pMem2.int ∨ pMem2.real then 0
  else if pMem1.str ∧ pMem2.str ∧ pColl.isSome then pMem1.n
  else if pMem1.str ≠ pMem2.str then 0
  else min pMem1.n pMem2.n

/-- A cell of a key: its value, and the bytes in the record that it stands for. -/
structure Cell where
  d : ℤ
  len : ℕ
  mem : Mem

/-- The loop, with room for `k` more fields. -/
def unpackLoop (aKey : Bytes) (szHdr : ℕ) : ℕ → ℕ → ℤ → Except Fault (List Cell)
  | 0, _, _ => .ok []
  | k + 1, idx, d =>
    if idx < szHdr ∧ d ≤ aKey.length then do
      let (serial_type, n) ← varintAt aKey idx
      let mem ← serialGetAt serialGet aKey d serial_type
      let len := sqlite3VdbeSerialTypeLen serial_type
      let rest ← unpackLoop aKey szHdr k (idx + n) (d + len)
      return ⟨d, len, mem⟩ :: rest
    else .ok []

/-- The cells of the unpacked record. The size of the header becomes an `int`. -/
def sqlite3VdbeRecordUnpack (pKeyInfo : KeyInfo) (aKey : Bytes) : Except Fault (List Cell) := do
  let (szHdr, idx) ← varintAt aKey 0
  unpackLoop serialGet aKey szHdr (pKeyInfo.nField + 1) idx (Int.bmod szHdr (2 ^ 32))

variable (toDouble : ℤ → ℕ) (sqlite3ValueText : Utf.Enc → Utf.Enc → Bytes → Option Bytes)

/-- The loop, with `k` fields of the unpacked record left. -/
def compareLoop (pPKey2 : UnpackedRecord) (aKey1 : Bytes) (szHdr1 : ℕ) :
    ℕ → ℕ → ℕ → ℤ → Except Fault (ℤ × UnpackedRecord)
  | 0, _, idx1, _ => .ok (tieResult pPKey2 (idx1 < szHdr1), pPKey2)
  | k + 1, i, idx1, d1 =>
    if idx1 < szHdr1 then do
      let (serial_type1, n) ← varintAt aKey1 idx1
      if aKey1.length ≤ d1 ∧ 0 < sqlite3VdbeSerialTypeLen serial_type1 then
        .ok (tieResult pPKey2 (idx1 + n < szHdr1), pPKey2)
      else
        let mem1 ← serialGetAt serialGet aKey1 d1 serial_type1
        match pPKey2.aMem[i]? with
        | none => .error .assertion
        | some mem2 =>
          let pColl := pPKey2.pKeyInfo.coll i
          if mem1.z.length < bytesRead mem1 mem2 pColl then .error .overread
          else
            let rc := sqlite3MemCompare toDouble sqlite3ValueText mem1 mem2 pPKey2.pKeyInfo.enc pColl
            if rc ≠ 0 then
              match fieldResult pPKey2 i (idx1 + n = szHdr1) mem1
                (if pPKey2.pKeyInfo.desc i then negInt rc else rc) with
              | none => .error .assertion
              | some r => .ok r
            else
              compareLoop pPKey2 aKey1 szHdr1 k (i + 1) (idx1 + n)
                (d1 + sqlite3VdbeSerialTypeLen serial_type1)
    else .ok (tieResult pPKey2 (idx1 < szHdr1), pPKey2)

/-- The result and what became of the unpacked record. -/
def sqlite3VdbeRecordCompare (aKey1 : Bytes) (pPKey2 : UnpackedRecord) :
    Except Fault (ℤ × UnpackedRecord) := do
  let (szHdr1, idx1) ← varintAt aKey1 0
  compareLoop serialGet toDouble sqlite3ValueText pPKey2 aKey1 szHdr1 pPKey2.nField 0 idx1
    (Int.bmod szHdr1 (2 ^ 32))

end

end

/-- The content of a field lies in the key. -/
abbrev Inside (aKey : Bytes) (d : ℤ) (len : ℕ) : Prop :=
  len = 0 ∨ (0 ≤ d ∧ d + len ≤ aKey.length)

/-- The field at `d` can be decoded and compared with any value. -/
def Readable (serialGet : Option Bytes → ℕ → Option Mem) (aKey : Bytes) (d : ℤ) (t : ℕ) : Prop :=
  if 12 ≤ t then Inside aKey d (sqlite3VdbeSerialTypeLen t)
  else ∃ m, serialGet (some (keyFrom aKey d)) t = some m

/-- Up to the first field whose content would begin at the end of the key or behind it, the serial
types lie in the key and the fields are readable, for at most `k` fields. -/
def Fits (serialGet : Option Bytes → ℕ → Option Mem) (aKey : Bytes) (szHdr : ℕ) :
    ℕ → ℕ → ℤ → Prop
  | 0, _, _ => True
  | k + 1, idx, d => idx < szHdr → ∃ t n, getVarint32 (aKey.drop idx) = some (t, n) ∧
      ((aKey.length ≤ d ∧ 0 < sqlite3VdbeSerialTypeLen t) ∨
        (Readable serialGet aKey d t ∧
          Fits serialGet aKey szHdr k (idx + n) (d + sqlite3VdbeSerialTypeLen t)))

/-- As long as the contents do not begin behind the end of the key, they and the serial types lie
in it. -/
def Unpacks (aKey : Bytes) (szHdr : ℕ) : ℕ → ℕ → ℤ → Prop
  | 0, _, _ => True
  | k + 1, idx, d => idx < szHdr → d ≤ aKey.length →
      ∃ t n, getVarint32 (aKey.drop idx) = some (t, n) ∧
        Inside aKey d (sqlite3VdbeSerialTypeLen t) ∧
        Unpacks aKey szHdr k (idx + n) (d + sqlite3VdbeSerialTypeLen t)

/-- The first `n` fields of a key, for the comparison. -/
def KeyFits (serialGet : Option Bytes → ℕ → Option Mem) (aKey : Bytes) (n : ℕ) : Prop :=
  ∃ szHdr idx, getVarint32 aKey = some (szHdr, idx) ∧
    Fits serialGet aKey szHdr n idx (Int.bmod szHdr (2 ^ 32))

def KeyUnpacks (aKey : Bytes) (n : ℕ) : Prop :=
  ∃ szHdr idx, getVarint32 aKey = some (szHdr, idx) ∧
    Unpacks aKey szHdr n idx (Int.bmod szHdr (2 ^ 32))

/-- Cells with values in the fields, and no more fields than the key has columns, with the rowid. -/
structure WellFormed (p : UnpackedRecord) : Prop where
  length_aMem : p.aMem.length = p.nField
  nField_le : p.nField ≤ p.pKeyInfo.nField + 1
  valid : ∀ m ∈ p.aMem, m.Valid

section Cells

variable {toDouble : ℤ → ℕ} {sqlite3ValueText : Utf.Enc → Utf.Enc → Bytes → Option Bytes}

theorem bytesRead_le {m1 : Mem} (h : m1.Valid) (m2 : Mem) (coll : Option CollSeq) :
    bytesRead m1 m2 coll ≤ m1.z.length := by
  unfold bytesRead
  have htyped := h.typed
  have hz := h.length_z
  split_ifs with hnull hnum hstr hclass
  · exact Nat.zero_le _
  · exact Nat.zero_le _
  · exact (hz (.inl hstr.1)).ge
  · exact Nat.zero_le _
  · have hn : m1.z.length = m1.n := hz (by tauto)
    omega

theorem memcmp_self (z : Bytes) : memcmp z z = 0 := by
  induction z with
  | nil => rfl
  | cons b z ih => rw [memcmp, if_pos rfl, ih]

theorem memCompare_self (m : Mem) (enc : Utf.Enc) :
    sqlite3MemCompare toDouble sqlite3ValueText m m enc none = 0 := by
  have hblob : blobCompare m m = 0 := by simp [blobCompare, memcmp_self]
  have hreal : ∀ r, doubleLt r r = false := by simp [doubleLt]
  unfold sqlite3MemCompare
  by_cases hnull : m.null
  · simp [hnull]
  by_cases hint : m.int
  · by_cases hr : m.real <;> simp [hnull, hint]
  · by_cases hr : m.real
    · simp [hnull, hint, hr, hreal]
    · by_cases hstr : m.str <;> simp [hnull, hint, hr, hstr, hblob]

end Cells

section Decoder

variable {serialGet : Option Bytes → ℕ → Option Mem}
  (hget : serialGet = serialGetAsWritten ∨ serialGet = sqlite3VdbeSerialGet)

theorem valid_null (r : ℕ) : Mem.Valid { null := true, r := r } := by
  constructor <;> simp [Mem.size]

theorem valid_int {i : ℤ} (hlo : -2 ^ 63 ≤ i) (hhi : i < 2 ^ 63) :
    Mem.Valid { int := true, i := i } := by
  constructor <;> simp [Mem.size] <;> omega

/-- A number that is decoded is a value. -/
theorem valid_serialGet {b : Bytes} {t : ℕ} (ht : t < 12) {m : Mem}
    (h : sqlite3VdbeSerialGet (some b) t = some m) : m.Valid := by
  have hsmall : ∀ t < 12, ¬ (t = 0 ∨ t = 10 ∨ t = 11) → ¬ (t = 8 ∨ t = 9) →
      0 < sqlite3VdbeSerialTypeLen t ∧ sqlite3VdbeSerialTypeLen t ≤ 8 := by decide
  unfold sqlite3VdbeSerialGet at h
  dsimp only at h
  by_cases hnull : t = 0 ∨ t = 10 ∨ t = 11
  · rw [if_pos hnull] at h
    exact Option.some.inj h ▸ valid_null 0
  rw [if_neg hnull] at h
  by_cases hconst : t = 8 ∨ t = 9
  · rw [if_pos hconst] at h
    exact Option.some.inj h ▸ valid_int (by omega) (by omega)
  rw [if_neg hconst, if_neg (by omega)] at h
  obtain ⟨hpos, h8⟩ := hsmall t ht hnull hconst
  by_cases hroom : sqlite3VdbeSerialTypeLen t ≤ b.length
  · rw [if_pos hroom] at h
    have hlen : (b.take (sqlite3VdbeSerialTypeLen t)).length = sqlite3VdbeSerialTypeLen t :=
      List.length_take_of_le hroom
    by_cases hreal : t = 7
    · rw [if_pos hreal] at h
      obtain rfl := Option.some.inj h
      split_ifs with hnan
      · exact valid_null _
      · have hlt := beNat_lt (b.take (sqlite3VdbeSerialTypeLen t))
        have hpow : 256 ^ (b.take (sqlite3VdbeSerialTypeLen t)).length ≤ 256 ^ 8 :=
          pow_le_pow_right₀ (by decide) (by omega)
        have h64 : 256 ^ 8 = 2 ^ 64 := by norm_num
        constructor <;> simp [Mem.size, hnan]
        omega
    · rw [if_neg hreal] at h
      have hint := decoded_int (List.length_pos_iff.mp (by omega :
        0 < (b.take (sqlite3VdbeSerialTypeLen t)).length)) (by omega)
      obtain rfl := Option.some.inj h
      generalize beInt (b.take (sqlite3VdbeSerialTypeLen t)) = i at hint ⊢
      cases hint with
      | int i hlo hhi => exact valid_int hlo hhi
  · rw [if_neg hroom] at h
    exact absurd h (by simp)

include hget in
theorem valid_decoder {b : Bytes} {t : ℕ} (ht : t < 12) {m : Mem}
    (h : serialGet (some b) t = some m) : m.Valid := by
  rcases hget with rfl | rfl
  · unfold serialGetAsWritten at h
    split_ifs at h
    · obtain rfl := Option.some.inj h
      constructor <;> simp [MEM_Int, Mem.size]
    · exact valid_serialGet ht h
  · exact valid_serialGet ht h

include hget in
theorem decoder_isSome {b : Bytes} {t : ℕ} (h : sqlite3VdbeSerialTypeLen t ≤ b.length) :
    ∃ m, serialGet (some b) t = some m := by
  rcases hget with rfl | rfl
  · unfold serialGetAsWritten
    split_ifs
    · exact ⟨_, rfl⟩
    · exact serialGet_isSome h
  · exact serialGet_isSome h

end Decoder

theorem varintAt_eq {aKey : Bytes} {idx : ℕ} {r : ℕ × ℕ}
    (h : getVarint32 (aKey.drop idx) = some r) : varintAt aKey idx = .ok r := by
  simp [varintAt, h]

theorem varintAt_none {aKey : Bytes} {idx : ℕ} (h : getVarint32 (aKey.drop idx) = none) :
    varintAt aKey idx = .error .overread := by
  simp [varintAt, h]

theorem length_keyFrom {aKey : Bytes} {d : ℤ} {len : ℕ} :
    len ≤ (keyFrom aKey d).length ↔ Inside aKey d len := by
  unfold keyFrom Inside
  split_ifs with h
  · rw [List.length_drop]
    omega
  · simp
    omega

section Field

variable {serialGet : Option Bytes → ℕ → Option Mem}
  (hget : serialGet = serialGetAsWritten ∨ serialGet = sqlite3VdbeSerialGet)
  {aKey : Bytes} {d : ℤ} {t : ℕ}

include hget

/-- A readable field gives a cell with all of its bytes. -/
theorem serialGetAt_readable (ht : t < 2 ^ 32) (h : Readable serialGet aKey d t) :
    ∃ m, serialGetAt serialGet aKey d t = .ok m ∧ m.Valid := by
  unfold Readable at h
  unfold serialGetAt
  by_cases hlarge : 12 ≤ t
  · rw [if_pos hlarge] at h
    rw [if_pos hlarge]
    refine ⟨_, rfl, ?_⟩
    have hlen := List.length_take_of_le (length_keyFrom.mpr h)
    have hsize : sqlite3VdbeSerialTypeLen t < 2 ^ 31 := by
      rw [sqlite3VdbeSerialTypeLen, if_pos hlarge]
      omega
    constructor <;> simp [Mem.size]
    · omega
    · intro _
      simpa using hlen
    · simpa using hsize
  · rw [if_neg hlarge] at h
    rw [if_neg hlarge]
    obtain ⟨m, hm⟩ := h
    exact ⟨m, by rw [hm], valid_decoder hget (by omega) hm⟩

omit hget in
/-- A field that is not readable makes the comparison with some value read outside of the key. -/
theorem serialGetAt_unreadable (ht : t < 2 ^ 32) (h : ¬ Readable serialGet aKey d t) :
    serialGetAt serialGet aKey d t = .error .overread ∨
      ∃ m m2, serialGetAt serialGet aKey d t = .ok m ∧ m2.Valid ∧
        m.z.length < bytesRead m m2 none := by
  unfold Readable at h
  unfold serialGetAt
  by_cases hlarge : 12 ≤ t
  · rw [if_pos hlarge] at h
    rw [if_pos hlarge]
    have hlt := mt length_keyFrom.mp h
    have hsize : sqlite3VdbeSerialTypeLen t < 2 ^ 31 := by
      rw [sqlite3VdbeSerialTypeLen, if_pos hlarge]
      omega
    let m2 : Mem := {
      str := decide (t % 2 = 1), blob := decide (¬ t % 2 = 1), n := sqlite3VdbeSerialTypeLen t
      z := List.replicate (sqlite3VdbeSerialTypeLen t) 0 }
    refine .inr ⟨_, m2, rfl, ?_, ?_⟩
    · constructor <;> simp [m2, Mem.size]
      · omega
      · simpa using hsize
    · simp [m2, bytesRead]
      omega
  · rw [if_neg hlarge] at h
    rw [if_neg hlarge]
    cases hm : serialGet (some (keyFrom aKey d)) t with
    | none => exact .inl rfl
    | some m => exact absurd ⟨m, hm⟩ h

end Field

section Compare

variable {toDouble : ℤ → ℕ} {sqlite3ValueText : Utf.Enc → Utf.Enc → Bytes → Option Bytes}
  {serialGet : Option Bytes → ℕ → Option Mem}
  (hget : serialGet = serialGetAsWritten ∨ serialGet = sqlite3VdbeSerialGet)
  {aKey : Bytes} {szHdr n : ℕ}

include hget

/-- The comparison stays inside of a key that fits. -/
theorem compareLoop_fits {p : UnpackedRecord} {k i idx : ℕ} {d : ℤ} (hk : k ≤ n)
    (h : Fits serialGet aKey szHdr n idx d) :
    compareLoop serialGet toDouble sqlite3ValueText p aKey szHdr k i idx d ≠ .error .overread := by
  induction k generalizing n i idx d with
  | zero => simp [compareLoop]
  | succ k ih =>
    obtain ⟨n, rfl⟩ : ∃ m, n = m + 1 := ⟨n - 1, by omega⟩
    rw [compareLoop]
    by_cases hidx : idx < szHdr
    · obtain ⟨t, w, hvar, hfield⟩ := h hidx
      simp only [if_pos hidx, varintAt_eq hvar, bind, Except.bind]
      by_cases hend : (aKey.length : ℤ) ≤ d ∧ 0 < sqlite3VdbeSerialTypeLen t
      · simp [if_pos hend]
      obtain ⟨hread, hrest⟩ := hfield.resolve_left hend
      obtain ⟨m, hm, hv⟩ := serialGetAt_readable hget (getVarint32_lt hvar) hread
      simp only [if_neg hend, hm]
      cases hmem : p.aMem[i]? with
      | none => simp
      | some m2 =>
        have hbytes := bytesRead_le hv m2 (p.pKeyInfo.coll i)
        dsimp only
        rw [if_neg (by omega)]
        by_cases hrc : sqlite3MemCompare toDouble sqlite3ValueText m m2 p.pKeyInfo.enc
            (p.pKeyInfo.coll i) = 0
        · rw [if_neg (not_not_intro hrc)]
          exact ih (by omega) hrest
        · rw [if_pos hrc]
          split <;> simp
    · simp [if_neg hidx]

/-- Where a key does not fit, its own fields as far as they are readable lead to the one that is
not. -/
theorem compareLoop_not_fits {idx : ℕ} {d : ℤ} (h : ¬ Fits serialGet aKey szHdr n idx d) :
    ∃ ms : List Mem, ms.length ≤ n ∧ (∀ m ∈ ms, m.Valid) ∧
      ∀ (p : UnpackedRecord) (i : ℕ), p.aMem.drop i = ms → (∀ j, p.pKeyInfo.coll j = none) →
        compareLoop serialGet toDouble sqlite3ValueText p aKey szHdr ms.length i idx d =
          .error .overread := by
  induction n generalizing idx d with
  | zero => exact absurd trivial h
  | succ n ih =>
    obtain ⟨hidx, hno⟩ := Classical.not_imp.mp h
    have hhead {p : UnpackedRecord} {i : ℕ} {m : Mem} {ms : List Mem}
        (hp : p.aMem.drop i = m :: ms) : p.aMem[i]? = some m ∧ p.aMem.drop (i + 1) = ms := by
      have hzero : (p.aMem.drop i)[0]? = some m := by simp [hp]
      exact ⟨by simpa using hzero, by rw [← List.drop_drop, hp]; rfl⟩
    cases hvar : getVarint32 (aKey.drop idx) with
    | none =>
      refine ⟨[{ null := true }], by simp, by simpa using valid_null 0, fun p i _ _ => ?_⟩
      rw [List.length_singleton, compareLoop, if_pos hidx, varintAt_none hvar]
      rfl
    | some r =>
      obtain ⟨t, w⟩ := r
      have hend : ¬((aKey.length : ℤ) ≤ d ∧ 0 < sqlite3VdbeSerialTypeLen t) :=
        fun hend => hno ⟨t, w, hvar, .inl hend⟩
      have ht := getVarint32_lt hvar
      by_cases hread : Readable serialGet aKey d t
      · have hrest := fun hfit => hno ⟨t, w, hvar, .inr ⟨hread, hfit⟩⟩
        obtain ⟨ms, hlen, hval, hms⟩ := ih hrest
        obtain ⟨m, hm, hv⟩ := serialGetAt_readable hget ht hread
        refine ⟨m :: ms, by simpa using hlen, by simpa using ⟨hv, hval⟩, fun p i hp hcoll => ?_⟩
        obtain ⟨hmem, hdrop⟩ := hhead hp
        have hbytes := bytesRead_le hv m (p.pKeyInfo.coll i)
        have hself := @memCompare_self toDouble sqlite3ValueText m p.pKeyInfo.enc
        rw [List.length_cons, compareLoop]
        simp only [if_pos hidx, varintAt_eq hvar, bind, Except.bind, if_neg hend, hm, hmem]
        rw [if_neg (by omega), hcoll, hself, if_neg (by simp)]
        exact hms p (i + 1) hdrop hcoll
      · rcases serialGetAt_unreadable ht hread with hm | ⟨m, m2, hm, hv, hbytes⟩
        · refine ⟨[{ null := true }], by simp, by simpa using valid_null 0, fun p i _ _ => ?_⟩
          rw [List.length_singleton, compareLoop]
          simp only [if_pos hidx, varintAt_eq hvar, bind, Except.bind, if_neg hend, hm]
        · refine ⟨[m2], by simp, by simpa using hv, fun p i hp hcoll => ?_⟩
          rw [List.length_singleton, compareLoop]
          simp only [if_pos hidx, varintAt_eq hvar, bind, Except.bind, if_neg hend, hm,
            (hhead hp).1, hcoll, if_pos hbytes]

end Compare

section Agree

variable {toDouble : ℤ → ℕ} {sqlite3ValueText : Utf.Enc → Utf.Enc → Bytes → Option Bytes}
  {serialGet : Option Bytes → ℕ → Option Mem}
  (hget : serialGet = serialGetAsWritten ∨ serialGet = sqlite3VdbeSerialGet)
  {aKey : Bytes}

include hget

/-- A cell for bytes that are all there. -/
theorem serialGetAt_of_some {d t : ℕ} {m : Mem} (h : serialGet (some (aKey.drop d)) t = some m) :
    serialGetAt serialGet aKey d t = .ok m ∧ Readable serialGet aKey d t := by
  have hfrom : keyFrom aKey d = aKey.drop d := by simp [keyFrom]
  unfold serialGetAt Readable
  rw [hfrom]
  by_cases hlarge : 12 ≤ t
  · have hfull : sqlite3VdbeSerialGet (some (aKey.drop d)) t = some m := by
      rcases hget with rfl | rfl
      · rwa [serialGetAsWritten, if_neg (by omega)] at h
      · exact h
    dsimp only [sqlite3VdbeSerialGet] at hfull
    rw [if_neg (by omega), if_neg (by omega), if_pos hlarge] at hfull
    split_ifs at hfull with hroom
    rw [if_pos hlarge, if_pos hlarge, ← Option.some.inj hfull]
    rw [← hfrom] at hroom
    exact ⟨rfl, length_keyFrom.mp hroom⟩
  · rw [if_neg hlarge, if_neg hlarge, h]
    exact ⟨rfl, m, rfl⟩

/-- Where the comparison that takes the key for well formed has a result, it is the same. -/
theorem compareLoop_agrees {p : UnpackedRecord} {szHdr k i idx d : ℕ} {r : ℤ × UnpackedRecord}
    (h : Record.compareLoop toDouble sqlite3ValueText serialGet p aKey szHdr k i idx d = some r) :
    compareLoop serialGet toDouble sqlite3ValueText p aKey szHdr k i idx d = .ok r := by
  induction k generalizing i idx d with
  | zero => exact congrArg Except.ok (Option.some.inj h)
  | succ k ih =>
    rw [Record.compareLoop] at h
    rw [compareLoop]
    by_cases hidx : idx < szHdr
    · rw [if_pos hidx] at h
      obtain ⟨⟨t, w⟩, hvar, h⟩ := Option.bind_eq_some_iff.mp h
      simp only [if_pos hidx, varintAt_eq hvar, bind, Except.bind, Nat.cast_le]
      dsimp only at h
      by_cases hend : aKey.length ≤ d ∧ 0 < sqlite3VdbeSerialTypeLen t
      · rw [if_pos hend] at h
        rw [if_pos hend, Option.some.inj h]
      rw [if_neg hend] at h
      obtain ⟨m, hm, h⟩ := Option.bind_eq_some_iff.mp h
      obtain ⟨m2, hm2, h⟩ := Option.bind_eq_some_iff.mp h
      obtain ⟨hat, hread⟩ := serialGetAt_of_some hget hm
      obtain ⟨m', hm', hv⟩ := serialGetAt_readable hget (getVarint32_lt hvar) hread
      obtain rfl := Except.ok.inj (hat.symm.trans hm')
      have hbytes := bytesRead_le hv m2 (p.pKeyInfo.coll i)
      simp only [if_neg hend, hm', hm2]
      rw [if_neg (by omega)]
      by_cases hrc : sqlite3MemCompare toDouble sqlite3ValueText m m2 p.pKeyInfo.enc
          (p.pKeyInfo.coll i) = 0
      · rw [if_neg (not_not_intro hrc)] at h ⊢
        exact ih h
      · rw [if_pos hrc] at h ⊢
        rw [h]
    · rw [if_neg hidx] at h ⊢
      rw [Option.some.inj h]

theorem recordCompare_agrees {p : UnpackedRecord} {r : ℤ × UnpackedRecord}
    (hlt : ∀ v w, getVarint32 aKey = some (v, w) → v < 2 ^ 31)
    (h : Record.sqlite3VdbeRecordCompare toDouble sqlite3ValueText serialGet aKey p = some r) :
    sqlite3VdbeRecordCompare serialGet toDouble sqlite3ValueText aKey p = .ok r := by
  obtain ⟨⟨szHdr, idx⟩, hvar, h⟩ := Option.bind_eq_some_iff.mp h
  have hint : Int.bmod szHdr (2 ^ 32) = szHdr := by
    have := hlt szHdr idx hvar
    exact Int.bmod_eq_of_le (by omega) (by omega)
  have hvar : getVarint32 (aKey.drop 0) = some (szHdr, idx) := hvar
  simp only [sqlite3VdbeRecordCompare, varintAt_eq hvar, bind, Except.bind, hint]
  exact compareLoop_agrees hget h

end Agree

section Unpack

variable {serialGet : Option Bytes → ℕ → Option Mem}
  (hget : serialGet = serialGetAsWritten ∨ serialGet = sqlite3VdbeSerialGet)
  {aKey : Bytes} {szHdr : ℕ}

include hget

theorem serialGetAt_inside {d : ℤ} {t : ℕ} (h : Inside aKey d (sqlite3VdbeSerialTypeLen t)) :
    ∃ m, serialGetAt serialGet aKey d t = .ok m := by
  unfold serialGetAt
  split_ifs with hlarge
  · exact ⟨_, rfl⟩
  · obtain ⟨m, hm⟩ := decoder_isSome hget (length_keyFrom.mpr h)
    exact ⟨m, by rw [hm]⟩

/-- The values that are unpacked lie in the key where its fields do. -/
theorem unpackLoop_iff {k idx : ℕ} {d : ℤ} :
    (∃ cells, unpackLoop serialGet aKey szHdr k idx d = .ok cells ∧
      ∀ c ∈ cells, Inside aKey c.d c.len) ↔ Unpacks aKey szHdr k idx d := by
  induction k generalizing idx d with
  | zero => simp [unpackLoop, Unpacks]
  | succ k ih =>
    rw [unpackLoop, Unpacks]
    by_cases hin : idx < szHdr ∧ d ≤ aKey.length
    · rw [if_pos hin]
      simp only [hin.1, hin.2, forall_true_left]
      constructor
      · rintro ⟨cells, hrun, hcells⟩
        cases hvar : getVarint32 (aKey.drop idx) with
        | none =>
          rw [varintAt_none hvar] at hrun
          exact absurd hrun (by simp [bind, Except.bind])
        | some r =>
          obtain ⟨t, w⟩ := r
          simp only [varintAt_eq hvar, bind, Except.bind, pure, Except.pure] at hrun
          refine ⟨t, w, rfl, ?_⟩
          cases hm : serialGetAt serialGet aKey d t with
          | error e => simp [hm] at hrun
          | ok m =>
            simp only [hm] at hrun
            cases hrest : unpackLoop serialGet aKey szHdr k (idx + w)
              (d + sqlite3VdbeSerialTypeLen t) with
            | error e => simp [hrest] at hrun
            | ok rest =>
              simp only [hrest] at hrun
              obtain rfl := Except.ok.inj hrun
              exact ⟨hcells _ List.mem_cons_self,
                ih.mp ⟨rest, hrest, fun c hc => hcells c (List.mem_cons_of_mem _ hc)⟩⟩
      · rintro ⟨t, w, hvar, hinside, hrest⟩
        obtain ⟨rest, hrun, hcells⟩ := ih.mpr hrest
        obtain ⟨m, hm⟩ := serialGetAt_inside hget hinside
        simp only [varintAt_eq hvar, bind, Except.bind, pure, Except.pure, hm, hrun]
        refine ⟨_, rfl, fun c hc => ?_⟩
        rcases List.mem_cons.mp hc with rfl | hc
        · exact hinside
        · exact hcells c hc
    · rw [if_neg hin]
      exact ⟨fun _ h1 h2 => absurd ⟨h1, h2⟩ hin, fun _ => ⟨[], rfl, by simp⟩⟩

end Unpack

/-- What `OP_MakeRecord` makes. -/
theorem fits_fields {serialGet : Option Bytes → ℕ → Option Mem}
    (hget : serialGet = serialGetAsWritten ∨ serialGet = sqlite3VdbeSerialGet)
    {aKey tail : Bytes} {szHdr k idx d : ℕ} {fields : List Field}
    (hidx : aKey.drop idx = types fields ++ tail) (hhdr : idx + (types fields).length = szHdr)
    (hd : aKey.drop d = contents fields) (hin : d ≤ aKey.length) :
    Fits serialGet aKey szHdr k idx d ∧ Unpacks aKey szHdr k idx d := by
  induction k generalizing idx d fields with
  | zero => exact ⟨trivial, trivial⟩
  | succ k ih =>
    cases fields with
    | nil =>
      simp only [types, List.flatMap_nil, List.length_nil] at hhdr
      exact ⟨fun h => absurd h (by omega), fun h => absurd h (by omega)⟩
    | cons f fields =>
      rw [types_cons, List.append_assoc] at hidx
      rw [types_cons, List.length_append] at hhdr
      have hvarint := getVarint32_putVarint f.type_lt (types fields ++ tail)
      have hlen := congrArg List.length hd
      rw [List.length_drop, contents_cons, List.length_append] at hlen
      have hnext : aKey.drop (idx + (sqlite3PutVarint f.serial_type).length) =
          types fields ++ tail := by
        rw [← List.drop_drop, hidx, List.drop_left]
      obtain ⟨hfit, hunpack⟩ := ih hnext (by omega) (drop_contents_cons hd) (by omega)
      have hinside : Inside aKey d (sqlite3VdbeSerialTypeLen f.serial_type) := by
        rw [← f.length_content]
        exact .inr ⟨by omega, by omega⟩
      have hread : Readable serialGet aKey d f.serial_type := by
        unfold Readable
        split_ifs
        · exact hinside
        · exact decoder_isSome hget (length_keyFrom.mpr hinside)
      rw [f.length_content, Nat.cast_add] at *
      exact ⟨fun _ => ⟨_, _, by rw [hidx, hvarint], .inr ⟨hread, hfit⟩⟩,
        fun _ _ => ⟨_, _, by rw [hidx, hvarint], hinside, hunpack⟩⟩

section Sound

variable {serialGet : Option Bytes → ℕ → Option Mem}
  (hget : serialGet = serialGetAsWritten ∨ serialGet = sqlite3VdbeSerialGet)

include hget in
theorem fits_record (r : StoredRecord) (n : ℕ) :
    KeyFits serialGet (encode r.fields) n ∧ KeyUnpacks (encode r.fields) n := by
  obtain ⟨hfirst, hidx, hhdr, hd, hin⟩ := r.header
  have hlt := r.size_lt
  have hint : Int.bmod (hdrSize r.fields) (2 ^ 32) = hdrSize r.fields :=
    Int.bmod_eq_of_le (by omega) (by omega)
  obtain ⟨hfit, hunpack⟩ := fits_fields (k := n) hget hidx hhdr hd hin
  rw [← hint] at hfit hunpack
  exact ⟨⟨_, _, hfirst, hfit⟩, ⟨_, _, hfirst, hunpack⟩⟩

/-- The most columns, and no collating sequence. -/
def widest : KeyInfo where
  enc := .SQLITE_UTF8
  nField := 32767
  aSortOrder := none
  aColl := List.replicate 32767 none
  length_aColl := List.length_replicate
  length_aSortOrder := by simp
  nField_le := le_refl _

theorem coll_widest (i : ℕ) : widest.coll i = none := by
  unfold KeyInfo.coll
  split_ifs
  · simp only [widest, List.getD_eq_getElem?_getD, List.getElem?_replicate]
    split_ifs <;> rfl
  · rfl

/-- An unpacked record of these cells. -/
def recordOf (ms : List Mem) : UnpackedRecord where
  pKeyInfo := widest
  nField := ms.length
  aMem := ms

include hget in
theorem compare_iff (toDouble : ℤ → ℕ)
    (sqlite3ValueText : Utf.Enc → Utf.Enc → Bytes → Option Bytes) (aKey : Bytes) {n : ℕ}
    (hn : n ≤ 32768) :
    (∀ p : UnpackedRecord, WellFormed p → p.nField ≤ n →
        sqlite3VdbeRecordCompare serialGet toDouble sqlite3ValueText aKey p ≠ .error .overread) ↔
      KeyFits serialGet aKey n := by
  constructor
  · intro h
    by_contra hno
    have hwf {ms : List Mem} (hlen : ms.length ≤ n) (hv : ∀ m ∈ ms, m.Valid) :
        WellFormed (recordOf ms) := ⟨rfl, hlen.trans hn, hv⟩
    cases hvar : getVarint32 (aKey.drop 0) with
    | none =>
      refine h (recordOf []) (hwf (Nat.zero_le _) (by simp)) (Nat.zero_le _) ?_
      simp [sqlite3VdbeRecordCompare, varintAt_none hvar, bind, Except.bind]
    | some r =>
      obtain ⟨szHdr, idx⟩ := r
      have hfit : ¬ Fits serialGet aKey szHdr n idx (Int.bmod szHdr (2 ^ 32)) :=
        fun hfit => hno ⟨szHdr, idx, hvar, hfit⟩
      obtain ⟨ms, hlen, hv, hrun⟩ := @compareLoop_not_fits toDouble sqlite3ValueText
        serialGet hget aKey szHdr n idx _ hfit
      refine h (recordOf ms) (hwf hlen hv) hlen ?_
      simp only [sqlite3VdbeRecordCompare, varintAt_eq hvar, bind, Except.bind]
      exact hrun (recordOf ms) 0 rfl coll_widest
  · rintro ⟨szHdr, idx, hvar, hfit⟩ p - hp
    have hvar : getVarint32 (aKey.drop 0) = some (szHdr, idx) := hvar
    simp only [sqlite3VdbeRecordCompare, varintAt_eq hvar, bind, Except.bind]
    exact compareLoop_fits hget hp hfit

include hget in
theorem unpack_iff (k : KeyInfo) (aKey : Bytes) :
    (∃ cells, sqlite3VdbeRecordUnpack serialGet k aKey = .ok cells ∧
        ∀ c ∈ cells, Inside aKey c.d c.len) ↔ KeyUnpacks aKey (k.nField + 1) := by
  unfold KeyUnpacks sqlite3VdbeRecordUnpack
  cases hvar : getVarint32 (aKey.drop 0) with
  | none =>
    have hnone : getVarint32 aKey = none := hvar
    simp [varintAt_none hvar, hnone, bind, Except.bind]
  | some r =>
    have hsome : getVarint32 aKey = some r := hvar
    simp only [varintAt_eq hvar, hsome, bind, Except.bind]
    rw [unpackLoop_iff hget]
    constructor
    · exact fun h => ⟨r.1, r.2, rfl, h⟩
    · rintro ⟨szHdr, idx, hr, h⟩
      obtain rfl := Option.some.inj hr
      exact h

/-- The comparison stays inside of a key with every unpacked record of at most `n` fields exactly
when the key fits so far; what is unpacked lies in the key exactly when it unpacks so far. A record
in the format does both, whatever its fields. -/
theorem recordCompare_inside (serialGet : Option Bytes → ℕ → Option Mem)
    (hget : serialGet = serialGetAsWritten ∨ serialGet = sqlite3VdbeSerialGet)
    (toDouble : ℤ → ℕ) (sqlite3ValueText : Utf.Enc → Utf.Enc → Bytes → Option Bytes)
    (aKey : Bytes) :
    (∀ n ≤ 32768, (∀ p : UnpackedRecord, WellFormed p → p.nField ≤ n →
        sqlite3VdbeRecordCompare serialGet toDouble sqlite3ValueText aKey p ≠ .error .overread) ↔
      KeyFits serialGet aKey n) ∧
    (∀ k : KeyInfo, (∃ cells, sqlite3VdbeRecordUnpack serialGet k aKey = .ok cells ∧
        ∀ c ∈ cells, Inside aKey c.d c.len) ↔ KeyUnpacks aKey (k.nField + 1)) ∧
    ((∃ r : StoredRecord, aKey = encode r.fields) →
      ∀ n, KeyFits serialGet aKey n ∧ KeyUnpacks aKey n) := by
  refine ⟨fun n hn => compare_iff hget toDouble sqlite3ValueText aKey hn,
    fun k => unpack_iff hget k aKey, ?_⟩
  rintro ⟨r, rfl⟩ n
  exact fits_record hget r n

end Sound

/-- A key of one column, a text of one byte. -/
theorem recordCompare_inside_text : KeyFits serialGetAsWritten [2, 15, 97] 32768 ∧
    ∀ p : UnpackedRecord, WellFormed p → p.nField ≤ 32768 →
      sqlite3VdbeRecordCompare serialGetAsWritten Binary64.ofInt (fun _ _ z => some z) [2, 15, 97] p ≠
        .error .overread := by
  have hfits : KeyFits serialGetAsWritten [2, 15, 97] 32768 := by
    refine ⟨2, 1, rfl, fun _ => ?_⟩
    exact ⟨15, 1, rfl, .inr ⟨.inr (by decide), fun h => absurd h (by decide)⟩⟩
  exact ⟨hfits, ((recordCompare_inside serialGetAsWritten (.inl rfl) Binary64.ofInt
    (fun _ _ z => some z) [2, 15, 97]).1 32768 (le_refl _)).mpr hfits⟩

/-- An integer of two bytes and a text of five begin in a key, but their last bytes are behind its
end. -/
theorem recordCompare_overreads :
    sqlite3VdbeRecordCompare serialGetAsWritten Binary64.ofInt (fun _ _ z => some z) [2, 2, 0]
      { pKeyInfo := oneColumn, nField := 1, aMem := [{ int := true, i := 7 }] } =
        .error .overread ∧
    ∃ c, sqlite3VdbeRecordUnpack serialGetAsWritten oneColumn [2, 23, 97] = .ok [c] ∧
      ¬ Inside [2, 23, 97] c.d c.len := by
  have hfield : oneColumn.nField = 1 := rfl
  have hlen : sqlite3VdbeSerialTypeLen 23 = 5 := rfl
  have hfirst : varintAt [2, 2, 0] 0 = .ok (2, 1) := rfl
  have htype : varintAt [2, 2, 0] 1 = .ok (2, 1) := rfl
  have hmem : serialGetAt serialGetAsWritten [2, 2, 0] 2 2 = .error .overread := by rfl
  have hfirst' : varintAt [2, 23, 97] 0 = .ok (2, 1) := rfl
  have htype' : varintAt [2, 23, 97] 1 = .ok (23, 1) := rfl
  have hmem' : serialGetAt serialGetAsWritten [2, 23, 97] 2 23 =
      .ok { str := true, z := [97], n := 5 } := by rfl
  refine ⟨?_, ⟨2, 5, { str := true, z := [97], n := 5 }⟩, ?_, by decide⟩
  · simp [sqlite3VdbeRecordCompare, compareLoop, hfirst, htype, hmem, bind, Except.bind]
  · simp [sqlite3VdbeRecordUnpack, unpackLoop, hfirst', htype', hmem', hfield, hlen, bind,
      Except.bind, pure, Except.pure]

end Sqlite.Record.Bounds
