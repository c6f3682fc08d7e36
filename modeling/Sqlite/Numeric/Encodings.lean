import Sqlite.Numeric.AtofSound
import Sqlite.Utf.Chars

/-! The same text in three encodings. In UTF-16 the functions look at the low byte of each unit
only. -/
namespace Sqlite.Numeric

open Foundation Utf

variable {z ws sg zs ds rest : List UInt8} {cs : List Char} {incr : ℕ}

def write : Enc → ℕ → List UInt8
  | .SQLITE_UTF8 => WRITE_UTF8
  | .SQLITE_UTF16LE => WRITE_UTF16LE
  | .SQLITE_UTF16BE => WRITE_UTF16BE

def encode (enc : Enc) (cs : List Char) : List UInt8 := cs.flatMap fun c => write enc c.toNat

def lowBytes (cs : List Char) : List UInt8 :=
  cs.flatMap fun c => writeUtf16 (fun lo _ => [lo]) c.toNat

/-! One byte of every unit. -/

theorem skip_sample (p : UInt8 → Bool) (incr : ℕ) (z : List UInt8) :
    skip p 1 (sample incr z) = sample incr (skip p incr z) := by
  rw [skip, skip, sample_scan]

theorem readSign_sample (incr : ℕ) (z : List UInt8) :
    readSign 1 (sample incr z) = ((readSign incr z).1, sample incr (readSign incr z).2) := by
  cases z with
  | nil => simp [sample_nil, readSign]
  | cons b t =>
    rw [sample_cons, readSign, readSign]
    split_ifs
    · rfl
    · rfl
    · simp [sample_cons]

theorem loop_sample (cond : Parsed → UInt8 → Bool) (body : Parsed → UInt8 → Arith Parsed)
    (incr : ℕ) (z : List UInt8) (m : Arith Parsed) :
    loop cond body 1 (sample incr z) m = (sample incr (loop cond body incr z m).1,
      (loop cond body incr z m).2) := sample_scan

theorem integerPart_sample (incr : ℕ) (z : List UInt8) (m : Arith Parsed) :
    integerPart 1 (sample incr z) m =
      (sample incr (integerPart incr z m).1, (integerPart incr z m).2) := by
  simp only [integerPart, loop_sample]

theorem fractionPart_sample (incr : ℕ) (z : List UInt8) (m : Arith Parsed) :
    fractionPart 1 (sample incr z) m =
      (sample incr (fractionPart incr z m).1, (fractionPart incr z m).2) := by
  cases z with
  | nil => simp [sample_nil, fractionPart]
  | cons b t =>
    rw [sample_cons, fractionPart, fractionPart]
    split_ifs
    · simp only [Nat.sub_self, List.drop_zero, loop_sample]
    · simp [sample_cons]

theorem exponentPart_sample (incr : ℕ) (z : List UInt8) (m : Arith Parsed) :
    exponentPart 1 (sample incr z) m = ((exponentPart incr z m).1,
      sample incr (exponentPart incr z m).2.1, (exponentPart incr z m).2.2) := by
  cases z with
  | nil => simp [sample_nil, exponentPart]
  | cons b t =>
    rw [sample_cons, exponentPart, exponentPart]
    split_ifs
    · simp only [Nat.sub_self, List.drop_zero, readSign_sample, loop_sample]
    · simp [sample_cons]

theorem atofScan_sample (incr : ℕ) (z : List UInt8) :
    atofScan 1 (sample incr z) = (sample incr (atofScan incr z).1, (atofScan incr z).2) := by
  simp only [atofScan, readSign_sample, integerPart_sample, fractionPart_sample, exponentPart_sample,
    skip_sample]
  split_ifs <;> rfl

theorem atof_sample (n incr : ℕ) (z : List UInt8) : atof n 1 (sample incr z) = atof n incr z := by
  simp only [atof, skip_sample, atofScan_sample, sample_eq_nil]

/-- The loop over the digits counts bytes. -/
theorem digitsLoop_sample (incr : ℕ) (z : List UInt8) :
    ∃ rest u i, digitsLoop incr z = (rest, u, i * incr) ∧
      digitsLoop 1 (sample incr z) = (sample incr rest, u, i) := by
  let body : ℕ × ℕ → UInt8 → ℕ × ℕ := fun r c =>
    ((r.1 * 10 + c.toNat - (ch '0').toNat) % 2 ^ 64, r.2 + 1)
  let cond : ℕ × ℕ → UInt8 → Bool := fun _ c => ch '0' ≤ c ∧ c ≤ ch '9'
  let f : ℕ × ℕ → ℕ × ℕ := fun r => (r.1, r.2 * incr)
  let r := scan cond body incr z (0, 0)
  have hstart : f (0, 0) = (0, 0) := by simp [f]
  have hmap : digitsLoop incr z = (r.1, f r.2) := by
    rw [digitsLoop, ← hstart]
    exact scan_map f (fun _ _ => rfl) fun r b => by simp [f, body, Nat.add_mul]
  exact ⟨r.1, r.2.1, r.2.2, hmap, sample_scan⟩

theorem getD_sample (h : 0 < incr) (i : ℕ) : (sample incr z).getD i 0 = z.getD (i * incr) 0 := by
  rw [List.getD_eq_getElem?_getD, List.getD_eq_getElem?_getD, getElem?_sample h]

theorem compareLoop_sample (h : 0 < incr) (n i : ℕ) :
    compareLoop (sample incr z) 1 n i = compareLoop z incr n i := by
  induction n generalizing i with
  | zero => rfl
  | succ n ih => rw [compareLoop, compareLoop, Nat.mul_one, getD_sample h, ih]

theorem compare2pow63_sample (h : 0 < incr) :
    compare2pow63 (sample incr z) 1 = compare2pow63 z incr := by
  rw [compare2pow63, compare2pow63, compareLoop_sample h, Nat.mul_one, getD_sample h]

theorem extraneous_sample : extraneous (sample incr z) = extraneous z := by
  cases z with
  | nil => rw [sample_nil]
  | cons b t =>
    rw [sample_cons]
    rfl

/-- Nothing is skipped in one text if nothing is in the other. -/
theorem skip_sample_eq_iff (p : UInt8 → Bool) (incr : ℕ) (z : List UInt8) :
    sample incr z = sample incr (skip p incr z) ↔ z = skip p incr z := by
  refine ⟨fun h => ?_, fun h => by rw [← h]⟩
  cases z with
  | nil => simp [skip, scan_nil]
  | cons b t =>
    by_cases hb : p b = true
    · rw [← skip_sample, skip_eq] at h
      have hhead := head?_dropWhile_not (p := p) (z := sample incr (b :: t)) b (by
        rw [← h, head?_sample]
        rfl)
      rw [hb] at hhead
      cases hhead
    · rw [skip, scan_cons, if_neg hb]

theorem atoi64_sample (h : 0 < incr) (z : List UInt8) : atoi64 1 (sample incr z) = atoi64 incr z := by
  unfold atoi64
  rw [skip_sample, readSign_sample]
  dsimp only
  generalize readSign incr (skip sqlite3Isspace incr z) = sign
  have hskip := skip_sample_eq_iff (fun b => b = ch '0') incr sign.2
  rw [skip_sample]
  generalize skip (fun b => b = ch '0') incr sign.2 = zNum at hskip ⊢
  obtain ⟨rest, u, i, heq, heq1⟩ := digitsLoop_sample incr zNum
  have hzero : i * incr = 0 ↔ i = 0 := by simp [h.ne']
  have hgt : i * incr > 19 * incr ↔ i > 19 * 1 := by simp [h]
  have hlt : i * incr < 19 * incr ↔ i < 19 * 1 := by simp [h]
  simp only [heq, heq1, hskip, extraneous_sample, compare2pow63_sample h, hzero, hgt, hlt]

/-! The bytes of the encodings. -/

theorem sample_le (cs : List Char) : sample 2 (encode .SQLITE_UTF16LE cs) = lowBytes cs := by
  induction cs with
  | nil => exact sample_nil
  | cons c cs ih =>
    rw [encode, lowBytes, List.flatMap_cons, List.flatMap_cons]
    change sample 2 (WRITE_UTF16LE c.toNat ++ encode .SQLITE_UTF16LE cs) =
      writeUtf16 (fun lo _ => [lo]) c.toNat ++ lowBytes cs
    rw [← ih, WRITE_UTF16LE, writeUtf16, writeUtf16]
    split_ifs <;> simp [sample_cons]

theorem sample_be (cs : List Char) :
    sample 2 ((encode .SQLITE_UTF16BE cs).drop 1) = lowBytes cs := by
  induction cs with
  | nil => exact sample_nil
  | cons c cs ih =>
    rw [encode, lowBytes, List.flatMap_cons, List.flatMap_cons]
    change sample 2 ((WRITE_UTF16BE c.toNat ++ encode .SQLITE_UTF16BE cs).drop 1) =
      writeUtf16 (fun lo _ => [lo]) c.toNat ++ lowBytes cs
    rw [← ih, WRITE_UTF16BE, writeUtf16, writeUtf16]
    split_ifs <;> simp [sample_cons]

/-- In UTF-16 both functions see the low bytes. -/
theorem utf16_eq {enc : Enc} (he : enc ≠ .SQLITE_UTF8) (n : ℕ) (cs : List Char) :
    sqlite3Atoi64 (encode enc cs) enc = sqlite3Atoi64 (lowBytes cs) .SQLITE_UTF8 ∧
      sqlite3AtoF n (encode enc cs) enc = sqlite3AtoF n (lowBytes cs) .SQLITE_UTF8 := by
  have hsample : sample 2 (startOf (encode enc cs) enc) = lowBytes cs := by
    cases enc with
    | SQLITE_UTF8 => exact absurd rfl he
    | SQLITE_UTF16LE => exact sample_le cs
    | SQLITE_UTF16BE => exact sample_be cs
  have hincr : incrOf enc = 2 := if_neg he
  rw [sqlite3Atoi64, sqlite3AtoF, hincr, ← atoi64_sample (by decide), ← atof_sample, hsample]
  exact ⟨rfl, rfl⟩

def IsAscii (cs : List Char) : Prop := ∀ c ∈ cs, c.toNat < 0x80

theorem utf8_ascii (h : IsAscii cs) : encode .SQLITE_UTF8 cs = lowBytes cs := by
  refine List.flatMap_congr fun c hc => ?_
  have hlt := h c hc
  change WRITE_UTF8 c.toNat = _
  rw [WRITE_UTF8, if_pos hlt, writeUtf16, if_pos (by omega)]

/-- A character beyond ASCII has no byte that is one of a number. -/
theorem WRITE_UTF8_high {c : ℕ} (h : 0x80 ≤ c) : ∀ b ∈ WRITE_UTF8 c, 0x80 ≤ b.toNat := by
  have htail (x : ℕ) : 0x80 ≤ (tailByte x).toNat := by
    rw [tailByte_toNat]
    omega
  have hlead (x y : ℕ) (hx : 0x80 ≤ x) (hlt : x + y < 256) : 0x80 ≤ (UInt8.ofNat (x + y)).toNat := by
    rw [toNat_ofNat hlt]
    omega
  rw [WRITE_UTF8_eq, if_neg (by omega)]
  split_ifs
  · simp only [List.mem_cons, List.not_mem_nil, or_false]
    rintro b (rfl | rfl)
    exacts [hlead _ _ (by decide) (by omega), htail _]
  · simp only [List.mem_cons, List.not_mem_nil, or_false]
    rintro b (rfl | rfl | rfl)
    exacts [hlead _ _ (by decide) (by omega), htail _, htail _]
  · simp only [List.mem_cons, List.not_mem_nil, or_false]
    rintro b (rfl | rfl | rfl | rfl)
    exacts [hlead _ _ (by decide) (by omega), htail _, htail _, htail _]

theorem utf8_nonzero (h : ∀ c ∈ cs, c.toNat ≠ 0) : ∀ b ∈ encode .SQLITE_UTF8 cs, b ≠ 0 := by
  intro b hb
  obtain ⟨c, hc, hb⟩ := List.mem_flatMap.mp hb
  have h0 := h c hc
  change b ∈ WRITE_UTF8 c.toNat at hb
  rcases lt_or_ge c.toNat 0x80 with hlt | hge
  · rw [WRITE_UTF8_eq, if_pos hlt, List.mem_singleton] at hb
    rintro rfl
    have hnat := congrArg UInt8.toNat hb
    rw [toNat_ofNat (by omega)] at hnat
    exact h0 hnat.symm
  · have hb80 := WRITE_UTF8_high hge b hb
    rintro rfl
    exact absurd hb80 (by decide)

theorem utf8_high (h : ¬ IsAscii cs) : ∃ b ∈ encode .SQLITE_UTF8 cs, 0x80 ≤ b.toNat := by
  obtain ⟨c, hc, h80⟩ : ∃ c ∈ cs, 0x80 ≤ c.toNat := by simpa [IsAscii] using h
  obtain ⟨b, hb⟩ : ∃ b, b ∈ WRITE_UTF8 c.toNat := by
    refine List.exists_mem_of_ne_nil _ ?_
    rw [WRITE_UTF8_eq]
    split_ifs <;> simp
  exact ⟨b, List.mem_flatMap.mpr ⟨c, hc, hb⟩, WRITE_UTF8_high h80 b hb⟩

/-! Every byte of a number is ASCII. -/

theorem IsSpace.lt {b : UInt8} (h : IsSpace b) : b.toNat < 0x80 := by
  have h0d : (0x0d : UInt8).toNat = 13 := rfl
  rcases h with rfl | ⟨-, h⟩
  · decide
  · have hle : b.toNat ≤ (0x0d : UInt8).toNat := h
    omega

theorem IsDigit.lt {b : UInt8} (h : IsDigit b) : b.toNat < 0x80 := by
  have hd := isDigit_toNat.mp h
  omega

theorem IsSign.lt (h : IsSign sg) : ∀ b ∈ sg, b.toNat < 0x80 := by
  rcases h with rfl | rfl | rfl <;> simp [ch]

theorem IsExponent.lt {x : List UInt8} (h : IsExponent x) : ∀ b ∈ x, b.toNat < 0x80 := by
  rcases h with rfl | ⟨c, sg, es, rfl, hc, hsg, -, hes⟩
  · simp
  · intro b hb
    rw [List.mem_cons, List.mem_append] at hb
    rcases hb with rfl | hb | hb
    · rcases hc with rfl | rfl <;> decide
    · exact hsg.lt b hb
    · exact (hes b hb).lt

theorem IsNumber.lt (h : IsNumber z) : ∀ b ∈ z, b.toNat < 0x80 := by
  obtain ⟨ws, sg, ds, frac, fs, x, ws', h⟩ := h
  have hfrac : ∀ b ∈ frac, b.toNat < 0x80 := by
    intro b hb
    rcases h.fraction with ⟨rfl, -⟩ | rfl
    · cases hb
    · rcases List.mem_cons.mp hb with rfl | hb
      · decide
      · exact (h.fractionDigits b hb).lt
  rw [h.eq]
  intro b hb
  simp only [List.mem_append] at hb
  rcases hb with hb | hb | hb | hb | hb | hb
  · exact (h.space b hb).lt
  · exact h.sign.lt b hb
  · exact (h.digits b hb).lt
  · exact hfrac b hb
  · exact h.exponent.lt b hb
  · exact (h.trailing b hb).lt

theorem Parts.lt (h : Parts z ws sg zs ds []) : ∀ b ∈ z, b.toNat < 0x80 := by
  rw [h.eq]
  intro b hb
  simp only [List.mem_append, List.not_mem_nil, or_false] at hb
  rcases hb with hb | hb | hb | hb
  · exact (h.space b hb).lt
  · exact h.sign.lt b hb
  · rw [h.zeros b hb]
    decide
  · exact (h.digits b hb).lt

/-! What the functions make of the low bytes. -/

/-- The integer at the front of a text. -/
def Leading (z : List UInt8) (v : ℤ) : Prop :=
  ∃ ws sg zs ds rest, Parts z ws sg zs ds rest ∧ v = stored (decide (sg = [ch '-'])) (digitsValue ds)

def upToZero (z : List UInt8) : List UInt8 := z.takeWhile (· ≠ 0)

theorem Leading.unique {v w : ℤ} (h : Leading z v) (h' : Leading z w) : v = w := by
  obtain ⟨ws, sg, zs, ds, rest, h, rfl⟩ := h
  obtain ⟨ws', sg', zs', ds', rest', h', rfl⟩ := h'
  obtain ⟨hs, -, rfl, -⟩ := h.unique h'
  rw [decide_eq_decide.mpr hs]

theorem leading_iff (v : ℤ) : Leading z v ↔ (sqlite3Atoi64 z .SQLITE_UTF8).2 = v := by
  obtain ⟨ws, sg, zs, ds, rest, h⟩ := exists_parts z
  have heq : sqlite3Atoi64 z .SQLITE_UTF8 = verdict (decide (sg = [ch '-'])) zs ds rest := h.atoi64_eq
  rw [heq, verdict_stored]
  have hlead : Leading z (stored (decide (sg = [ch '-'])) (digitsValue ds)) := ⟨_, _, _, _, _, h, rfl⟩
  exact ⟨fun hv => hlead.unique hv, fun hv => hv ▸ hlead⟩

theorem Parts.nonzero (h : Parts z ws sg zs ds rest) :
    ∀ b ∈ ws ++ (sg ++ (zs ++ ds)), b ≠ 0 := by
  intro b hb
  simp only [List.mem_append] at hb
  rintro rfl
  rcases hb with hb | hb | hb | hb
  · exact absurd (h.space 0 hb) (by decide)
  · rcases h.sign with rfl | rfl | rfl <;> exact absurd hb (by decide)
  · exact absurd (h.zeros 0 hb) (by decide)
  · exact absurd (h.digits 0 hb) (by decide)

theorem head?_upToZero (z : List UInt8) : ∀ b ∈ (upToZero z).head?, b ∈ z.head? := by
  cases z with
  | nil => simp [upToZero]
  | cons c t =>
    intro b hb
    by_cases hc : c = 0
    · simp [upToZero, hc] at hb
    · simpa [upToZero, hc] using hb

theorem Parts.upToZero (h : Parts z ws sg zs ds rest) :
    Parts (upToZero z) ws sg zs ds (upToZero rest) := by
  have hz : z = (ws ++ (sg ++ (zs ++ ds))) ++ rest := by
    rw [h.eq]
    simp
  refine ⟨?_, h.space, h.sign, h.zeros, h.digits, h.lead,
    fun b hb => h.behind b (head?_upToZero rest b hb),
    fun hs hzero hd b hb => h.bare hs hzero hd b (head?_upToZero rest b hb)⟩
  rw [hz, Numeric.upToZero, List.takeWhile_append_of_pos fun b hb => decide_eq_true (h.nonzero b hb)]
  simp [Numeric.upToZero]

theorem extraneous_iff : extraneous rest = false ↔ upToZero rest = [] := by
  cases rest with
  | nil => simp [extraneous, upToZero]
  | cons b t => by_cases hb : b = 0 <;> simp [extraneous, upToZero, hb]

/-- The function takes a zero byte behind the digits for the end of the text. -/
theorem code_iff (z : List UInt8) : (sqlite3Atoi64 z .SQLITE_UTF8).1 = 1 ↔
    ∀ v, Denotes (upToZero z) v → v < -2 ^ 63 ∨ 2 ^ 63 < v := by
  obtain ⟨ws, sg, zs, ds, rest, h⟩ := exists_parts z
  have heq : sqlite3Atoi64 z .SQLITE_UTF8 = verdict (decide (sg = [ch '-'])) zs ds rest := h.atoi64_eq
  rw [heq]
  by_cases hread : extraneous rest = false ∧ (ds ≠ [] ∨ zs ≠ [])
  · obtain ⟨hrest, hne⟩ := hread
    have hden : ∀ v, Denotes (upToZero z) v ↔
        v = signed (decide (sg = [ch '-'])) (digitsValue ds) := fun v => by
      simp [h.upToZero.denotes_iff, extraneous_iff.mp hrest, hne]
    simp only [hden, forall_eq]
    rcases verdict_spec (decide (sg = [ch '-'])) rest h.digits h.lead hne hrest with
      ⟨hc, -, hf⟩ | ⟨hc, hv⟩ | ⟨hc, hf, hv⟩
    · rw [fits_iff] at hf
      rw [hc]
      omega
    · rw [hc]
      omega
    · rw [fits_iff] at hf
      rw [hc]
      omega
  · refine ⟨fun _ v hv => ?_, fun _ => verdict_one hread⟩
    rw [h.upToZero.denotes_iff] at hv
    exact absurd ⟨extraneous_iff.mpr hv.1, hv.2.1⟩ hread

def Same (n : ℕ) (cs : List Char) : Prop := ∀ enc,
  sqlite3Atoi64 (encode enc cs) enc = sqlite3Atoi64 (encode .SQLITE_UTF8 cs) .SQLITE_UTF8 ∧
    (sqlite3AtoF n (encode enc cs) enc).map (·.value.ret) =
      (sqlite3AtoF n (encode .SQLITE_UTF8 cs) .SQLITE_UTF8).map (·.value.ret)

/-- The low bytes spell nothing that the text does not. -/
def LowBytesAgree (cs : List Char) : Prop :=
  ¬ IsNumber (lowBytes cs) ∧
    (∀ v, Denotes (upToZero (lowBytes cs)) v → v < -2 ^ 63 ∨ 2 ^ 63 < v) ∧
    ∃ v, Leading (encode .SQLITE_UTF8 cs) v ∧ Leading (lowBytes cs) v

theorem atof_ret {n : ℕ} (hz : z.length < 2 ^ 31) (hn : 2 ^ 31 < n) :
    ∃ b, (sqlite3AtoF n z .SQLITE_UTF8).map (·.value.ret) = some b ∧ (b = true ↔ IsNumber z) := by
  obtain ⟨p, neg, eneg, z', m, -, -, -, hrun, hret, -⟩ := sqlite3AtoF_result hz hn
  exact ⟨m.value.ret, by rw [hrun, Option.map_some], hret⟩

theorem lowBytes_length (cs : List Char) :
    (lowBytes cs).length ≤ (encode .SQLITE_UTF16LE cs).length := by
  rw [← sample_le]
  exact length_sample_le 2 _

theorem high_code {b : UInt8} (hz : ∀ b ∈ z, b ≠ 0) (hb : b ∈ z) (h80 : 0x80 ≤ b.toNat) :
    (sqlite3Atoi64 z .SQLITE_UTF8).1 = 1 := by
  obtain ⟨ws, sg, zs, ds, rest, h⟩ := exists_parts z
  have heq : sqlite3Atoi64 z .SQLITE_UTF8 = verdict (decide (sg = [ch '-'])) zs ds rest := h.atoi64_eq
  rw [heq]
  refine verdict_one fun ⟨hrest, _⟩ => ?_
  cases rest with
  | nil => exact absurd (h.lt b hb) (not_lt.mpr h80)
  | cons c t => simp [extraneous, hz c (by rw [h.eq]; simp)] at hrest

/-- The three encodings of a text are read in the same way if it is ASCII or its low bytes agree. -/
theorem encodings_iff {n : ℕ} (hcs : ∀ c ∈ cs, c.toNat ≠ 0)
    (hlen : ∀ enc, (encode enc cs).length < 2 ^ 31) (hn : 2 ^ 31 < n) :
    Same n cs ↔ IsAscii cs ∨ LowBytesAgree cs := by
  have hlow : Same n cs ↔
      sqlite3Atoi64 (lowBytes cs) .SQLITE_UTF8 =
          sqlite3Atoi64 (encode .SQLITE_UTF8 cs) .SQLITE_UTF8 ∧
        (sqlite3AtoF n (lowBytes cs) .SQLITE_UTF8).map (·.value.ret) =
          (sqlite3AtoF n (encode .SQLITE_UTF8 cs) .SQLITE_UTF8).map (·.value.ret) := by
    constructor
    · intro h
      have hle := h .SQLITE_UTF16LE
      obtain ⟨h1, h2⟩ := utf16_eq (by decide : Enc.SQLITE_UTF16LE ≠ .SQLITE_UTF8) n cs
      rwa [h1, h2] at hle
    · intro h enc
      by_cases he : enc = .SQLITE_UTF8
      · rw [he]
        exact ⟨rfl, rfl⟩
      · obtain ⟨h1, h2⟩ := utf16_eq he n cs
        rwa [h1, h2]
  rw [hlow]
  by_cases hascii : IsAscii cs
  · simp [hascii, utf8_ascii]
  obtain ⟨b, hb, h80⟩ := utf8_high hascii
  have hnum : ¬ IsNumber (encode .SQLITE_UTF8 cs) := fun h => absurd (h.lt b hb) (not_lt.mpr h80)
  obtain ⟨r8, hr8, hret8⟩ := atof_ret (hlen .SQLITE_UTF8) hn
  obtain ⟨r16, hr16, hret16⟩ :=
    atof_ret ((lowBytes_length cs).trans_lt (hlen .SQLITE_UTF16LE)) hn
  have hcode := high_code (utf8_nonzero hcs) hb h80
  have hlead : (∃ v, Leading (encode .SQLITE_UTF8 cs) v ∧ Leading (lowBytes cs) v) ↔
      (sqlite3Atoi64 (encode .SQLITE_UTF8 cs) .SQLITE_UTF8).2 =
        (sqlite3Atoi64 (lowBytes cs) .SQLITE_UTF8).2 := by
    simp [leading_iff, eq_comm]
  have hr : r8 = false := by simpa [hnum] using hret8
  rw [hr8, hr16, hr, Prod.ext_iff, hcode, code_iff, LowBytesAgree, hlead, ← hret16]
  simp only [hascii, false_or, Option.some.injEq, Bool.not_eq_true]
  constructor
  · rintro ⟨⟨hc, hs⟩, hf⟩
    exact ⟨hf, hc, hs.symm⟩
  · rintro ⟨hf, hc, hs⟩
    exact ⟨⟨hc, hs.symm⟩, hf⟩

/-- Two digits and a letter that is not ASCII, whose low byte goes on with no digit. -/
theorem encodings_iff_letter :
    (∀ c ∈ ['1', '2', 'é'], c.toNat ≠ 0) ∧ (∀ enc, (encode enc ['1', '2', 'é']).length < 2 ^ 31) ∧
      2 ^ 31 < 2 ^ 31 + 1 ∧ ¬ IsAscii ['1', '2', 'é'] ∧ Same (2 ^ 31 + 1) ['1', '2', 'é'] := by
  have hcs : ∀ c ∈ ['1', '2', 'é'], c.toNat ≠ 0 := by simp
  have hlen : ∀ enc, (encode enc ['1', '2', 'é']).length < 2 ^ 31 := fun enc => by cases enc <;> decide +kernel
  have hn : 2 ^ 31 < 2 ^ 31 + 1 := by decide
  have hnumber : ¬ IsNumber (lowBytes ['1', '2', 'é']) := fun h =>
    absurd (h.lt 0xe9 (by decide)) (by decide)
  have hcode : (sqlite3Atoi64 (lowBytes ['1', '2', 'é']) .SQLITE_UTF8).1 = 1 := by decide +kernel
  have hlead : Leading (encode .SQLITE_UTF8 ['1', '2', 'é']) 12 ∧ Leading (lowBytes ['1', '2', 'é']) 12 :=
    ⟨(leading_iff 12).mpr (by decide +kernel), (leading_iff 12).mpr (by decide +kernel)⟩
  exact ⟨hcs, hlen, hn, by simp [IsAscii],
    (encodings_iff hcs hlen hn).mpr (.inr ⟨hnumber, (code_iff _).mp hcode, 12, hlead⟩)⟩

/-- The low byte of the dotless i is the digit one. -/
theorem encodings_differ :
    sqlite3Atoi64 (encode .SQLITE_UTF16LE ['ı']) .SQLITE_UTF16LE = (0, 1) ∧
      sqlite3Atoi64 (encode .SQLITE_UTF8 ['ı']) .SQLITE_UTF8 = (1, 0) ∧ ¬ Same (2 ^ 31 + 1) ['ı'] := by
  have h16 : sqlite3Atoi64 (encode .SQLITE_UTF16LE ['ı']) .SQLITE_UTF16LE = (0, 1) := by
    decide +kernel
  have h8 : sqlite3Atoi64 (encode .SQLITE_UTF8 ['ı']) .SQLITE_UTF8 = (1, 0) := by decide +kernel
  refine ⟨h16, h8, fun h => ?_⟩
  have heq := (h .SQLITE_UTF16LE).1
  rw [h16, h8] at heq
  exact absurd heq (by decide)

end Sqlite.Numeric
