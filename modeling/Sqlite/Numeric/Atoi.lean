import Mathlib.Data.List.Induction
import Mathlib.Data.List.TakeWhile
import Mathlib.Tactic.Ring
import Sqlite.Numeric.Text

/-! The integers that `sqlite3Atoi64` accepts. -/
namespace Sqlite.Numeric

open Foundation Utf

variable {z ws sg zs ds rest : List UInt8} {b : UInt8}

def IsSpace (b : UInt8) : Prop := b = 0x20 ∨ (0x09 ≤ b ∧ b ≤ 0x0d)

def IsDigit (b : UInt8) : Prop := ch '0' ≤ b ∧ b ≤ ch '9'

def IsSign (sg : List UInt8) : Prop := sg = [] ∨ sg = [ch '+'] ∨ sg = [ch '-']

instance (b : UInt8) : Decidable (IsSpace b) := inferInstanceAs (Decidable (_ ∨ _))
instance (b : UInt8) : Decidable (IsDigit b) := inferInstanceAs (Decidable (_ ∧ _))
instance (sg : List UInt8) : Decidable (IsSign sg) := inferInstanceAs (Decidable (_ ∨ _))

/-- A number in decimal digits. -/
def digitsValue (ds : List UInt8) : ℕ := ds.foldl (fun v c => v * 10 + (c.toNat - (ch '0').toNat)) 0

/-- Whitespace, a sign and digits. -/
def Denotes (z : List UInt8) (v : ℤ) : Prop :=
  ∃ ws sg ds, z = ws ++ (sg ++ ds) ∧ (∀ b ∈ ws, IsSpace b) ∧ IsSign sg ∧ ds ≠ [] ∧
    (∀ b ∈ ds, IsDigit b) ∧ v = if sg = [ch '-'] then -(digitsValue ds : ℤ) else digitsValue ds

theorem sqlite3Isspace_iff : sqlite3Isspace b = true ↔ IsSpace b := by
  have hall : ∀ n < 256, sqlite3Isspace (.ofNat n) = true ↔ IsSpace (.ofNat n) := by decide +kernel
  simpa using hall b.toNat b.toNat_lt

theorem sqlite3Isdigit_iff : sqlite3Isdigit b = true ↔ IsDigit b := by
  have hall : ∀ n < 256, sqlite3Isdigit (.ofNat n) = true ↔ IsDigit (.ofNat n) := by decide +kernel
  simpa using hall b.toNat b.toNat_lt

theorem isDigit_toNat : IsDigit b ↔ 48 ≤ b.toNat ∧ b.toNat ≤ 57 := Iff.rfl

theorem IsDigit.not_space (h : IsDigit b) : ¬ IsSpace b := by
  have hall : ∀ n < 256, IsDigit (.ofNat n) → ¬ IsSpace (.ofNat n) := by decide +kernel
  simpa using hall b.toNat b.toNat_lt (by simpa using h)

theorem IsDigit.ne_sign (h : IsDigit b) : b ≠ ch '-' ∧ b ≠ ch '+' := by
  constructor <;> rintro rfl <;> exact absurd h (by decide)

theorem skip_eq (p : UInt8 → Bool) (z : List UInt8) : skip p 1 z = z.dropWhile p := by
  rw [skip, scan_eq (p := p) fun _ _ => rfl]

/-- The parts in which the function reads a text: whitespace, sign, zeros, digits and the rest. -/
structure Parts (z ws sg zs ds rest : List UInt8) : Prop where
  eq : z = ws ++ (sg ++ (zs ++ (ds ++ rest)))
  space : ∀ b ∈ ws, IsSpace b
  sign : IsSign sg
  zeros : ∀ b ∈ zs, b = ch '0'
  digits : ∀ b ∈ ds, IsDigit b
  lead : ∀ b ∈ ds.head?, b ≠ ch '0'
  behind : ∀ b ∈ rest.head?, ¬ IsDigit b
  bare : sg = [] → zs = [] → ds = [] → ∀ b ∈ rest.head?, ¬ IsSpace b ∧ b ≠ ch '-' ∧ b ≠ ch '+'

theorem zero_isDigit : IsDigit (ch '0') := by decide

/-- What comes behind the whitespace and the sign begins with a digit, or is the rest. -/
theorem Parts.head (h : Parts z ws sg zs ds rest) :
    ∀ b ∈ (zs ++ (ds ++ rest)).head?, IsDigit b ∨ (zs = [] ∧ ds = [] ∧ b ∈ rest.head?) := by
  intro b hb
  cases zs with
  | cons c zs =>
    obtain rfl : c = b := by simpa using hb
    exact .inl (h.zeros c List.mem_cons_self ▸ zero_isDigit)
  | nil =>
    cases ds with
    | cons c ds =>
      obtain rfl : c = b := by simpa using hb
      exact .inl (h.digits c List.mem_cons_self)
    | nil => exact .inr ⟨rfl, rfl, by simpa using hb⟩

theorem Parts.skip_space (h : Parts z ws sg zs ds rest) :
    skip sqlite3Isspace 1 z = sg ++ (zs ++ (ds ++ rest)) := by
  rw [skip_eq, h.eq]
  refine (dropWhile_append_of (fun b hb => sqlite3Isspace_iff.mpr (h.space b hb)) fun b hb => ?_).1
  rw [← Bool.not_eq_true, sqlite3Isspace_iff]
  rcases h.sign with rfl | rfl | rfl
  · rcases h.head b hb with hd | ⟨hz, hd, hr⟩
    · exact hd.not_space
    · exact (h.bare rfl hz hd b hr).1
  · obtain rfl : ch '+' = b := by simpa using hb
    decide
  · obtain rfl : ch '-' = b := by simpa using hb
    decide

theorem readSign_of_sign {r : List UInt8} (hs : IsSign sg)
    (hb : sg = [] → ∀ b ∈ r.head?, b ≠ ch '-' ∧ b ≠ ch '+') :
    readSign 1 (sg ++ r) = (decide (sg = [ch '-']), r) := by
  rcases hs with rfl | rfl | rfl
  · cases r with
    | nil => rfl
    | cons b t =>
      obtain ⟨hm, hp⟩ := hb rfl b rfl
      rw [List.nil_append, readSign, if_neg hm, if_neg hp]
      rfl
  · rfl
  · rfl

theorem Parts.readSign_eq (h : Parts z ws sg zs ds rest) :
    readSign 1 (sg ++ (zs ++ (ds ++ rest))) = (decide (sg = [ch '-']), zs ++ (ds ++ rest)) := by
  refine readSign_of_sign h.sign fun hs b hb => ?_
  rcases h.head b hb with hd | ⟨hz, hd, hr⟩
  · exact hd.ne_sign
  · exact (h.bare hs hz hd b hr).2

theorem Parts.skip_zeros (h : Parts z ws sg zs ds rest) :
    skip (fun b => b = ch '0') 1 (zs ++ (ds ++ rest)) = ds ++ rest := by
  rw [skip_eq]
  refine (dropWhile_append_of (fun b hb => decide_eq_true (h.zeros b hb)) fun b hb => ?_).1
  refine decide_eq_false ?_
  cases ds with
  | cons c ds =>
    obtain rfl : c = b := by simpa using hb
    exact h.lead c rfl
  | nil =>
    rintro rfl
    exact h.behind _ (by simpa using hb) zero_isDigit

/-- The loop over the digits, from a value on. -/
theorem digits_fold (hds : ∀ b ∈ ds, IsDigit b) (v i : ℕ) :
    ds.foldl (fun r c => ((r.1 * 10 + c.toNat - (ch '0').toNat) % 2 ^ 64, r.2 + 1)) (v % 2 ^ 64, i) =
      (ds.foldl (fun v c => v * 10 + (c.toNat - (ch '0').toNat)) v % 2 ^ 64, i + ds.length) := by
  induction ds generalizing v i with
  | nil => rfl
  | cons c ds ih =>
    have hc := isDigit_toNat.mp (hds c List.mem_cons_self)
    have h0 : (ch '0').toNat = 48 := rfl
    have hstep : (v % 2 ^ 64 * 10 + c.toNat - (ch '0').toNat) % 2 ^ 64 =
        (v * 10 + (c.toNat - (ch '0').toNat)) % 2 ^ 64 := by
      rw [h0]
      omega
    rw [List.foldl_cons, List.foldl_cons, hstep, ih fun b hb => hds b (List.mem_cons_of_mem _ hb),
      List.length_cons]
    congr 1
    omega

theorem Parts.digitsLoop_eq (h : Parts z ws sg zs ds rest) :
    digitsLoop 1 (ds ++ rest) = (rest, digitsValue ds % 2 ^ 64, ds.length) := by
  obtain ⟨hdrop, htake⟩ := dropWhile_append_of (p := fun c => decide (ch '0' ≤ c ∧ c ≤ ch '9'))
    (fun b hb => decide_eq_true (h.digits b hb)) fun b hb => decide_eq_false (h.behind b hb)
  rw [digitsLoop, scan_eq (p := fun c => decide (ch '0' ≤ c ∧ c ≤ ch '9')) fun _ _ => rfl, hdrop, htake]
  have hfold := digits_fold h.digits 0 0
  rw [Nat.zero_add] at hfold
  exact congrArg (rest, ·) hfold

/-- What the function makes of the parts. -/
def verdict (neg : Bool) (zs ds rest : List UInt8) : ℕ × ℤ :=
  let u : ℕ := digitsValue ds % 2 ^ 64
  let pNum : ℤ := if (u : ℤ) > LARGEST_INT64 then SMALLEST_INT64 else if neg then -u else u
  if extraneous rest ∨ (ds = [] ∧ zs = []) ∨ ds.length > 19 then (1, pNum)
  else if ds.length < 19 then (0, pNum)
  else
    let c := compare2pow63 (ds ++ rest) 1
    if c < 0 then (0, pNum) else if c > 0 then (1, pNum) else (if neg then 0 else 2, pNum)

/-- The number of 64 bits that is stored for the digits. -/
def stored (neg : Bool) (n : ℕ) : ℤ :=
  let u : ℕ := n % 2 ^ 64
  if (u : ℤ) > LARGEST_INT64 then SMALLEST_INT64 else if neg then -u else u

theorem verdict_stored (neg : Bool) (zs ds rest : List UInt8) :
    (verdict neg zs ds rest).2 = stored neg (digitsValue ds) := by
  unfold verdict stored
  dsimp only
  generalize (if ((digitsValue ds % 2 ^ 64 : ℕ) : ℤ) > LARGEST_INT64 then SMALLEST_INT64
    else if neg then -((digitsValue ds % 2 ^ 64 : ℕ) : ℤ) else (digitsValue ds % 2 ^ 64 : ℕ)) = pNum
  split_ifs <;> rfl

theorem Parts.atoi64_eq (h : Parts z ws sg zs ds rest) :
    atoi64 1 z = verdict (decide (sg = [ch '-'])) zs ds rest := by
  have hzs : zs ++ (ds ++ rest) = ds ++ rest ↔ zs = [] := List.append_left_eq_self
  unfold atoi64 verdict
  simp only [h.skip_space, h.readSign_eq, h.skip_zeros, h.digitsLoop_eq, hzs, List.length_eq_zero_iff,
    Nat.mul_one]

theorem sign_split (z : List UInt8) : ∃ sg r, z = sg ++ r ∧ IsSign sg ∧
    (sg = [] → ∀ b ∈ r.head?, b ≠ ch '-' ∧ b ≠ ch '+') := by
  cases z with
  | nil => exact ⟨[], [], rfl, .inl rfl, by simp⟩
  | cons b t =>
    by_cases hm : b = ch '-'
    · exact ⟨[ch '-'], t, by simp [hm], .inr (.inr rfl), by simp⟩
    by_cases hp : b = ch '+'
    · exact ⟨[ch '+'], t, by simp [hp], .inr (.inl rfl), by simp⟩
    · exact ⟨[], b :: t, rfl, .inl rfl, fun _ => by simp [hm, hp]⟩

/-- Every text has such parts. -/
theorem exists_parts (z : List UInt8) : ∃ ws sg zs ds rest, Parts z ws sg zs ds rest := by
  obtain ⟨ws, z1, rfl, hws, hz1⟩ := span_split IsSpace z
  obtain ⟨sg, z2, rfl, hsign, hbare⟩ := sign_split z1
  obtain ⟨zs, z3, rfl, hzs, hz3⟩ := span_split (· = ch '0') z2
  obtain ⟨ds, rest, rfl, hds, hrest⟩ := span_split IsDigit z3
  refine ⟨ws, sg, zs, ds, rest, rfl, hws, hsign, hzs, hds, fun b hb => ?_, hrest, ?_⟩
  · cases ds with
    | nil => cases hb
    | cons c ds =>
      obtain rfl : c = b := by simpa using hb
      exact hz3 c rfl
  · rintro rfl rfl rfl b hb
    exact ⟨hz1 b hb, hbare rfl b hb⟩

/-- The number with the decimal digits `f i`, … of which there are `n`. -/
def decimal (f : ℕ → ℕ) : ℕ → ℕ → ℕ
  | 0, _ => 0
  | n + 1, i => f i * 10 ^ n + decimal f n (i + 1)

section
variable {f g : ℕ → ℕ} {n i : ℕ}

theorem decimal_lt (hf : ∀ j < i + n, f j ≤ 9) : decimal f n i < 10 ^ n := by
  induction n generalizing i with
  | zero => exact Nat.one_pos
  | succ n ih =>
    have hi := Nat.mul_le_mul_right (10 ^ n) (hf i (by omega))
    have hrest := ih (i := i + 1) fun j hj => hf j (by omega)
    rw [decimal, Nat.pow_succ]
    omega

theorem decimal_congr (h : ∀ j < i + n, f j = g j) : decimal f n i = decimal g n i := by
  induction n generalizing i with
  | zero => rfl
  | succ n ih => rw [decimal, decimal, h i (by omega), ih fun j hj => h j (by omega)]

theorem decimal_last : decimal f (n + 1) i = decimal f n i * 10 + f (i + n) := by
  induction n generalizing i with
  | zero => simp [decimal]
  | succ n ih =>
    have hidx : i + 1 + n = i + (n + 1) := by omega
    rw [decimal, ih, decimal, hidx]
    ring

end

def digitAt (z : List UInt8) (i : ℕ) : ℕ := (z.getD i 0).toNat - (ch '0').toNat

theorem digitsValue_eq (ds : List UInt8) : digitsValue ds = decimal (digitAt ds) ds.length 0 := by
  induction ds using List.reverseRecOn with
  | nil => rfl
  | append_singleton ds c ih =>
    have hold : decimal (digitAt (ds ++ [c])) ds.length 0 = decimal (digitAt ds) ds.length 0 := by
      refine decimal_congr fun j hj => ?_
      have hlt : j < ds.length := by omega
      simp [digitAt, List.getElem?_append_left hlt]
    have hlast : digitAt (ds ++ [c]) (0 + ds.length) = c.toNat - (ch '0').toNat := by
      simp [digitAt]
    rw [List.length_append, List.length_singleton, decimal_last, hold, hlast, ← ih, digitsValue,
      List.foldl_append]
    rfl

theorem digitAt_le {ds : List UInt8} (hds : ∀ b ∈ ds, IsDigit b) (j : ℕ) : digitAt ds j ≤ 9 := by
  have h0 : (ch '0').toNat = 48 := rfl
  rcases Nat.lt_or_ge j ds.length with hj | hj
  · have hd := isDigit_toNat.mp (hds _ (List.getElem_mem hj))
    have hget : ds.getD j 0 = ds[j] := by simp [hj]
    rw [digitAt, hget]
    omega
  · have hget : ds.getD j 0 = 0 := by simp [hj]
    rw [digitAt, hget]
    simp

theorem digitsValue_lt {ds : List UInt8} (hds : ∀ b ∈ ds, IsDigit b) :
    digitsValue ds < 10 ^ ds.length := by
  rw [digitsValue_eq]
  exact decimal_lt fun j _ => digitAt_le hds j

/-- The first difference decides between two numbers of the same length. -/
theorem compareLoop_spec {n i : ℕ} (hz : ∀ j < i + n, IsDigit (z.getD j 0)) (hn : i + n ≤ 18) :
    (compareLoop z 1 n i < 0 ↔ decimal (digitAt z) n i < decimal (digitAt pow63) n i) ∧
      (compareLoop z 1 n i = 0 ↔ decimal (digitAt z) n i = decimal (digitAt pow63) n i) := by
  induction n generalizing i with
  | zero => simp [compareLoop, decimal]
  | succ n ih =>
    have hpow : ∀ j < 18, IsDigit (pow63.getD j 0) := by decide
    have h0 : (ch '0').toNat = 48 := rfl
    have hzi := isDigit_toNat.mp (hz i (by omega))
    have hpi := isDigit_toNat.mp (hpow i (by omega))
    have hz' : decimal (digitAt z) n (i + 1) < 10 ^ n := decimal_lt fun j hj => by
      have hd := isDigit_toNat.mp (hz j (by omega))
      rw [digitAt]
      omega
    have hp' : decimal (digitAt pow63) n (i + 1) < 10 ^ n := decimal_lt fun j hj => by
      have hd := isDigit_toNat.mp (hpow j (by omega))
      rw [digitAt]
      omega
    obtain ⟨hlt, heq⟩ := ih (i := i + 1) (fun j hj => hz j (by omega)) (by omega)
    rw [compareLoop, Nat.mul_one]
    rw [decimal, decimal]
    have hzd : digitAt z i = (z.getD i 0).toNat - 48 := rfl
    have hpd : digitAt pow63 i = (pow63.getD i 0).toNat - 48 := rfl
    rw [hzd, hpd]
    generalize (z.getD i 0).toNat = a at *
    generalize (pow63.getD i 0).toNat = b at *
    generalize decimal (digitAt z) n (i + 1) = u at *
    generalize decimal (digitAt pow63) n (i + 1) = v at *
    rcases Nat.lt_trichotomy a b with hab | rfl | hab
    · have hmul := Nat.mul_le_mul_right (10 ^ n) (by omega : a - 48 + 1 ≤ b - 48)
      rw [Nat.add_mul, Nat.one_mul] at hmul
      rw [if_neg (by omega)]
      omega
    · rw [if_pos (by omega), hlt, heq]
      omega
    · have hmul := Nat.mul_le_mul_right (10 ^ n) (by omega : b - 48 + 1 ≤ a - 48)
      rw [Nat.add_mul, Nat.one_mul] at hmul
      rw [if_neg (by omega)]
      omega

/-- Nineteen digits against those of 2^63. -/
theorem compare2pow63_spec (rest : List UInt8) (hds : ∀ b ∈ ds, IsDigit b) (hlen : ds.length = 19) :
    (compare2pow63 (ds ++ rest) 1 < 0 ↔ digitsValue ds < 2 ^ 63) ∧
      (compare2pow63 (ds ++ rest) 1 = 0 ↔ digitsValue ds = 2 ^ 63) := by
  have hget : ∀ j < 19, (ds ++ rest).getD j 0 = ds.getD j 0 := fun j hj => by
    simp [List.getElem?_append_left (by omega : j < ds.length)]
  have hdig : ∀ j < 19, IsDigit (ds.getD j 0) := fun j hj => by
    have hlt : j < ds.length := by omega
    have hval : ds.getD j 0 = ds[j] := by simp [hlt]
    exact hval ▸ hds _ (List.getElem_mem hlt)
  obtain ⟨hlt, heq⟩ := compareLoop_spec (z := ds ++ rest) (n := 18) (i := 0)
    (fun j hj => hget j (by omega) ▸ hdig j (by omega)) le_rfl
  have hcongr : decimal (digitAt (ds ++ rest)) 18 0 = decimal (digitAt ds) 18 0 :=
    decimal_congr fun j hj => by rw [digitAt, hget j (by omega), digitAt]
  have hpow : decimal (digitAt pow63) 18 0 = 922337203685477580 := by decide
  have hvalue : digitsValue ds = decimal (digitAt ds) 18 0 * 10 + digitAt ds 18 := by
    rw [digitsValue_eq, hlen, decimal_last]
  have h8 : (ch '8').toNat = 56 := rfl
  have h0 : (ch '0').toNat = 48 := rfl
  have hlast := isDigit_toNat.mp (hdig 18 (by omega))
  have hlastd : digitAt ds 18 = (ds.getD 18 0).toNat - 48 := rfl
  rw [hcongr, hpow] at hlt heq
  rw [hvalue, hlastd, compare2pow63]
  rw [hget 18 (by omega), h8]
  generalize (ds.getD 18 0).toNat = x at *
  generalize decimal (digitAt ds) 18 0 = u at *
  generalize compareLoop (ds ++ rest) 1 18 0 = c at *
  by_cases hc : c = 0
  · rw [if_pos hc]
    have hu := heq.mp hc
    omega
  · rw [if_neg hc]
    have hu := mt heq.mpr hc
    omega

theorem le_digitsValue (hds : ∀ b ∈ ds, IsDigit b) (hlead : ∀ b ∈ ds.head?, b ≠ ch '0')
    (hne : ds ≠ []) : 10 ^ (ds.length - 1) ≤ digitsValue ds := by
  cases ds with
  | nil => exact absurd rfl hne
  | cons c ds =>
    have hc := isDigit_toNat.mp (hds c List.mem_cons_self)
    have hc0 : c.toNat ≠ 48 := fun h => hlead c rfl (UInt8.toNat_inj.mp h)
    have hfirst : 1 ≤ digitAt (c :: ds) 0 := by
      change 1 ≤ c.toNat - 48
      omega
    have hmul := Nat.mul_le_mul_right (10 ^ ds.length) hfirst
    rw [digitsValue_eq, List.length_cons, decimal, Nat.add_sub_cancel]
    omega

def signed (neg : Bool) (n : ℕ) : ℤ := if neg then -n else n

/-- The code for a value: stored, stored with the code 2, or not an integer of 64 bits. -/
theorem verdict_spec (neg : Bool) (rest : List UInt8) (hds : ∀ b ∈ ds, IsDigit b)
    (hlead : ∀ b ∈ ds.head?, b ≠ ch '0') (hne : ds ≠ [] ∨ zs ≠ []) (hrest : extraneous rest = false) :
    ((verdict neg zs ds rest).1 = 0 ∧ (verdict neg zs ds rest).2 = signed neg (digitsValue ds) ∧
        Fits (signed neg (digitsValue ds))) ∨
      ((verdict neg zs ds rest).1 = 2 ∧ signed neg (digitsValue ds) = 2 ^ 63) ∨
      ((verdict neg zs ds rest).1 = 1 ∧ ¬ Fits (signed neg (digitsValue ds)) ∧
        signed neg (digitsValue ds) ≠ 2 ^ 63) := by
  have hlt := digitsValue_lt hds
  have hempty : ¬ (ds = [] ∧ zs = []) := fun h => hne.elim (· h.1) (· h.2)
  rcases Nat.lt_trichotomy ds.length 19 with hlen | hlen | hlen
  · have hsmall : digitsValue ds < 10 ^ 18 :=
      hlt.trans_le (Nat.pow_le_pow_right (by decide) (by omega))
    have hmod : digitsValue ds % 2 ^ 64 = digitsValue ds := Nat.mod_eq_of_lt (by omega)
    unfold verdict
    simp only [hmod]
    rw [if_neg (by simp [hrest, hempty]; omega), if_pos hlen]
    rw [if_neg (by simp only [LARGEST_INT64]; omega)]
    refine .inl ⟨rfl, rfl, ?_⟩
    rw [fits_iff]
    cases neg <;> simp [signed] <;> omega
  · rw [hlen] at hlt
    have hmod : digitsValue ds % 2 ^ 64 = digitsValue ds := Nat.mod_eq_of_lt (by omega)
    obtain ⟨hcl, hce⟩ := compare2pow63_spec rest hds hlen
    unfold verdict
    simp only [hmod]
    rw [if_neg (by simp [hrest, hempty]; omega), if_neg (by omega)]
    rcases Nat.lt_trichotomy (digitsValue ds) (2 ^ 63) with hd | hd | hd
    · rw [if_pos (hcl.mpr hd), if_neg (by simp only [LARGEST_INT64]; omega)]
      refine .inl ⟨rfl, rfl, ?_⟩
      rw [fits_iff]
      cases neg <;> simp [signed] <;> omega
    · have hc := hce.mpr hd
      rw [hc, if_neg (by decide), if_neg (by decide), hd]
      cases neg
      · exact .inr (.inl ⟨rfl, rfl⟩)
      · exact .inl ⟨rfl, by decide, by decide⟩
    · rw [if_neg (by rw [hcl]; omega), if_pos (by omega)]
      refine .inr (.inr ⟨rfl, ?_⟩)
      rw [fits_iff]
      cases neg <;> simp [signed] <;> omega
  · have hnil : ds ≠ [] := by
      rintro rfl
      simp at hlen
    have hge := le_digitsValue hds hlead hnil
    have hpow : 10 ^ 19 ≤ 10 ^ (ds.length - 1) := Nat.pow_le_pow_right (by decide) (by omega)
    unfold verdict
    rw [if_pos (.inr (.inr hlen))]
    refine .inr (.inr ⟨rfl, ?_⟩)
    rw [fits_iff]
    cases neg <;> simp [signed] <;> omega

theorem verdict_one {neg : Bool} (h : ¬ (extraneous rest = false ∧ (ds ≠ [] ∨ zs ≠ []))) :
    (verdict neg zs ds rest).1 = 1 := by
  unfold verdict
  dsimp only
  rw [if_pos]
  by_cases hrest : extraneous rest = true
  · exact .inl hrest
  · refine .inr (.inl ?_)
    rw [Bool.not_eq_true] at hrest
    by_contra hno
    exact h ⟨hrest, by simpa [or_iff_not_imp_left] using hno⟩

/-- The parts are determined by the text. -/
theorem Parts.unique {ws' sg' zs' ds' rest' : List UInt8} (h : Parts z ws sg zs ds rest)
    (h' : Parts z ws' sg' zs' ds' rest') :
    (sg = [ch '-'] ↔ sg' = [ch '-']) ∧ zs = zs' ∧ ds = ds' ∧ rest = rest' := by
  have hspace := h.skip_space.symm.trans h'.skip_space
  have hsign := h.readSign_eq
  rw [hspace, h'.readSign_eq] at hsign
  obtain ⟨hneg, htail⟩ := Prod.mk.injEq .. ▸ hsign
  have hzero := h.skip_zeros
  rw [← htail, h'.skip_zeros] at hzero
  have hdigits := h.digitsLoop_eq
  rw [← hzero, h'.digitsLoop_eq] at hdigits
  have hrest : rest' = rest := congrArg Prod.fst hdigits
  subst hrest
  obtain rfl := List.append_cancel_right hzero
  exact ⟨(decide_eq_decide.mp hneg).symm, (List.append_cancel_right htail).symm, rfl, rfl⟩

theorem digitsValue_zeros (hzs : ∀ b ∈ zs, b = ch '0') : digitsValue (zs ++ ds) = digitsValue ds := by
  have hzero : zs.foldl (fun v c => v * 10 + (c.toNat - (ch '0').toNat)) 0 = 0 := by
    induction zs with
    | nil => rfl
    | cons c zs ih =>
      rw [List.foldl_cons, hzs c List.mem_cons_self]
      exact ih fun b hb => hzs b (List.mem_cons_of_mem _ hb)
  rw [digitsValue, List.foldl_append, hzero, digitsValue]

/-- A text denotes a number if all of it is read and there is a digit. -/
theorem Parts.denotes_iff (h : Parts z ws sg zs ds rest) (v : ℤ) :
    Denotes z v ↔ rest = [] ∧ (ds ≠ [] ∨ zs ≠ []) ∧
      v = signed (decide (sg = [ch '-'])) (digitsValue ds) := by
  constructor
  · rintro ⟨ws', sg', ds', heq, hspace, hsign, hne, hdigits, rfl⟩
    obtain ⟨zs', r, rfl, hzeros, hr⟩ := span_split (· = ch '0') ds'
    have hp : Parts z ws' sg' zs' r [] := by
      refine ⟨?_, hspace, hsign, hzeros, fun b hb => hdigits b (List.mem_append_right _ hb), hr,
        by simp, by simp⟩
      rw [List.append_nil, heq]
    obtain ⟨hs, rfl, rfl, rfl⟩ := h.unique hp
    refine ⟨rfl, ?_, ?_⟩
    · by_contra hno
      rw [not_or, not_not, not_not] at hno
      exact hne (by rw [hno.1, hno.2, List.append_nil])
    · rw [digitsValue_zeros hzeros]
      simp [signed, hs]
  · rintro ⟨rfl, hne, rfl⟩
    refine ⟨ws, sg, zs ++ ds, ?_, h.space, h.sign, ?_, fun b hb => ?_, ?_⟩
    · rw [h.eq, List.append_nil]
    · rw [Ne, List.append_eq_nil_iff]
      exact fun hno => hne.elim (· hno.2) (· hno.1)
    · rcases List.mem_append.mp hb with hb | hb
      · exact h.zeros b hb ▸ zero_isDigit
      · exact h.digits b hb
    · rw [digitsValue_zeros h.zeros]
      simp [signed]

/-- For texts without a NUL, the codes of `sqlite3Atoi64` tell the integers of 64 bits, 2^63 and
everything else apart. -/
theorem atoi64_spec (hz : ∀ b ∈ z, b ≠ 0) :
    (∀ v, sqlite3Atoi64 z .SQLITE_UTF8 = (0, v) ↔ Denotes z v ∧ Fits v) ∧
      ((sqlite3Atoi64 z .SQLITE_UTF8).1 = 2 ↔ Denotes z (2 ^ 63)) ∧
      ((sqlite3Atoi64 z .SQLITE_UTF8).1 = 1 ↔
        ¬ (∃ v, Denotes z v ∧ Fits v) ∧ ¬ Denotes z (2 ^ 63)) := by
  obtain ⟨ws, sg, zs, ds, rest, h⟩ := exists_parts z
  have heq : sqlite3Atoi64 z .SQLITE_UTF8 = verdict (decide (sg = [ch '-'])) zs ds rest := h.atoi64_eq
  rw [heq]
  by_cases hread : rest = [] ∧ (ds ≠ [] ∨ zs ≠ [])
  · obtain ⟨rfl, hne⟩ := hread
    have hspec := verdict_spec (decide (sg = [ch '-'])) [] h.digits h.lead hne rfl
    have hden : ∀ v, Denotes z v ↔ v = signed (decide (sg = [ch '-'])) (digitsValue ds) := fun v => by
      simp [h.denotes_iff, hne]
    have hbig : ¬ Fits (2 ^ 63) := by decide
    simp only [hden]
    generalize verdict (decide (sg = [ch '-'])) zs ds [] = r at hspec ⊢
    generalize signed (decide (sg = [ch '-'])) (digitsValue ds) = x at hspec ⊢
    generalize (2 : ℤ) ^ 63 = big at hspec hbig ⊢
    obtain ⟨code, stored⟩ := r
    rcases hspec with ⟨rfl, rfl, hf⟩ | ⟨rfl, rfl⟩ | ⟨rfl, hf, hx⟩
    · have hne2 : big ≠ stored := fun e => hbig (e ▸ hf)
      simp [hne2, hf, eq_comm]
    · simp [hbig]
    · simp [hf, hx.symm]
  · have hcode : (verdict (decide (sg = [ch '-'])) zs ds rest).1 = 1 := by
      refine verdict_one fun ⟨hrest, hne⟩ => hread ⟨?_, hne⟩
      cases rest with
      | nil => rfl
      | cons b t => simp [extraneous, hz b (by rw [h.eq]; simp)] at hrest
    have hnot : ∀ v, ¬ Denotes z v := fun v hv => by
      rw [h.denotes_iff] at hv
      exact hread ⟨hv.1, hv.2.1⟩
    generalize verdict (decide (sg = [ch '-'])) zs ds rest = r at hcode ⊢
    obtain ⟨code, stored⟩ := r
    dsimp only at hcode
    subst hcode
    simp [hnot]

theorem atoi64_spec_minimum :
    (∀ b ∈ "-9223372036854775808".toList.map ch, b ≠ 0) ∧
      sqlite3Atoi64 ("-9223372036854775808".toList.map ch) .SQLITE_UTF8 = (0, -2 ^ 63) ∧
      Denotes ("-9223372036854775808".toList.map ch) (-2 ^ 63) := by
  have hz : ∀ b ∈ "-9223372036854775808".toList.map ch, b ≠ 0 := by simp [ch]
  have heq : sqlite3Atoi64 ("-9223372036854775808".toList.map ch) .SQLITE_UTF8 = (0, -2 ^ 63) := by
    decide +kernel
  exact ⟨hz, heq, (((atoi64_spec hz).1 _).mp heq).1⟩

end Sqlite.Numeric
