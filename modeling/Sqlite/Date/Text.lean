import Mathlib
import Sqlite.Date.Model
import Sqlite.Numeric.Atof

/-! Texts: what the numbers in them are at most, and the modifiers `NNN units`. -/
namespace Sqlite.Date

open HashTable (sqlite3UpperToLower)
open Numeric (ch digit digit_range readSign sqlite3Isdigit sqlite3Isdigit_iff sqlite3Isspace)

/-! The numbers of a date or a time. -/

theorem getDigits_bounds {gs : List Group} {z : List UInt8} :
    List.Forall₂ (fun (g : Group) v => g.min ≤ v ∧
      v ≤ g.max) (gs.take (getDigits gs z).length) (getDigits gs z) := by
  induction gs generalizing z with
  | nil => simp [getDigits]
  | cons g gs ih =>
    unfold getDigits
    split
    · simp
    · split_ifs with h
      · simp
      · rw [not_or, not_or] at h
        simpa using ⟨⟨not_lt.mp h.1, not_lt.mp h.2.1⟩, ih⟩

theorem digits_bounds {ds : List UInt8} (hds : ∀ b ∈ ds, sqlite3Isdigit b = true) {v : ℤ} (hv : 0 ≤ v) :
    0 ≤ ds.foldl (fun v b => v * 10 + digit b) v ∧
      ds.foldl (fun v b => v * 10 + digit b) v < (v + 1) * 10 ^ ds.length := by
  induction ds generalizing v with
  | nil => simpa using hv
  | cons b ds ih =>
    have hb := digit_range (sqlite3Isdigit_iff.mp (hds b List.mem_cons_self))
    have h := ih (fun c hc => hds c (List.mem_cons_of_mem _ hc)) (v := v * 10 + digit b) (by omega)
    refine ⟨h.1, h.2.trans_le ?_⟩
    calc (v * 10 + digit b + 1) * 10 ^ ds.length ≤ ((v + 1) * 10) * 10 ^ ds.length := by gcongr; omega
      _ = (v + 1) * 10 ^ (b :: ds).length := by rw [List.length_cons, pow_succ]; ring

theorem fractionOf_bounds (z : List UInt8) : 0 ≤ fractionOf z ∧ fractionOf z ≤ 1 := by
  have h := @digits_bounds (z.takeWhile sqlite3Isdigit) (fun b hb => List.mem_takeWhile_imp hb)
    (v := 0) le_rfl
  have hp : (0 : ℚ) < 10 ^ (z.takeWhile sqlite3Isdigit).length := by positivity
  rw [zero_add, one_mul] at h
  unfold fractionOf
  refine ⟨div_nonneg (by exact_mod_cast h.1) hp.le, (div_le_one hp).mpr ?_⟩
  exact_mod_cast h.2.le

theorem parseSeconds_bounds {z rest : List UInt8} {s : ℚ} (h : parseSeconds z = some (s, rest)) :
    -61 ≤ s ∧ s ≤ 61 := by
  unfold parseSeconds at h
  split_ifs at h
  · cases h; norm_num
  · have hd := @getDigits_bounds [⟨2, 0, 59, none⟩] (z.drop 1)
    split at h
    case h_2 => cases h
    case h_1 v hv =>
      rw [hv] at hd
      have hv : (0 : ℚ) ≤ v ∧ (v : ℚ) ≤ 59 := by exact_mod_cast (by simpa using hd : 0 ≤ v ∧ v ≤ 59)
      have hf := fractionOf_bounds ((z.drop 3).drop 1)
      dsimp only at h
      split_ifs at h <;> cases h
      · constructor <;> linarith
      · constructor <;> linarith

theorem parseTimezone_bounds {z : List UInt8} {tz : ℤ} (h : parseTimezone z = some tz) : -899 ≤ tz ∧
    tz ≤ 899 := by
  unfold parseTimezone at h
  extract_lets z' zulu at h
  have hzulu {x : ℤ} {w : List UInt8} (hx : zulu x w = some tz) : tz = x := by
    simp only [zulu] at hx
    split_ifs at hx
    exact (Option.some.inj hx).symm
  clear_value z'
  cases z' with
  | nil => cases h; decide
  | cons c w =>
    have hclose {k hr mn : ℤ} {x : List UInt8} (hk : k = 1 ∨ k = -1)
        (hv : getDigits [⟨2, 0, 14, some (ch ':')⟩, ⟨2, 0, 59, none⟩] w = [hr, mn])
        (h : zulu (k * (mn + hr * 60)) x = some tz) : -899 ≤ tz ∧ tz ≤ 899 := by
      have hd := @getDigits_bounds [⟨2, 0, 14, some (ch ':')⟩, ⟨2, 0, 59, none⟩] w
      rw [hv] at hd
      have hd : (0 ≤ hr ∧ hr ≤ 14) ∧ 0 ≤ mn ∧ mn ≤ 59 := by simpa using hd
      rw [hzulu h]
      rcases hk with rfl | rfl <;> omega
    dsimp only at h
    split_ifs at h
    · split at h
      case h_2 => cases h
      case h_1 hr mn hv => exact hclose (.inr rfl) hv h
    · split at h
      case h_2 => cases h
      case h_1 hr mn hv => exact hclose (.inl rfl) hv h
    · rw [hzulu h]; decide

/-! Modifiers. -/

/-- The text is the modifier `N units`. -/
def Asks (zMod : List UInt8) (N : ℤ) (u : Unit) : Prop :=
  ∃ z, modifierOf zMod = some (.addUnits N z) ∧ unitOf z = some u

/-- The digits of a number. -/
def decimal (n : ℕ) : List UInt8 :=
  if n = 0 then [ch '0'] else ((Nat.digits 10 n).map fun d => ch '0' + .ofNat d).reverse

def numeral (N : ℤ) : List UInt8 := (if N < 0 then [ch '-'] else []) ++ decimal N.natAbs

/-- The text `N units`. -/
def modifierText (N : ℤ) (u : Unit) : List UInt8 := numeral N ++ ch ' ' :: (u.name ++ [ch 's'])

/-- What the functions above see in a digit. -/
structure IsDigit (b : UInt8) : Prop where
  digit : sqlite3Isdigit b = true
  space : sqlite3Isspace b = false
  lower : sqlite3UpperToLower b = b
  colon : b ≠ ch ':'
  minus : b ≠ ch '-'
  plus : b ≠ ch '+'

theorem isDigit_ofNat {d : ℕ} (h : d < 10) :
    IsDigit (ch '0' + .ofNat d) ∧ digit (ch '0' + .ofNat d) = d := by
  interval_cases d <;> exact ⟨⟨by decide, by decide, by decide, by decide, by decide, by decide⟩, by decide⟩

theorem isDigit_decimal {n : ℕ} {b : UInt8} (h : b ∈ decimal n) : IsDigit b := by
  unfold decimal at h
  split_ifs at h
  · rw [List.mem_singleton.mp h]
    exact (isDigit_ofNat (d := 0) (by decide)).1
  · obtain ⟨d, hd, rfl⟩ := List.mem_map.mp (List.mem_reverse.mp h)
    exact (isDigit_ofNat (Nat.digits_lt_base (by decide) hd)).1

theorem decimal_ne_nil (n : ℕ) : decimal n ≠ [] := by
  unfold decimal
  split_ifs with h <;> simp [h, Nat.digits_eq_nil_iff_eq_zero]

theorem length_decimal_le {n k : ℕ} (hk : 0 < k) (h : n < 10 ^ k) : (decimal n).length ≤ k := by
  unfold decimal
  split_ifs
  · exact hk
  · simpa using (Nat.digits_length_le_iff (by decide) n).mpr h

theorem foldl_decimal (n : ℕ) : (decimal n).foldl (fun v b => v * 10 + digit b) 0 = (n : ℤ) := by
  unfold decimal
  split_ifs with h
  · simp [h, digit]
  · have hv : ∀ ds : List ℕ, (∀ d ∈ ds, d < 10) →
        (ds.map fun d => ch '0' + .ofNat d).foldr (fun b v => v * 10 + digit b) 0 = ((Nat.ofDigits 10 ds : ℕ) : ℤ) := by
      intro ds hds
      induction ds with
      | nil => rfl
      | cons d ds ih =>
        rw [List.map_cons, List.foldr_cons, ih fun x hx => hds x (List.mem_cons_of_mem _ hx),
          (isDigit_ofNat (hds d List.mem_cons_self)).2, Nat.ofDigits_cons]
        push_cast
        ring
    rw [List.foldl_reverse, hv _ fun d hd => Nat.digits_lt_base (by decide) hd]
    exact_mod_cast Nat.ofDigits_digits 10 n

theorem decimal_eq_cons (n : ℕ) : ∃ b z, decimal n = b :: z ∧ IsDigit b := by
  obtain ⟨b, z, h⟩ := List.exists_cons_of_ne_nil (decimal_ne_nil n)
  exact ⟨b, z, h, isDigit_decimal (h ▸ List.mem_cons_self)⟩

theorem sqlite3AtoF_numeral (N : ℤ) : sqlite3AtoF (numeral N) = some (N : ℚ) := by
  obtain ⟨b, z, hz, hb⟩ := decimal_eq_cons N.natAbs
  have htake : (decimal N.natAbs).takeWhile sqlite3Isdigit = decimal N.natAbs :=
    List.takeWhile_eq_self_iff.mpr fun b hb => (isDigit_decimal hb).digit
  have hdrop : (decimal N.natAbs).dropWhile sqlite3Isdigit = [] :=
    List.dropWhile_eq_nil_iff.mpr fun b hb => (isDigit_decimal hb).digit
  have hsign : readSign 1 ((numeral N).dropWhile sqlite3Isspace) = (decide (N < 0), decimal N.natAbs) := by
    unfold numeral
    split_ifs with h
    · rw [List.singleton_append, List.dropWhile_cons_of_neg (by decide)]
      simp [readSign, h]
    · rw [List.nil_append, hz, List.dropWhile_cons_of_neg (by simp [hb.space])]
      simp [readSign, hb.minus, hb.plus, h]
  unfold sqlite3AtoF
  rw [hsign]
  simp only [htake, hdrop, List.head?_nil, reduceCtorEq, Bool.false_eq_true, if_false,
    List.append_nil, foldl_decimal, or_self, false_implies, List.dropWhile_nil, decimal_ne_nil, ne_eq,
    not_false_eq_true, and_self, if_true]
  rcases lt_or_ge N 0 with h | h
  · have hN : (N.natAbs : ℤ) = -N := Int.ofNat_natAbs_of_nonpos h.le
    simp [h, hN]
  · have hN : (N.natAbs : ℤ) = N := Int.natAbs_of_nonneg h
    simp [not_lt.mpr h, hN]

/-- A numeral is one byte and then bytes that end no amount. -/
theorem numeral_eq_cons (N : ℤ) : ∃ c w, numeral N = c :: w ∧ (c = ch '-' ∨ IsDigit c) ∧
    ∀ b ∈ w, IsDigit b := by
  obtain ⟨b, z, hz, hb⟩ := decimal_eq_cons N.natAbs
  unfold numeral
  split_ifs
  · exact ⟨_, _, rfl, .inl rfl, fun b hb => isDigit_decimal hb⟩
  · exact ⟨b, z, hz, .inr hb, fun c hc => isDigit_decimal (hz ▸ List.mem_cons_of_mem _ hc)⟩

theorem amount_modifierText (N : ℤ) (u : Unit) :
    amount (modifierText N u) = some ((N : ℚ), ch ' ' :: (u.name ++ [ch 's'])) := by
  obtain ⟨c, w, hN, -, hw⟩ := numeral_eq_cons N
  have htake : ((modifierText N u).drop 1).takeWhile (fun b => b ≠ ch ':' ∧ !sqlite3Isspace b) = w := by
    rw [modifierText, hN, List.cons_append, List.drop_one, List.tail_cons, List.takeWhile_append_of_pos]
    · rw [List.takeWhile_cons_of_neg (by decide), List.append_nil]
    · exact fun b hb => by simp [(hw b hb).colon, (hw b hb).space]
  have hlen : 1 + w.length = (numeral N).length := by rw [hN, List.length_cons, add_comm]
  unfold amount
  simp only [htake, hlen]
  rw [modifierText, List.take_left, List.drop_left, sqlite3AtoF_numeral]
  rfl

theorem length_numeral_le {N : ℤ} {k : ℕ} (hk : 0 < k) (hN : N.natAbs < 10 ^ k) :
    (numeral N).length ≤ k + 1 := by
  have := length_decimal_le hk hN
  unfold numeral
  split_ifs <;> simp <;> omega

theorem zBuf_modifierText {N : ℤ} (hN : N.natAbs < 10 ^ 15) (u : Unit) :
    zBuf (modifierText N u) = modifierText N u := by
  have hl := length_numeral_le (by decide) hN
  have hu : u.name.length ≤ 6 ∧ (ch ' ' :: (u.name ++ [ch 's'])).map sqlite3UpperToLower =
      ch ' ' :: (u.name ++ [ch 's']) := by cases u <;> decide
  have hd : (numeral N).map sqlite3UpperToLower = numeral N := by
    obtain ⟨c, w, hN, hc, hw⟩ := numeral_eq_cons N
    rw [hN, List.map_cons, (List.map_congr_left fun b hb => (hw b hb).lower).trans (List.map_id _)]
    rcases hc with rfl | hc
    · rfl
    · rw [hc.lower]
  rw [zBuf, List.take_of_length_le (by simp [modifierText]; omega), modifierText, List.map_append, hd, hu.2]

/-- The plain text of a modifier is read as that. -/
theorem modifierText_asks {N : ℤ} (hN : N.natAbs < 10 ^ 15) (u : Unit) : Asks (modifierText N u) N u := by
  have hu : unitText (ch ' ' :: (u.name ++ [ch 's'])) = some u.name ∧ unitOf u.name = some u := by
    cases u <;> decide
  refine ⟨u.name, ?_, hu.2⟩
  have ha := amount_modifierText N u
  obtain ⟨c, w, hc, hcd, -⟩ := numeral_eq_cons N
  unfold modifierOf
  rw [zBuf_modifierText hN]
  rw [modifierText, hc, List.cons_append] at ha ⊢
  have hne {x : UInt8} (hx : sqlite3Isdigit x = false ∧ x ≠ ch '-') : c ≠ x := by
    rintro rfl
    rcases hcd with h | h
    · exact hx.2 h
    · simp [h.digit] at hx
  have hsign : c = ch '+' ∨ c = ch '-' ∨ sqlite3Isdigit c = true :=
    hcd.elim (fun h => .inr (.inl h)) fun h => .inr (.inr h.digit)
  simp only [localtimeWord, unixepochWord, utcWord, weekdayWord, startOfWord, List.take_succ_cons,
    List.cons.injEq, hne (x := ch 'l') (by decide), hne (x := ch 'u') (by decide),
    hne (x := ch 'w') (by decide), hne (x := ch 's') (by decide), false_and, if_false, hsign, if_true, ha,
    Option.bind_some]
  rw [if_neg (by rw [List.head?_cons]; decide), hu.1]
  rfl

end Sqlite.Date
