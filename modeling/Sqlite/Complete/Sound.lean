import Sqlite.Complete.Rounds
import Sqlite.Numeric.Atoi

/-! The test for a complete statement against the automaton on the tokens. -/
namespace Sqlite.Complete

open Numeric (ch sqlite3CtypeMap sqlite3Isspace sqlite3Isdigit)
open HashTable (fold sqlite3UpperToLower)

variable {b c : UInt8} {z rest w d f x : List UInt8} {s : State} {i : ℕ}

/-! Numbers and blobs. -/

theorem wordToken_other (h : b ∉ "cCtTeE".toList.map ch) (n : ℕ) :
    wordToken (b :: z) n = .tkOTHER := by
  have hne {k : UInt8} (hk : k ∈ "cCtTeE".toList.map ch) : b ≠ k := fun h' => h (h' ▸ hk)
  have hor {k l : UInt8} (hk : k ∈ "cCtTeE".toList.map ch) (hl : l ∈ "cCtTeE".toList.map ch) :
      ¬ (b = k ∨ b = l) := not_or.mpr ⟨hne hk, hne hl⟩
  unfold wordToken
  rw [byteAt_cons]
  dsimp only
  rw [if_neg (hor (by decide) (by decide)), if_neg (hor (by decide) (by decide)),
    if_neg (hor (by decide) (by decide))]

/-- A run of identifier characters in a number: digits first, or the `e` of an exponent. -/
def NumberRun (w : List UInt8) : Prop :=
  (∀ x ∈ w, IdChar x) ∧ ∀ b w', w = b :: w' →
    sqlite3Isdigit b ∨ (b = ch 'e' ∨ b = ch 'E') ∧ (w' = [] ∨ sqlite3Isdigit (byteAt w' 0))

theorem digit_range (h : sqlite3Isdigit b) : 48 ≤ b.toNat ∧ b.toNat ≤ 57 :=
  Numeric.isDigit_toNat.mp (Numeric.sqlite3Isdigit_iff.mp h)

theorem lower_digit (h : sqlite3Isdigit b) : sqlite3UpperToLower b = b := by
  have hrange := digit_range h
  refine if_neg fun ⟨hle, _⟩ => ?_
  rw [UInt8.le_iff_toNat_le] at hle
  have hle' : 65 ≤ b.toNat := hle
  omega

theorem NumberRun.digits (hd : ∀ y ∈ d, sqlite3Isdigit y) : NumberRun d :=
  ⟨fun y hy => idChar_of_digit (hd y hy), fun b _ h => .inl (hd b (h ▸ List.mem_cons_self))⟩

theorem NumberRun.append (hd : ∀ y ∈ d, sqlite3Isdigit y) (hw : NumberRun w) :
    NumberRun (d ++ w) := by
  cases d with
  | nil => exact hw
  | cons a d =>
    refine ⟨fun y hy => (List.mem_append.mp hy).elim (fun h => idChar_of_digit (hd y h)) (hw.1 y),
      fun b w' h => ?_⟩
    obtain ⟨rfl, -⟩ := List.cons.inj h
    exact .inl (hd a List.mem_cons_self)

/-- The loop reads no keyword in a number. -/
theorem NumberRun.wordToken (h : NumberRun (b :: w)) (rest : List UInt8) :
    wordToken (b :: w ++ rest) (b :: w).length = .tkOTHER := by
  obtain hb | ⟨_, hnext⟩ := h.2 b w rfl
  · have hall : ∀ k ∈ "cCtTeE".toList.map ch, ¬ sqlite3Isdigit k := by decide +kernel
    exact wordToken_other (fun hmem => hall b hmem hb) _
  · have h0 : 0 ∉ b :: w := fun hmem => absurd (h.1 0 hmem) (by decide)
    have hle : (byteAt (fold w) 0).toNat ≤ 57 := by
      cases w with
      | nil => exact Nat.zero_le _
      | cons a w =>
        have ha : sqlite3Isdigit a := hnext.resolve_left (by simp)
        show (sqlite3UpperToLower a).toNat ≤ 57
        rw [lower_digit ha]
        exact (digit_range ha).2
    have hne (kw : List UInt8) (hkw : 57 < (byteAt kw 1).toNat) : fold (b :: w) ≠ kw := by
      rintro rfl
      exact absurd hle (Nat.not_le.mpr hkw)
    rw [wordToken_eq h0 rest, if_neg (hne ("create".toList.map ch) (by decide)),
      if_neg (hne ("trigger".toList.map ch) (by decide)),
      if_neg (hne ("temp".toList.map ch) (by decide)),
      if_neg (hne ("temporary".toList.map ch) (by decide)),
      if_neg (hne ("end".toList.map ch) (by decide)),
      if_neg (hne ("explain".toList.map ch) (by decide))]

theorem passes_run (hw : NumberRun w) (hrest : ¬ IdChar (byteAt rest 0)) :
    Passes (w ++ rest) rest := by
  cases w with
  | nil => exact .refl _
  | cons b w =>
    obtain ⟨h0, hround⟩ := round_word (hw.1 b List.mem_cons_self)
      (fun y hy => hw.1 y (List.mem_cons_of_mem _ hy)) hrest
    refine .one h0 (hround.trans ?_)
    rw [← List.length_cons, ← List.cons_append, hw.wordToken rest]

/-- An exponent as it stands in a number, or none. -/
def IsExponent (x : List UInt8) : Prop :=
  x = [] ∨ ∃ b c d, x = b :: c :: d ∧ (b = ch 'e' ∨ b = ch 'E') ∧ (∀ y ∈ d, sqlite3Isdigit y) ∧
    (sqlite3Isdigit c ∨ (c = ch '+' ∨ c = ch '-') ∧ sqlite3Isdigit (byteAt d 0))

theorem idChar_e (hb : b = ch 'e' ∨ b = ch 'E') : IdChar b := by
  rcases hb with rfl | rfl <;> decide

/-- Digits and an exponent. -/
theorem passes_exponent (hd : ∀ y ∈ d, sqlite3Isdigit y) (hx : IsExponent x)
    (hrest : ¬ IdChar (byteAt rest 0)) : Passes (d ++ (x ++ rest)) rest := by
  obtain rfl | ⟨b, c, d', rfl, hb, hd', hc | ⟨hc, hfirst⟩⟩ := hx
  · exact passes_run (.digits hd) hrest
  · have hrun : NumberRun (b :: c :: d') := by
      refine ⟨List.forall_mem_cons.mpr ⟨idChar_e hb, List.forall_mem_cons.mpr
        ⟨idChar_of_digit hc, ?_⟩⟩, fun b' w' h => ?_⟩
      · exact fun y hy => idChar_of_digit (hd' y hy)
      · obtain ⟨rfl, rfl⟩ := List.cons.inj h
        exact .inr ⟨hb, .inr hc⟩
    rw [← List.append_assoc]
    exact passes_run (hrun.append hd) hrest
  · have hrun : NumberRun [b] := by
      refine ⟨fun y hy => List.mem_singleton.mp hy ▸ idChar_e hb, fun b' w' h => ?_⟩
      obtain ⟨rfl, rfl⟩ := List.cons.inj h
      exact .inr ⟨hb, .inl rfl⟩
    have hfirst' : byteAt (d' ++ rest) 0 ≠ ch '-' := by
      cases d' with
      | nil => exact absurd hfirst (by decide)
      | cons a d' =>
        have hdash : ¬ sqlite3Isdigit (ch '-') := by decide
        rintro rfl
        exact hdash hfirst
    have hsign : ¬ IdChar c ∧ c ≠ 0 ∧ round c (d' ++ rest) = .token .tkOTHER (d' ++ rest) := by
      rcases hc with rfl | rfl
      · exact ⟨by decide, by decide, rfl⟩
      · exact ⟨by decide, by decide, if_pos hfirst'⟩
    have hgo : Passes (_ ++ c :: (d' ++ rest)) _ := passes_run (hrun.append hd) hsign.1
    rw [List.append_assoc] at hgo
    exact hgo.trans (.step hsign.2.1 hsign.2.2 (passes_run (.digits hd') hrest))

theorem fraction_parts (z : List UInt8) (i : ℕ) : ∃ f, z.drop i = f ++ z.drop (fraction z i).1 ∧
    (f = [] ∨ ∃ d, f = ch '.' :: d ∧ ∀ y ∈ d, sqlite3Isdigit y) := by
  unfold fraction
  split
  · rename_i hdot
    rw [← byteAt_drop_zero] at hdot
    obtain ⟨z', hz'⟩ := cons_of_byteAt hdot (by decide)
    have htail : z.drop (i + 1) = z' := by rw [← List.tail_drop, hz', List.tail_cons]
    rw [drop_skipWhile, htail, hz']
    refine ⟨ch '.' :: z'.takeWhile sqlite3Isdigit, ?_, .inr ⟨_, rfl, fun y hy => ?_⟩⟩
    · rw [List.cons_append, List.takeWhile_append_dropWhile]
    · exact List.mem_takeWhile_imp hy
  · exact ⟨[], rfl, .inl rfl⟩

theorem exponent_parts (z : List UInt8) (r : ℕ × TK) :
    ∃ x, z.drop r.1 = x ++ z.drop (exponent z r).1 ∧ IsExponent x := by
  unfold exponent
  split
  · rename_i hcond
    have hat (k : ℕ) : byteAt z (r.1 + k) = byteAt (z.drop r.1) k := (byteAt_drop z r.1 k).symm
    rw [← byteAt_drop_zero z r.1, hat 1, hat 2] at hcond
    rw [drop_skipWhile, ← List.drop_drop]
    obtain ⟨hfirst, hnext⟩ := hcond
    generalize z.drop r.1 = z at hfirst hnext
    cases z with
    | nil => exact absurd hfirst (by decide)
    | cons b z1 =>
      cases z1 with
      | nil =>
        have hnone : ¬ (sqlite3Isdigit 0 ∨ (0 = ch '+' ∨ 0 = ch '-') ∧ sqlite3Isdigit 0) := by decide
        exact absurd hnext hnone
      | cons c z2 =>
        replace hfirst : b = ch 'e' ∨ b = ch 'E' := hfirst
        replace hnext : sqlite3Isdigit c ∨
            (c = ch '+' ∨ c = ch '-') ∧ sqlite3Isdigit (byteAt z2 0) := hnext
        refine ⟨b :: c :: z2.takeWhile sqlite3Isdigit, ?_, .inr ⟨b, c, _, rfl, hfirst, ?_, ?_⟩⟩
        · show _ = b :: c :: (z2.takeWhile sqlite3Isdigit ++ z2.dropWhile sqlite3Isdigit)
          rw [List.takeWhile_append_dropWhile]
        · exact fun y hy => List.mem_takeWhile_imp hy
        · refine hnext.imp_right fun ⟨hsign, hdigit⟩ => ⟨hsign, ?_⟩
          cases z2 with
          | nil => exact hdigit
          | cons a z3 =>
            have ha : sqlite3Isdigit a := hdigit
            rw [List.takeWhile_cons_of_pos ha]
            exact ha
  · exact ⟨[], rfl, .inl rfl⟩

theorem skipWhile_stop {p : UInt8 → Bool} (h : ¬ p (byteAt z i)) : skipWhile p z i = i := by
  rw [← byteAt_drop_zero] at h
  unfold skipWhile
  cases hz : z.drop i with
  | nil => rfl
  | cons a z' =>
    rw [hz, byteAt_cons] at h
    rw [List.takeWhile_cons_of_neg h]
    rfl

/-- The loop ends a number where the tokenizer does. -/
theorem number_passes (h : (number z).2 ≠ .TK_ILLEGAL) : Passes z (z.drop (number z).1) := by
  obtain ⟨f, hf, hfraction⟩ := fraction_parts z (skipWhile sqlite3Isdigit z 0)
  obtain ⟨x, hx, hexponent⟩ := exponent_parts z (fraction z (skipWhile sqlite3Isdigit z 0))
  have hrest : ¬ IdChar (byteAt z (exponent z (fraction z (skipWhile sqlite3Isdigit z 0))).1) := by
    intro hid
    exact h (if_pos hid)
  have hend : (number z).1 = (exponent z (fraction z (skipWhile sqlite3Isdigit z 0))).1 :=
    skipWhile_stop hrest
  have hdigits : ∀ y ∈ z.takeWhile sqlite3Isdigit, sqlite3Isdigit y :=
    fun y hy => List.mem_takeWhile_imp hy
  have hz : z = z.takeWhile sqlite3Isdigit ++ (f ++ (x ++ z.drop (number z).1)) := by
    rw [hend, ← hx, ← hf, drop_skipWhile, List.drop_zero, List.takeWhile_append_dropWhile]
  rw [← hend, ← byteAt_drop_zero] at hrest
  generalize z.drop (number z).1 = rest at *
  rw [hz]
  obtain rfl | ⟨d, rfl, hd⟩ := hfraction
  · exact passes_exponent hdigits hexponent hrest
  · have hdot : ¬ IdChar (ch '.') := by decide
    have hgo : Passes (_ ++ ch '.' :: (d ++ (x ++ rest))) _ := passes_run (.digits hdigits) hdot
    exact hgo.trans (.step (by decide) rfl (passes_exponent hd hexponent hrest))

/-- The loop reads the `x` of a blob as a word. -/
theorem blob_passes (hx : b = ch 'x' ∨ b = ch 'X')
    (h : (blob (b :: ch '\'' :: z)).2 ≠ .TK_ILLEGAL) :
    Passes (b :: ch '\'' :: z) ((b :: ch '\'' :: z).drop (blob (b :: ch '\'' :: z)).1) := by
  have hdrop : (b :: ch '\'' :: z).drop (skipWhile sqlite3Isxdigit (b :: ch '\'' :: z) 2) =
      z.dropWhile sqlite3Isxdigit := drop_skipWhile ..
  have hcond : ¬ (byteAt (b :: ch '\'' :: z)
      (skipWhile sqlite3Isxdigit (b :: ch '\'' :: z) 2) ≠ ch '\'' ∨
      skipWhile sqlite3Isxdigit (b :: ch '\'' :: z) 2 % 2 ≠ 0) := by
    intro hbad
    apply h
    unfold blob
    dsimp only
    rw [if_pos hbad]
  have hquote := not_not.mp (not_or.mp hcond).1
  have hend : (blob (b :: ch '\'' :: z)).1 =
      skipWhile sqlite3Isxdigit (b :: ch '\'' :: z) 2 + 1 := by
    unfold blob
    dsimp only
    rw [if_neg hcond, hquote]
    rfl
  rw [← byteAt_drop_zero, hdrop] at hquote
  obtain ⟨rest, hrest⟩ := cons_of_byteAt hquote (by decide)
  rw [hend, ← List.tail_drop, hdrop, hrest, List.tail_cons]
  have hz : z = z.takeWhile sqlite3Isxdigit ++ ch '\'' :: rest := by
    rw [← hrest, List.takeWhile_append_dropWhile]
  have hhex : ∀ y ∈ z.takeWhile sqlite3Isxdigit, y ≠ 0 ∧ y ≠ ch '\'' := by
    intro y hy
    have hy' : sqlite3Isxdigit y := List.mem_takeWhile_imp hy
    constructor <;> rintro rfl <;> exact absurd hy' (by decide)
  have hid : IdChar b := by rcases hx with rfl | rfl <;> decide +kernel
  have hword : b ∉ "cCtTeE".toList.map ch := by rcases hx with rfl | rfl <;> decide +kernel
  have hstop : ¬ IdChar (byteAt (ch '\'' :: z) 0) := by
    have hnot : ¬ IdChar (ch '\'') := by decide
    exact hnot
  have hq : round (ch '\'') z = .token .tkOTHER rest := by
    rw [(round_quote (.inr (.inl rfl)) z).2, hz, skipTo_some hhex (by decide)]
    rfl
  obtain ⟨h0, hround⟩ := round_word (w := []) hid (fun _ hy => absurd hy List.not_mem_nil) hstop
  rw [wordToken_other hword] at hround
  exact .step h0 hround (.one (by decide) hq)

/-! Operators. -/

theorem oneByte_round {tokenType : TK} (h : oneByte b = some tokenType) (z : List UInt8) :
    b ≠ 0 ∧ round b z = .token (tokenTk tokenType) z := by
  unfold oneByte at h
  split_ifs at h with h1 h2 h3 h4 h5 h6 h7 h8 h9 <;> cases h
  · exact h1 ▸ ⟨by decide, rfl⟩
  · exact h2 ▸ ⟨by decide, rfl⟩
  · exact h3 ▸ ⟨by decide, rfl⟩
  · exact h4 ▸ ⟨by decide, rfl⟩
  · exact h5 ▸ ⟨by decide, rfl⟩
  · exact h6 ▸ ⟨by decide, rfl⟩
  · exact h7 ▸ ⟨by decide, rfl⟩
  · exact h8 ▸ ⟨by decide, rfl⟩
  · exact h9 ▸ ⟨by decide, rfl⟩

/-- The bytes of the operators that may be two bytes. -/
def IsOperator (b : UInt8) : Prop := b = ch '=' ∨ b = ch '<' ∨ b = ch '>' ∨ b = ch '!' ∨ b = ch '|'

theorem IsOperator.round (h : IsOperator b) (z : List UInt8) :
    b ≠ 0 ∧ round b z = .token .tkOTHER z := by
  rcases h with rfl | rfl | rfl | rfl | rfl <;> exact ⟨by decide, rfl⟩

theorem operator_cases {r : ℕ × TK} (h : operator b c = some r) (hlegal : r.2 ≠ .TK_ILLEGAL) :
    IsOperator b ∧ tokenTk r.2 = .tkOTHER ∧ (r.1 = 1 ∨ r.1 = 2 ∧ IsOperator c) := by
  unfold operator at h
  split_ifs at h with h1 c1 h2 c2 c3 c4 h3 c5 c6 h4 c7 h5 c8 <;> cases h
  · exact ⟨.inl h1, rfl, .inr ⟨rfl, .inl c1⟩⟩
  · exact ⟨.inl h1, rfl, .inl rfl⟩
  · exact ⟨.inr (.inl h2), rfl, .inr ⟨rfl, .inl c2⟩⟩
  · exact ⟨.inr (.inl h2), rfl, .inr ⟨rfl, .inr (.inr (.inl c3))⟩⟩
  · exact ⟨.inr (.inl h2), rfl, .inr ⟨rfl, .inr (.inl c4)⟩⟩
  · exact ⟨.inr (.inl h2), rfl, .inl rfl⟩
  · exact ⟨.inr (.inr (.inl h3)), rfl, .inr ⟨rfl, .inl c5⟩⟩
  · exact ⟨.inr (.inr (.inl h3)), rfl, .inr ⟨rfl, .inr (.inr (.inl c6))⟩⟩
  · exact ⟨.inr (.inr (.inl h3)), rfl, .inl rfl⟩
  · exact ⟨.inr (.inr (.inr (.inl h4))), rfl, .inr ⟨rfl, .inl c7⟩⟩
  · exact absurd rfl hlegal
  · exact ⟨.inr (.inr (.inr (.inr h5))), rfl, .inr ⟨rfl, .inr (.inr (.inr (.inr c8)))⟩⟩
  · exact ⟨.inr (.inr (.inr (.inr h5))), rfl, .inl rfl⟩

theorem operator_passes (hb : IsOperator b) (h : i = 1 ∨ i = 2 ∧ IsOperator (byteAt z 0)) :
    Passes (b :: z) ((b :: z).drop i) := by
  obtain ⟨h0, hround⟩ := hb.round z
  obtain rfl | ⟨rfl, hc⟩ := h
  · exact .one h0 hround
  · cases z with
    | nil => exact absurd rfl (hc.round []).1
    | cons c z =>
      obtain ⟨hc0, hcround⟩ := IsOperator.round (b := c) hc z
      exact .step h0 hround (.one hc0 hcround)

/-! What the automaton makes of a token. -/

theorem number_type (h : (number z).2 ≠ .TK_ILLEGAL) : tokenTk (number z).2 = .tkOTHER := by
  have htype : ∀ r : ℕ × TK, tokenTk r.2 = .tkOTHER → tokenTk (exponent z r).2 = .tkOTHER := by
    intro r hr
    unfold exponent
    split
    · rfl
    · exact hr
  have hfraction : tokenTk (fraction z (skipWhile sqlite3Isdigit z 0)).2 = .tkOTHER := by
    unfold fraction
    split <;> rfl
  unfold number at h ⊢
  dsimp only at h ⊢
  split_ifs at h ⊢
  · exact absurd rfl h
  · exact htype _ hfraction

theorem variable_type (h : (variable_ z).2 ≠ .TK_ILLEGAL) : (variable_ z).2 = .TK_VARIABLE := by
  unfold variable_ at h ⊢
  dsimp only at h ⊢
  split_ifs at h ⊢
  · exact absurd rfl h
  · rfl

theorem blob_type (h : (blob z).2 ≠ .TK_ILLEGAL) : (blob z).2 = .TK_BLOB := by
  unfold blob at h ⊢
  dsimp only at h ⊢
  split_ifs at h ⊢
  · exact absurd rfl h
  · rfl

/-! Variables. -/

theorem wordToken_ne_semi (z : List UInt8) (n : ℕ) : wordToken z n ≠ .tkSEMI := by
  unfold wordToken
  dsimp only
  split_ifs <;> decide

theorem wordToken_plain (hw : 0 ∉ b :: w) (h : fold (b :: w) ∉ keywords) (rest : List UInt8) :
    wordToken (b :: w ++ rest) (b :: w).length = .tkOTHER := by
  have hne {kw : List UInt8} (hkw : kw ∈ keywords) : fold (b :: w) ≠ kw := fun heq => h (heq ▸ hkw)
  rw [wordToken_eq hw rest, if_neg (hne (by decide)), if_neg (hne (by decide)),
    if_neg (hne (by decide)), if_neg (hne (by decide)), if_neg (hne (by decide)),
    if_neg (hne (by decide))]

/-- The states that other tokens do not change. -/
theorem trans_other_cases (hs : trans s .tkOTHER = s) :
    s = .EXPLAIN ∨ ∀ t, t ≠ .tkSEMI → trans s t = s := by
  cases s with
  | EXPLAIN => exact .inl rfl
  | NORMAL => exact .inr fun t ht => by cases t <;> first | rfl | exact absurd rfl ht
  | TRIGGER => exact .inr fun t ht => by cases t <;> first | rfl | exact absurd rfl ht
  | INVALID => cases hs
  | START => cases hs
  | CREATE => cases hs
  | SEMI => cases hs
  | END => cases hs

/-- Where no word counts, the loop goes over identifier characters to the end of their run. -/
theorem word_quiet (hs : ∀ t, t ≠ .tkSEMI → trans s t = s) (hw : ∀ y ∈ w, IdChar y) :
    completeLoop (w ++ z) s = completeLoop (z.dropWhile IdChar) s := by
  have hall : ∀ y ∈ w ++ z.takeWhile IdChar, IdChar y := fun y hy =>
    (List.mem_append.mp hy).elim (hw y) List.mem_takeWhile_imp
  have hrest : ¬ IdChar (byteAt (z.dropWhile IdChar) 0) := byteAt_dropWhile IdChar (by decide) z
  have hz : w ++ z = w ++ z.takeWhile IdChar ++ z.dropWhile IdChar := by
    rw [List.append_assoc, List.takeWhile_append_dropWhile]
  rw [hz]
  generalize w ++ z.takeWhile IdChar = run at hall
  cases run with
  | nil => rfl
  | cons b run =>
    obtain ⟨h0, hround⟩ := round_word (hall b List.mem_cons_self)
      (fun y hy => hall y (List.mem_cons_of_mem _ hy)) hrest
    rw [List.cons_append, completeLoop_token h0 hround, hs _ (wordToken_ne_semi _ _)]

theorem skipComment_some (hw : 0 ∉ w) (h : ¬ [ch '*', ch '/'] <:+: w ++ [ch '*']) :
    skipComment (w ++ ch '*' :: ch '/' :: rest) = some rest := by
  induction w with
  | nil => rfl
  | cons b w ih =>
    have hb : b ≠ 0 := fun hb => hw (hb ▸ List.mem_cons_self)
    have hrest := ih (fun hmem => hw (List.mem_cons_of_mem _ hmem))
      fun hin => h (hin.trans (List.suffix_cons b _).isInfix)
    cases w with
    | nil =>
      rw [List.cons_append, List.nil_append, skipComment, if_neg hb,
        if_neg fun hend => absurd hend.2 (by decide)]
      exact hrest
    | cons c w =>
      rw [List.cons_append, List.cons_append, skipComment, if_neg hb, if_neg]
      · exact hrest
      · rintro ⟨rfl, rfl⟩
        exact h ⟨[], w ++ [ch '*'], rfl⟩

theorem round_byte (hid : ¬ IdChar c) (hc : c ∉ ";[`'\"".toList.map ch)
    (hdash : c = ch '-' → byteAt z 0 ≠ ch '-') (hslash : c = ch '/' → byteAt z 0 ≠ ch '*') :
    round c z = .token .tkWS z ∨ round c z = .token .tkOTHER z := by
  have hne {k : UInt8} (hk : k ∈ ";[`'\"".toList.map ch) : c ≠ k := fun h => hc (h ▸ hk)
  unfold round
  rw [if_neg (hne (by decide))]
  by_cases hws : c = ch ' ' ∨ c = ch '\r' ∨ c = ch '\t' ∨ c = ch '\n' ∨ c = 0x0c
  · rw [if_pos hws]
    exact .inl rfl
  right
  rw [if_neg hws]
  by_cases hs : c = ch '/'
  · rw [if_pos hs, if_pos (hslash hs)]
  rw [if_neg hs]
  by_cases hd : c = ch '-'
  · rw [if_pos hd, if_pos (hdash hd)]
  rw [if_neg hd, if_neg (hne (by decide)), if_neg, if_neg hid]
  rintro (h | h | h)
  · exact hne (by decide) h
  · exact hne (by decide) h
  · exact hne (by decide) h

/-- The loop goes over a plain text without leaving a state that other tokens do not change. -/
theorem Plain.loop (h : Plain s rest z) (hz : 0 ∉ z) (hs : trans s .tkOTHER = s) :
    completeLoop (z ++ rest) s = completeLoop rest s := by
  induction h with
  | nil => rfl
  | @word w z hne hw hword _ ih =>
    have hrest := ih fun hmem => hz (List.mem_append_right _ hmem)
    rw [List.append_assoc]
    obtain hexplain | hquiet := trans_other_cases hs
    · obtain ⟨hkey, hnext⟩ := hword hexplain
      cases w with
      | nil => exact absurd rfl hne
      | cons b w =>
        obtain ⟨h0, hround⟩ := round_word (hw b List.mem_cons_self)
          (fun y hy => hw y (List.mem_cons_of_mem _ hy)) hnext
        rw [← List.length_cons, ← List.cons_append,
          wordToken_plain (fun hmem => hz (List.mem_append_left _ hmem)) hkey] at hround
        rw [List.cons_append, completeLoop_token h0 hround, hs, hrest]
    · have hback : completeLoop ([] ++ (z ++ rest)) s = _ := word_quiet hquiet (by simp)
      rw [word_quiet hquiet hw, ← hback, List.nil_append, hrest]
  | @quoted c w z hc hw _ ih =>
    have hrest := ih fun hmem => hz (by simp [hmem])
    obtain ⟨h0, hround⟩ := round_quote hc (w ++ c :: (z ++ rest))
    have hclosed : ∀ x ∈ w, x ≠ 0 ∧ x ≠ c := fun x hx =>
      ⟨fun hx0 => hz (by simp [← hx0, hx]), fun hxc => hw (hxc ▸ hx)⟩
    rw [skipTo_some hclosed h0] at hround
    rw [List.append_assoc, List.cons_append, List.cons_append, completeLoop_token h0 hround, hs, hrest]
  | @bracketed w z hw _ ih =>
    have hrest := ih fun hmem => hz (by simp [hmem])
    have hround : round (ch '[') (w ++ ch ']' :: (z ++ rest)) =
        Round.zero.upTo .tkOTHER (skipTo (ch ']') (w ++ ch ']' :: (z ++ rest))) := rfl
    have hclosed : ∀ x ∈ w, x ≠ 0 ∧ x ≠ ch ']' := fun x hx =>
      ⟨fun hx0 => hz (by simp [← hx0, hx]), fun hxc => hw (hxc ▸ hx)⟩
    rw [skipTo_some hclosed (by decide)] at hround
    rw [List.append_assoc, List.cons_append, List.cons_append,
      completeLoop_token (by decide) hround, hs, hrest]
  | @comment w z hw _ ih =>
    have hrest := ih fun hmem => hz (by simp [hmem])
    have hround : round (ch '/') (ch '*' :: (w ++ ch '*' :: ch '/' :: (z ++ rest))) =
        Round.zero.upTo .tkWS (skipComment (w ++ ch '*' :: ch '/' :: (z ++ rest))) := rfl
    rw [skipComment_some (fun hmem => hz (by simp [hmem])) hw] at hround
    rw [List.append_assoc, List.cons_append, List.cons_append, List.cons_append, List.cons_append,
      completeLoop_token (by decide) hround, trans_ws, hrest]
  | @byte c z hid hc hdash hslash _ ih =>
    have hrest := ih fun hmem => hz (List.mem_cons_of_mem _ hmem)
    have h0 : c ≠ 0 := fun hc => hz (hc ▸ List.mem_cons_self)
    rw [List.cons_append]
    obtain hround | hround := round_byte hid hc hdash hslash
    · rw [completeLoop_token h0 hround, trans_ws, hrest]
    · rw [completeLoop_token h0 hround, hs, hrest]

/-- The first byte of a variable. -/
theorem variable_round (h : b = ch '?' ∨ b = ch '#' ∨ b = ch '$' ∨ b = ch '@' ∨ b = ch ':')
    (z : List UInt8) : b ≠ 0 ∧ ∃ z', round b z = .token .tkOTHER z' := by
  rcases h with rfl | rfl | rfl | rfl | rfl
  · exact ⟨by decide, z, rfl⟩
  · exact ⟨by decide, z, rfl⟩
  · have hw : ∀ y ∈ z.takeWhile IdChar, IdChar y := fun y hy => List.mem_takeWhile_imp hy
    have hround := (round_word (b := ch '$') (by decide) hw
      (byteAt_dropWhile IdChar (by decide) z)).2
    rw [wordToken_other (by decide), List.takeWhile_append_dropWhile] at hround
    exact ⟨by decide, _, hround⟩
  · exact ⟨by decide, z, rfl⟩
  · exact ⟨by decide, z, rfl⟩

theorem Plain.other (h : Plain s rest z) : Plain (trans s .tkOTHER) rest z := by
  have hs : trans s .tkOTHER = .EXPLAIN → s = .EXPLAIN := by cases s <;> decide
  induction h with
  | nil => exact .nil
  | word hne hw hword _ ih => exact .word hne hw (fun h => hword (hs h)) ih
  | quoted hc hw _ ih => exact .quoted hc hw ih
  | bracketed hw _ ih => exact .bracketed hw ih
  | comment hw _ ih => exact .comment hw ih
  | byte hid hc hdash hslash _ ih => exact .byte hid hc hdash hslash ih

theorem Plain.single (hid : ¬ IdChar c) (hc : c ∉ ";[`'\"-/".toList.map ch) (h : Plain s rest z) :
    Plain s rest (c :: z) := by
  have hne {k : UInt8} (hk : k ∈ ";[`'\"-/".toList.map ch) : c ≠ k := fun h => hc (h ▸ hk)
  have hsub : ∀ k ∈ ";[`'\"".toList.map ch, k ∈ ";[`'\"-/".toList.map ch := by decide +kernel
  exact .byte hid (fun hmem => hc (hsub c hmem)) (fun h => absurd h (hne (by decide)))
    (fun h => absurd h (hne (by decide))) h

/-- A plain variable is one other token. -/
theorem variable_step (h : b = ch '?' ∨ b = ch '#' ∨ b = ch '$' ∨ b = ch '@' ∨ b = ch ':')
    (hz : 0 ∉ b :: z) (hp : Plain s ((b :: z).drop i) ((b :: z).take i)) :
    completeLoop (b :: z) s = completeLoop ((b :: z).drop i) (trans s .tkOTHER) := by
  obtain ⟨h0, z', hround⟩ := variable_round h z
  have hloop := hp.other.loop (fun hmem => hz (List.mem_of_mem_take hmem)) (trans_other s)
  rw [List.take_append_drop] at hloop
  rw [← hloop, completeLoop_token h0 hround, completeLoop_token h0 hround, trans_other]

/-! A step of the automaton is a token of the text. -/

theorem slash_step (h : byteAt z 0 ≠ ch '*' ∨ byteAt z 1 = 0) (hz : 0 ∉ z) :
    completeLoop (ch '/' :: z) s = completeLoop z (trans s .tkOTHER) := by
  by_cases hstar : byteAt z 0 = ch '*'
  · -- a comment without a byte: neither side ends in START
    obtain ⟨z', rfl⟩ := cons_of_byteAt hstar (by decide)
    have hnil : z' = [] := by
      cases z' with
      | nil => rfl
      | cons a z' =>
        have ha : a = 0 := h.resolve_left (not_not.mpr hstar)
        exact absurd (ha ▸ List.mem_cons_of_mem _ List.mem_cons_self) hz
    subst hnil
    have hstar' : completeLoop [ch '*'] (trans s .tkOTHER) = completeLoop [] _ :=
      completeLoop_token (t := .tkOTHER) (by decide) rfl
    rw [completeLoop_zero (by decide) rfl, hstar', trans_other, completeLoop,
      decide_eq_false (trans_other_ne s)]
  · exact completeLoop_token (by decide) (if_pos hstar)

theorem word_step {keywordCode : List UInt8 → TK} (hk : KeywordTable keywordCode) (hz : 0 ∉ b :: z)
    (hb : IdChar b) (s : State) : completeLoop (b :: z) s =
      completeLoop (z.dropWhile IdChar)
        (trans s (tokenTk (keywordCode (b :: z.takeWhile IdChar)))) := by
  have hw : ∀ y ∈ z.takeWhile IdChar, IdChar y := fun y hy => List.mem_takeWhile_imp hy
  have hrest : ¬ IdChar (byteAt (z.dropWhile IdChar) 0) := byteAt_dropWhile IdChar (by decide) z
  have h0 : 0 ∉ b :: z.takeWhile IdChar :=
    fun hmem => hz (List.cons_subset_cons b (List.takeWhile_subset _) hmem)
  obtain ⟨hb0, hround⟩ := round_word hb hw hrest
  rw [← List.length_cons, ← List.cons_append, hk.wordToken h0,
    List.takeWhile_append_dropWhile] at hround
  exact completeLoop_token hb0 hround

/-- A quoted text as the tokenizer gives it. -/
theorem quote_step (hq : b = ch '`' ∨ b = ch '\'' ∨ b = ch '"') {r : ℕ × TK}
    (hr : r = if (quoteLoop b z 1).2 = ch '\'' then ((quoteLoop b z 1).1 + 1, .TK_STRING)
      else if (quoteLoop b z 1).2 ≠ 0 then ((quoteLoop b z 1).1 + 1, .TK_ID)
      else ((quoteLoop b z 1).1, .TK_ILLEGAL)) (hlegal : r.2 ≠ .TK_ILLEGAL) :
    Passes (b :: z) ((b :: z).drop r.1) ∧ tokenTk r.2 = .tkOTHER := by
  have hgo (hend : (quoteLoop b z 1).2 ≠ 0) :
      Passes (b :: z) ((b :: z).drop ((quoteLoop b z 1).1 + 1)) := by
    have hp := (quoteLoop_passes hq hend).2
    rwa [Nat.add_sub_cancel] at hp
  split_ifs at hr with hstring hid
  · subst hr
    exact ⟨hgo (by rw [hstring]; decide), rfl⟩
  · subst hr
    exact ⟨hgo hid, rfl⟩
  · exact absurd (congrArg Prod.snd hr) hlegal

theorem token_step {keywordCode : List UInt8 → TK} (hk : KeywordTable keywordCode) (hz : 0 ∉ z)
    (hne : z ≠ []) {r : ℕ × TK} (hr : Shape keywordCode z r)
    (hlegal : r.2 ≠ .TK_ILLEGAL) (hclosed : ¬ Token.Unterminated ⟨r.2, z.take r.1, z.drop r.1⟩)
    (h : Token.Readable ⟨r.2, z.take r.1, z.drop r.1⟩ s) :
    completeLoop z s = completeLoop (z.drop r.1) (trans s (tokenTk r.2)) := by
  have hlt : z ≠ z.drop r.1 := by
    intro heq
    have hlen := congrArg List.length heq
    have hpos := hr.pos
    have hlen' := List.length_pos_iff.mpr hne
    rw [List.length_drop] at hlen
    omega
  have hpasses (hp : Passes z (z.drop r.1)) (ht : tokenTk r.2 = .tkOTHER) :
      completeLoop z s = completeLoop (z.drop r.1) (trans s (tokenTk r.2)) := by
    rw [ht]
    exact hp.loop hlt s
  cases z with
  | nil => exact absurd rfl hne
  | cons b z =>
    cases hr with
    | space hb =>
      have hws : IsWs b := by
        rcases hb with hb | hb | hb | hb | hb
        · exact .inl hb
        · exact .inr (.inr (.inl hb))
        · exact .inr (.inr (.inr (.inl hb)))
        · exact .inr (.inr (.inr (.inr hb)))
        · exact .inr (.inl hb)
      have hvt : 0x0b ∈ (b :: z).take (skipWhile sqlite3Isspace (b :: z) 1) →
          trans s .tkOTHER = s := by
        intro hmem
        refine h.space ⟨rfl, ?_, hmem⟩
        rw [skipWhile, Nat.add_comm, List.take_succ_cons]
        exact hws.isspace
      dsimp only
      rw [step_space hws hvt, tokenTk, trans_ws]
    | lineComment hb hc =>
      obtain ⟨z', rfl⟩ := cons_of_byteAt (z := z) hc (by decide)
      obtain rfl : b = ch '-' := hb
      dsimp only
      have hz' : 0 ∉ z' := fun hmem => hz (List.mem_cons_of_mem _ (List.mem_cons_of_mem _ hmem))
      rw [step_lineComment hz', tokenTk, trans_ws]
    | minus hb hc =>
      obtain rfl : b = ch '-' := hb
      exact completeLoop_token (by decide) (if_pos hc)
    | slash hb hc =>
      obtain rfl : b = ch '/' := hb
      exact slash_step hc fun hmem => hz (List.mem_cons_of_mem _ hmem)
    | comment hb hc hd =>
      obtain rfl : b = ch '/' := hb
      obtain ⟨z, rfl⟩ := cons_of_byteAt (z := z) hc (by decide)
      cases z with
      | nil => exact absurd rfl hd
      | cons c z =>
        have hz' : 0 ∉ c :: z :=
          fun hmem => hz (List.mem_cons_of_mem _ (List.mem_cons_of_mem _ hmem))
        exact (step_comment hz' hclosed s).trans (congrArg _ (trans_ws s).symm)
    | quote hb =>
      obtain ⟨hp, ht⟩ := quote_step hb rfl hlegal
      exact hpasses hp ht
    | dot hb =>
      obtain rfl : b = ch '.' := hb
      exact completeLoop_token (by decide) rfl
    | number hb =>
      exact hpasses (number_passes hlegal) (number_type hlegal)
    | bracket hb =>
      obtain rfl : b = ch '[' := hb
      by_cases hend : byteAt (ch '[' :: z)
          (skipWhile (fun c => c ≠ 0 ∧ c ≠ ch ']') (ch '[' :: z) 1) = ch ']'
      · have hp := bracket_passes (fun hmem => hz (List.mem_cons_of_mem _ hmem)) hend
        rw [if_pos hend] at hpasses ⊢
        exact hpasses hp rfl
      · exact absurd (congrArg Prod.snd (if_neg hend)) hlegal
    | question hb => exact variable_step (.inl hb) hz (h.plain (.inl rfl))
    | register hb => exact variable_step (.inr (.inl hb)) hz (h.plain (.inr rfl))
    | name hb =>
      have htype := variable_type hlegal
      rw [htype]
      exact variable_step (.inr hb) hz (h.plain (.inl htype))
    | blob hb hc =>
      obtain ⟨z, rfl⟩ := cons_of_byteAt (z := z) hc (by decide)
      exact hpasses (blob_passes hb hlegal) (congrArg tokenTk (blob_type hlegal))
    | one hb =>
      obtain ⟨h0, hround⟩ := oneByte_round hb z
      exact completeLoop_token h0 hround
    | two hb =>
      obtain ⟨hop, htk, hn⟩ := operator_cases hb hlegal
      exact hpasses (operator_passes hop hn) htk
    | word hb hc hd =>
      dsimp only
      rw [take_skipWhile_one, drop_skipWhile]
      exact word_step hk hz hb s
    | illegal => exact absurd rfl hlegal

theorem completeLoop_automaton {keywordCode : List UInt8 → TK} (hk : KeywordTable keywordCode)
    (hz : 0 ∉ z) (hlegal : ∀ t ∈ tokens keywordCode z, t.type ≠ .TK_ILLEGAL ∧ ¬ t.Unterminated)
    (s : State) (h : ∀ p ∈ withStates (tokens keywordCode z) s, p.1.Readable p.2) :
    completeLoop z s = decide (automaton (tokens keywordCode z) s = .START) := by
  induction z using tokens.induct keywordCode generalizing s with
  | case1 =>
    rw [completeLoop, tokens]
    rfl
  | case2 z => exact absurd List.mem_cons_self hz
  | case3 b z h0 r ih =>
    rw [tokens, if_neg h0] at h hlegal ⊢
    obtain ⟨hfirst, hrest⟩ := List.forall_mem_cons.mp h
    obtain ⟨⟨hl, hclosed⟩, hlegal'⟩ := List.forall_mem_cons.mp hlegal
    rw [token_step hk hz (List.cons_ne_nil b z) (sqlite3GetToken_shape keywordCode _) hl hclosed hfirst,
      ih (fun hmem => hz (List.mem_of_mem_drop hmem)) hlegal' _ hrest]
    rfl

/-- The test gives 1 for the texts on which the automaton ends in `START`. -/
theorem sqlite3_complete_iff {keywordCode : List UInt8 → TK} (hk : KeywordTable keywordCode)
    {zSql : List UInt8} (hz : 0 ∉ zSql)
    (hlegal : ∀ t ∈ tokens keywordCode zSql, t.type ≠ .TK_ILLEGAL ∧ ¬ t.Unterminated)
    (h : ∀ p ∈ withStates (tokens keywordCode zSql) .INVALID, p.1.Readable p.2) :
    sqlite3_complete zSql = true ↔ automaton (tokens keywordCode zSql) .INVALID = .START := by
  rw [sqlite3_complete, completeLoop_automaton hk hz hlegal _ h, decide_eq_true_iff]

theorem sqlite3_complete_iff_explain :
    sqlite3_complete ("EXPLAIN ?1 CREATE TRIGGER t 'it''s' @end".toList.map ch ++ [0x20, 0x0b] ++
      "$b(+\"x\") /* ; */; END;".toList.map ch) = true := by
  have hall : ∀ p ∈ withStates (tokens sixKeywords ("EXPLAIN ?1 CREATE TRIGGER t 'it''s' @end".toList.map
        ch ++ [0x20, 0x0b] ++ "$b(+\"x\") /* ; */; END;".toList.map ch)) .INVALID,
      (p.1.HasVT → trans p.2 .tkOTHER = p.2) ∧
        (¬ (p.1.type = .TK_VARIABLE ∨ p.1.type = .TK_REGISTER) ∨
          p.2 = .EXPLAIN ∧ p.1.text = [ch '?', ch '1'] ∧ byteAt p.1.rest 0 = ch ' ' ∨
          p.2 = .TRIGGER ∧ p.1.text = [ch '@', ch 'e', ch 'n', ch 'd'] ∨
          p.2 = .TRIGGER ∧ p.1.text =
            [ch '$', ch 'b', ch '(', ch '+', ch '"', ch 'x', ch '"', ch ')']) := by
    decide +kernel
  have hids : (∀ c ∈ [ch '1'], IdChar c) ∧ (∀ c ∈ [ch 'e', ch 'n', ch 'd'], IdChar c) ∧
      ∀ c ∈ [ch '$', ch 'b'], IdChar c := by
    simp only [List.forall_mem_cons, List.not_mem_nil, false_implies, implies_true, and_true]
    decide
  refine (sqlite3_complete_iff sixKeywords_table (by decide +kernel) (by decide +kernel)
    fun ⟨⟨type, text, rest⟩, s⟩ hp => ?_).mpr (by decide +kernel)
  obtain ⟨hvt, hother | ⟨rfl, rfl, hnext⟩ | ⟨rfl, rfl⟩ | ⟨rfl, rfl⟩⟩ := hall _ hp
  · exact ⟨hvt, fun hvar => absurd hvar hother⟩
  · have hspace : ¬ IdChar (ch ' ') := by decide
    exact ⟨hvt, fun _ => .single (by decide) (by decide +kernel) (.word (w := [ch '1']) (by decide) hids.1
      (fun _ => ⟨by decide, hnext ▸ hspace⟩) .nil)⟩
  · exact ⟨hvt, fun _ => .single (by decide) (by decide +kernel)
      (.word (w := [ch 'e', ch 'n', ch 'd']) (by decide) hids.2.1 nofun .nil)⟩
  · exact ⟨hvt, fun _ => .word (w := [ch '$', ch 'b']) (by decide) hids.2.2 nofun
      (.single (by decide) (by decide +kernel) (.single (by decide) (by decide +kernel)
        (.quoted (w := [ch 'x']) (by decide) (by decide) (.single (by decide) (by decide +kernel) .nil))))⟩

/-- A vertical tab behind a statement; a keyword as the name of a variable, and as what stands right
behind one; and in the parentheses of a variable a semicolon, and what begins a text in quotes or
brackets and a comment. -/
theorem sqlite3_complete_differs : KeywordTable sixKeywords ∧
    ∀ zSql ∈ ["; ".toList.map ch ++ [0x0b], "EXPLAIN @create TRIGGER;".toList.map ch,
        "EXPLAIN ?1create TRIGGER;".toList.map ch, "EXPLAIN $a(;) CREATE TRIGGER;".toList.map ch,
        "SELECT $a(');".toList.map ch, "SELECT $a([);".toList.map ch, "SELECT $a(--);".toList.map ch,
        "SELECT $a(/*);".toList.map ch],
      (∀ t ∈ tokens sixKeywords zSql, t.type ≠ .TK_ILLEGAL ∧ ¬ t.Unterminated) ∧
      ¬ (sqlite3_complete zSql = true ↔ automaton (tokens sixKeywords zSql) .INVALID = .START) :=
  ⟨sixKeywords_table, by decide +kernel⟩

end Sqlite.Complete
