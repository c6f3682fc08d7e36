import Sqlite.Func.PatternSound

/-! The function behind LIKE and GLOB (`func.c`), and the escaping of a string. -/
namespace Sqlite.Func

open Utf

inductive LikeResult where
  | null
  | int (b : Bool)
  | error (zMsg : String)
  deriving DecidableEq

/-- The escape character of the call with three arguments, and 0 of the call with two. -/
def readEscape : Option (Option (List UInt8)) → Except LikeResult ℕ
  | none => .ok 0
  | some none => .error .null
  | some (some zEsc) =>
    if sqlite3Utf8CharLen zEsc ≠ 1 then
      .error (.error "ESCAPE expression must be a single character")
    else .ok (sqlite3Utf8Read zEsc).1

/-- The pattern comes first; `none` is NULL. `aLimit` is the limit on the length of patterns. -/
def likeFunc (aLimit : ℕ) (pInfo : compareInfo) (argv0 argv1 : Option (List UInt8))
    (argv2 : Option (Option (List UInt8))) : LikeResult :=
  if (argv0.getD []).length > aLimit then .error "LIKE or GLOB pattern too complex"
  else
    match readEscape argv2 with
    | .error r => r
    | .ok escape =>
      match argv1, argv0 with
      | some zA, some zB => .int (patternCompare zB zA pInfo escape)
      | _, _ => .null

/-- A string with the escape character `e` before each `%`, each `_` and each character that is read
as `e` is. -/
def escaped (e : Char) (s : List Char) : List Char :=
  s.flatMap fun c => if c = '%' ∨ c = '_' ∨ readAs c = readAs e then [e, c] else [c]

/-- The same over the characters as they are read. -/
def escapedCodes (esc : ℕ) (l : List ℕ) : List ℕ :=
  l.flatMap fun c => if c = '%'.toNat ∨ c = '_'.toNat ∨ c = esc then [esc, c] else [c]

variable {esc c : ℕ} {l : List ℕ} {e : Char}

theorem escapedCodes_cons (esc c : ℕ) (l : List ℕ) : escapedCodes esc (c :: l) =
    if c = '%'.toNat ∨ c = '_'.toNat ∨ c = esc then esc :: c :: escapedCodes esc l
    else c :: escapedCodes esc l := by
  unfold escapedCodes
  rw [List.flatMap_cons]
  split <;> rfl

theorem escapedCodes_paired (esc : ℕ) (l : List ℕ) : Paired esc (escapedCodes esc l) := by
  induction l with
  | nil => trivial
  | cons c l ih =>
    rw [escapedCodes_cons]
    split
    · rw [Paired, if_pos rfl]
      exact ih
    · rename_i hc
      exact (paired_cons fun h => hc (.inr (.inr h))).mpr ih

/-- What an escaped string matches: itself. -/
theorem escapedCodes_matches (hop : Operator likeInfoNorm esc) (h0 : esc ≠ 0) (hl : 0 ∉ l)
    (s : List ℕ) : Matches likeInfoNorm esc (escapedCodes esc l) s ↔
      s.map likeInfoNorm.fold = l.map likeInfoNorm.fold := by
  induction l generalizing s with
  | nil => simp [escapedCodes, matches_nil]
  | cons c l ih =>
    rw [List.mem_cons, not_or] at hl
    have hstep : Matches likeInfoNorm esc (escapedCodes esc (c :: l)) s ↔ ∃ d t, s = d :: t ∧
        likeInfoNorm.fold c = likeInfoNorm.fold d ∧
          Matches likeInfoNorm esc (escapedCodes esc l) t := by
      rw [escapedCodes_cons]
      split
      · rw [matches_escape hop.apart h0]
        constructor
        · rintro ⟨x, q, d, t, hq, hs, hf, hm⟩
          obtain ⟨rfl, rfl⟩ := List.cons.inj hq
          exact ⟨d, t, hs, hf, hm⟩
        · rintro ⟨d, t, hs, hf, hm⟩
          exact ⟨c, _, d, t, rfl, hs, hf, hm⟩
      · rename_i hc
        exact matches_self (fun h => hc (.inl h)) (fun h => hc (.inr (.inl h))) (Ne.symm hl.1)
          fun h => hc (.inr (.inr h))
    rw [hstep]
    cases s with
    | nil => simp
    | cons d s =>
      rw [List.map_cons, List.map_cons, List.cons.injEq, ← ih hl.2]
      constructor
      · rintro ⟨d', t, hs, hf, hm⟩
        obtain ⟨rfl, rfl⟩ := List.cons.inj hs
        exact ⟨hf.symm, hm⟩
      · rintro ⟨hf, hm⟩
        exact ⟨d, s, rfl, hf.symm, hm⟩

theorem textCodes_escaped (he : e ≠ '\x00') (s : List Char) :
    textCodes (escaped e s) = escapedCodes (readAs e) (textCodes s) := by
  induction s with
  | nil => rfl
  | cons c s ih =>
    have hcons : escaped e (c :: s) = (if c = '%' ∨ c = '_' ∨ readAs c = readAs e then [e, c] else [c]) ++
        escaped e s := List.flatMap_cons
    rw [hcons, textCodes_cons c s]
    by_cases hc : c = '\x00'
    · subst hc
      have hread : readAs '\x00' ≠ readAs e := (readAs_nonzero he).symm
      rw [if_neg (by simp [hread]), if_pos rfl, List.singleton_append, textCodes_cons, if_pos rfl]
      rfl
    · have hiff : (readAs c = '%'.toNat ∨ readAs c = '_'.toNat ∨ readAs c = readAs e) ↔
          (c = '%' ∨ c = '_' ∨ readAs c = readAs e) := by
        rw [readAs_ascii (by decide), readAs_ascii (by decide)]
      rw [if_neg hc, escapedCodes_cons, ← ih]
      by_cases hspecial : c = '%' ∨ c = '_' ∨ readAs c = readAs e
      · rw [if_pos hspecial, if_pos (hiff.mpr hspecial), List.cons_append, List.singleton_append,
          textCodes_cons, textCodes_cons, if_neg he, if_neg hc]
      · rw [if_neg hspecial, if_neg (mt hiff.mp hspecial), List.singleton_append, textCodes_cons, if_neg hc]

theorem readEscape_char (he : e ≠ '\x00') :
    readEscape (some (some (String.utf8EncodeChar e))) = .ok (readAs e) := by
  have hflat : [e].flatMap String.utf8EncodeChar = String.utf8EncodeChar e := List.append_nil _
  have hcodes : codesOf (String.utf8EncodeChar e) = [readAs e] := by
    rw [← hflat, codesOf_chars, textCodes_cons, if_neg he]
    rfl
  have hlen : sqlite3Utf8CharLen (String.utf8EncodeChar e) = 1 := by
    rw [sqlite3Utf8CharLen, countChars_codesOf, hcodes]
    rfl
  rw [readEscape, if_neg (not_not.mpr hlen), (codesOf_head hcodes).1]

/-- LIKE with an escaped string as its pattern compares for equality, up to ASCII case. -/
theorem likeFunc_escaped (s t : List Char) {aLimit : ℕ} (he : e ≠ '\x00') (h1 : e ≠ '%') (h2 : e ≠ '_')
    (hlen : ((escaped e s).flatMap String.utf8EncodeChar).length ≤ aLimit) :
    likeFunc aLimit likeInfoNorm (some ((escaped e s).flatMap String.utf8EncodeChar))
        (some (t.flatMap String.utf8EncodeChar)) (some (some (String.utf8EncodeChar e))) = .int true ↔
      (textCodes t).map likeInfoNorm.fold = (textCodes s).map likeInfoNorm.fold := by
  have hop : Operator likeInfoNorm (readAs e) :=
    .like _ (fun h => h1 ((readAs_ascii (by decide)).mp h)) fun h => h2 ((readAs_ascii (by decide)).mp h)
  have hpcodes : codesOf ((escaped e s).flatMap String.utf8EncodeChar) =
      escapedCodes (readAs e) (textCodes s) := (codesOf_chars _).trans (textCodes_escaped he s)
  have hl : 0 ∉ textCodes s := by
    rw [← codesOf_chars]
    exact codesOf_nonzero _
  have hpaired : Paired (readAs e) (codesOf ((escaped e s).flatMap String.utf8EncodeChar)) := by
    rw [hpcodes]
    exact escapedCodes_paired _ _
  rw [likeFunc, Option.getD_some, if_neg (by omega), readEscape_char he]
  show LikeResult.int (patternCompare _ _ _ _) = .int true ↔ _
  rw [LikeResult.int.injEq, patternCompare_codes hop hpaired, hpcodes, codesOf_chars,
    escapedCodes_matches hop (readAs_nonzero he) hl]

/-- `100%` with a backslash, against the same. -/
theorem likeFunc_escaped_percent :
    likeFunc 50000 likeInfoNorm
      (some ((escaped '\\' ['a', '%']).flatMap String.utf8EncodeChar))
      (some (['A', '%'].flatMap String.utf8EncodeChar))
      (some (some (String.utf8EncodeChar '\\'))) = .int true :=
  (likeFunc_escaped ['a', '%'] ['A', '%'] (by decide) (by decide) (by decide) (by decide)).mpr
    (by decide)

/-- With `%` as the escape character the pattern for `%` matches `a`, and with a backslash the pattern
for U+FFFE matches U+FFFF. -/
theorem likeFunc_unequal :
    likeFunc 50000 likeInfoNorm (some ((escaped '%' ['%']).flatMap String.utf8EncodeChar))
        (some (['a'].flatMap String.utf8EncodeChar))
        (some (some (String.utf8EncodeChar '%'))) = .int true ∧
      ['a'].map (likeInfoNorm.fold ∘ Char.toNat) ≠ ['%'].map (likeInfoNorm.fold ∘ Char.toNat) ∧
      likeFunc 50000 likeInfoNorm (some ((escaped '\\' ['\uFFFE']).flatMap String.utf8EncodeChar))
        (some (['\uFFFF'].flatMap String.utf8EncodeChar))
        (some (some (String.utf8EncodeChar '\\'))) = .int true ∧
      ['\uFFFF'].map (likeInfoNorm.fold ∘ Char.toNat) ≠
        ['\uFFFE'].map (likeInfoNorm.fold ∘ Char.toNat) := by
  exact ⟨by decide +kernel, by decide, by decide +kernel, by decide⟩

end Sqlite.Func
