import Sqlite.Complete.Tokens

/-! Quoted texts: the conversions of `sqlite3VXPrintf` that write them (`printf.c`) and `sqlite3Dequote`
(`util.c`). -/
namespace Sqlite.Complete

open Numeric (ch)

/-- The conversions `%q`, `%Q` and `%w`. -/
inductive Conversion
  | etSQLESCAPE
  | etSQLESCAPE2
  | etSQLESCAPE3
  deriving DecidableEq

/-- The quote character. -/
def Conversion.q : Conversion → UInt8
  | etSQLESCAPE3 => ch '"'
  | _ => ch '\''

/-- The loop that counts the `i` bytes of `escarg` to be converted, at most `k` of them unless `k` is
negative, and the `n` quote characters among them. -/
def countLoop (q : UInt8) : List UInt8 → ℤ → ℕ → ℕ → ℕ × ℕ
  | [], _, i, n => (i, n)
  | c :: escarg, k, i, n =>
    if k ≠ 0 ∧ c ≠ 0 then countLoop q escarg (k - 1) (i + 1) (if c = q then n + 1 else n) else (i, n)

/-- The loop that copies the bytes, the quote characters twice. -/
def copyLoop (q : UInt8) : List UInt8 → List UInt8
  | [] => []
  | c :: escarg => if c = q then c :: c :: copyLoop q escarg else c :: copyLoop q escarg

/-- What is substituted for a null pointer. -/
def nullText : Conversion → List UInt8
  | .etSQLESCAPE2 => [ch 'N', ch 'U', ch 'L', ch 'L']
  | _ => [ch '(', ch 'N', ch 'U', ch 'L', ch 'L', ch ')']

/-- The output of a conversion without a field width. A negative precision is none. -/
def sqlEscape (xtype : Conversion) (precision : ℤ) (escarg : Option (List UInt8)) : List UInt8 :=
  let text := escarg.getD (nullText xtype)
  let quote := if escarg.isSome ∧ xtype = .etSQLESCAPE2 then [xtype.q] else []
  quote ++ copyLoop xtype.q (text.take (countLoop xtype.q text precision 0 0).1) ++ quote

/-- The loop of `sqlite3Dequote`. The bytes written are in front of those still to be read. -/
def dequoteLoop (quote : UInt8) : List UInt8 → List UInt8
  | [] => []
  | c :: z =>
    if c = 0 then []
    else if c = quote then
      if byteAt z 0 = quote then quote :: dequoteLoop quote (z.drop 1) else []
    else c :: dequoteLoop quote z
termination_by z => z.length
decreasing_by
  · rw [List.length_drop, List.length_cons]
    omega
  · exact Nat.lt_succ_self _

/-- The text without its quotes; `none` if it has none, where the function returns -1. -/
def sqlite3Dequote (z : List UInt8) : Option (List UInt8) :=
  let quote := byteAt z 0
  if quote = ch '\'' ∨ quote = ch '"' ∨ quote = ch '`' then some (dequoteLoop quote (z.drop 1))
  else if quote = ch '[' then some (dequoteLoop (ch ']') (z.drop 1))
  else none

variable {q : UInt8} {s t : List UInt8} {xtype : Conversion}

/-- The bytes that a precision leaves of a text. -/
def kept (precision : Option ℕ) (s : List UInt8) : List UInt8 := precision.elim s s.take

/-- The precision of a conversion as the code has it. -/
def precisionArg (precision : Option ℕ) : ℤ := precision.elim (-1) fun p => p

theorem countLoop_fst (hs : 0 ∉ s) (k : ℤ) (i n : ℕ) :
    (countLoop q s k i n).1 = i + if k < 0 then s.length else min k.toNat s.length := by
  induction s generalizing k i n with
  | nil =>
    rw [countLoop, List.length_nil]
    split_ifs <;> omega
  | cons c s ih =>
    obtain ⟨hc, hs⟩ := not_or.mp (List.mem_cons.not.mp hs)
    have hc : c ≠ 0 := fun h => hc h.symm
    rw [countLoop, List.length_cons]
    by_cases hk : k = 0
    · rw [if_neg fun h => h.1 hk, hk, if_neg (lt_irrefl 0)]
      omega
    · rw [if_pos ⟨hk, hc⟩, ih hs]
      split_ifs <;> omega

/-- The bytes that are converted. -/
theorem take_countLoop (hs : 0 ∉ s) (precision : Option ℕ) :
    s.take (countLoop q s (precisionArg precision) 0 0).1 = kept precision s := by
  rw [countLoop_fst hs, Nat.zero_add]
  cases precision with
  | none => exact List.take_length
  | some p =>
    have hp : ¬precisionArg (some p) < 0 := not_lt.mpr (Int.natCast_nonneg p)
    have htake : s.take (min p s.length) = s.take p := by
      rw [← List.take_take, List.take_length]
    rw [if_neg hp]
    exact htake

theorem not_mem_kept (hs : 0 ∉ s) (precision : Option ℕ) : 0 ∉ kept precision s := by
  cases precision with
  | none => exact hs
  | some p => exact fun h => hs (List.mem_of_mem_take h)

/-- The output of a conversion of a text, between its quotes. -/
theorem sqlEscape_some (hs : 0 ∉ s) (precision : Option ℕ) :
    sqlEscape xtype (precisionArg precision) (some s) =
      (if xtype = .etSQLESCAPE2 then [xtype.q] else []) ++ copyLoop xtype.q (kept precision s) ++
        if xtype = .etSQLESCAPE2 then [xtype.q] else [] := by
  simp only [sqlEscape, Option.isSome_some, Option.getD_some, true_and, take_countLoop hs]

/-- The tokenizer passes over the copy to the quote behind it. -/
theorem quoteLoop_copyLoop (hs : 0 ∉ s) (hq : q ≠ 0) (ht : byteAt t 0 ≠ q) (i : ℕ) :
    quoteLoop q (copyLoop q s ++ q :: t) i = (i + (copyLoop q s).length, q) := by
  induction s generalizing i with
  | nil =>
    rw [copyLoop, List.nil_append, quoteLoop, if_neg hq, if_pos rfl, if_neg ht, List.length_nil,
      Nat.add_zero]
  | cons c s ih =>
    obtain ⟨hc, hs⟩ := not_or.mp (List.mem_cons.not.mp hs)
    rw [copyLoop]
    by_cases hcq : c = q
    · have hnext : byteAt (q :: (copyLoop q s ++ q :: t)) 0 = q := rfl
      rw [if_pos hcq, hcq, List.cons_append, List.cons_append, quoteLoop, if_neg hq, if_pos rfl,
        if_pos hnext, List.drop_one, List.tail_cons, ih hs, List.length_cons, List.length_cons]
      congr 1
      omega
    · rw [if_neg hcq, List.cons_append, quoteLoop, if_neg fun h => hc h.symm, if_neg hcq, ih hs,
        List.length_cons]
      congr 1
      omega

theorem dequoteLoop_copyLoop (hs : 0 ∉ s) (hq : q ≠ 0) : dequoteLoop q (copyLoop q s ++ [q]) = s := by
  induction s with
  | nil =>
    have hend : byteAt [] 0 ≠ q := fun h => hq h.symm
    rw [copyLoop, List.nil_append, dequoteLoop, if_neg hq, if_pos rfl, if_neg hend]
  | cons c s ih =>
    obtain ⟨hc, hs⟩ := not_or.mp (List.mem_cons.not.mp hs)
    rw [copyLoop]
    by_cases hcq : c = q
    · have hnext : byteAt (q :: (copyLoop q s ++ [q])) 0 = q := rfl
      rw [if_pos hcq, hcq, List.cons_append, List.cons_append, dequoteLoop, if_neg hq, if_pos rfl,
        if_pos hnext, List.drop_one, List.tail_cons, ih hs]
    · rw [if_neg hcq, List.cons_append, dequoteLoop, if_neg fun h => hc h.symm, if_neg hcq, ih hs]

/-- The text is one token in front of `t`, and is `s` without its quotes. -/
def ReadsBack (keywordCode : List UInt8 → TK) (tokenType : TK) (quoted t s : List UInt8) : Prop :=
  sqlite3GetToken keywordCode (quoted ++ t) = (quoted.length, tokenType) ∧
    sqlite3Dequote ((quoted ++ t).take quoted.length) = some s

variable {keywordCode : List UInt8 → TK}

theorem getToken_quote (hq : q = ch '\'' ∨ q = ch '"') (z : List UInt8) :
    sqlite3GetToken keywordCode (q :: z) =
      if (quoteLoop q z 1).2 = ch '\'' then ((quoteLoop q z 1).1 + 1, .TK_STRING)
      else if (quoteLoop q z 1).2 ≠ 0 then ((quoteLoop q z 1).1 + 1, .TK_ID)
      else ((quoteLoop q z 1).1, .TK_ILLEGAL) := by
  rcases hq with rfl | rfl <;> rfl

theorem quoted_readsBack (hs : 0 ∉ s) (hq : q = ch '\'' ∨ q = ch '"') (ht : byteAt t 0 ≠ q) :
    ReadsBack keywordCode (if q = ch '\'' then .TK_STRING else .TK_ID) ([q] ++ copyLoop q s ++ [q]) t s := by
  have hq0 : q ≠ 0 := by rcases hq with rfl | rfl <;> decide
  have htext : [q] ++ copyLoop q s ++ [q] ++ t = q :: (copyLoop q s ++ q :: t) := by simp
  have hlen : ([q] ++ copyLoop q s ++ [q]).length = 1 + (copyLoop q s).length + 1 := by
    simp [Nat.add_comm]
  constructor
  · have hloop := quoteLoop_copyLoop hs hq0 ht 1
    rw [htext, hlen, getToken_quote hq, hloop]
    split_ifs <;> rfl
  · have hbyte : byteAt ([q] ++ copyLoop q s ++ [q]) 0 = q := rfl
    have hor : q = ch '\'' ∨ q = ch '"' ∨ q = ch '`' := hq.imp id .inl
    rw [List.take_left, sqlite3Dequote, hbyte, if_pos hor]
    exact congrArg some (dequoteLoop_copyLoop hs hq0)

theorem copyLoop_inj {s' : List UInt8} (hs : 0 ∉ s) (hs' : 0 ∉ s') (hq : q ≠ 0)
    (h : copyLoop q s = copyLoop q s') : s = s' := by
  rw [← dequoteLoop_copyLoop hs hq, h, dequoteLoop_copyLoop hs' hq]

/-- What the conversions write for a text is one token in front of every text that does not go on with
the quote, and that token gives the text back, up to the precision. -/
theorem sqlEscape_readsBack (keywordCode : List UInt8 → TK) (s t : List UInt8) (hs : 0 ∉ s)
    (precision : Option ℕ) :
    (byteAt t 0 ≠ ch '\'' →
      ReadsBack keywordCode .TK_STRING (sqlEscape .etSQLESCAPE2 (precisionArg precision) (some s)) t
        (kept precision s) ∧
      ReadsBack keywordCode .TK_STRING
        ([ch '\''] ++ sqlEscape .etSQLESCAPE (precisionArg precision) (some s) ++ [ch '\'']) t
        (kept precision s)) ∧
    (byteAt t 0 ≠ ch '"' →
      ReadsBack keywordCode .TK_ID
        ([ch '"'] ++ sqlEscape .etSQLESCAPE3 (precisionArg precision) (some s) ++ [ch '"']) t
        (kept precision s)) ∧
    ∀ xtype s', 0 ∉ s' → sqlEscape xtype (precisionArg precision) (some s) =
      sqlEscape xtype (precisionArg precision) (some s') → kept precision s = kept precision s' := by
  have hkept := not_mem_kept hs precision
  refine ⟨fun ht => ?_, fun ht => ?_, fun xtype s' hs' h => ?_⟩
  · have hquoted : ReadsBack keywordCode .TK_STRING _ t (kept precision s) :=
      quoted_readsBack hkept (.inl rfl) ht
    rw [sqlEscape_some hs, sqlEscape_some hs, if_pos rfl, if_neg (by decide), List.nil_append,
      List.append_nil]
    exact ⟨hquoted, hquoted⟩
  · rw [sqlEscape_some hs, if_neg (by decide), List.nil_append, List.append_nil]
    exact quoted_readsBack hkept (.inr rfl) ht
  · have hq : xtype.q ≠ 0 := by cases xtype <;> decide
    rw [sqlEscape_some hs, sqlEscape_some hs'] at h
    exact copyLoop_inj hkept (not_mem_kept hs' precision) hq
      (List.append_cancel_left (List.append_cancel_right h))

theorem sqlEscape_readsBack_quote : ReadsBack (fun _ => .TK_ID) .TK_STRING
    (sqlEscape .etSQLESCAPE2 1 (some [ch '\'', ch 'x'])) [ch ';'] [ch '\''] :=
  ((sqlEscape_readsBack (fun _ => .TK_ID) [ch '\'', ch 'x'] [ch ';'] (by decide) (some 1)).1 (by decide)).1

end Sqlite.Complete
