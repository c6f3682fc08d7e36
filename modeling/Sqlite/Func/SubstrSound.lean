import Sqlite.Utf.Codes

/-! What substr cuts out. -/
namespace Sqlite.Func

open Foundation Utf

section

/-! The function substr (`func.c`). -/

/-- An argument or a result. A number is the text that `sqlite3_value_text` makes of it. -/
inductive Value where
  | null
  | text (z : List UInt8)
  | blob (z : List UInt8)
  deriving DecidableEq

/-- `while( *z && p )`. -/
def skipChars : List UInt8 → ℤ → List UInt8
  | [], _ => []
  | b :: z, p =>
    if b ≠ 0 ∧ p ≠ 0 then skipChars (SQLITE_SKIP_UTF8 (b :: z)) (p - 1) else b :: z
termination_by z => z.length
decreasing_by exact Nat.lt_succ_of_le (SQLITE_SKIP_UTF8_length b z)

/-- The place and the number of the elements, before the text or the blob is looked at. -/
def window (len : ℕ) (p1 p2 : ℤ) (negP2 : Bool) : ℤ × ℤ :=
  let (p1, p2) :=
    if p1 < 0 then
      let p1 := p1 + len
      if p1 < 0 then (0, if p2 + p1 < 0 then 0 else p2 + p1) else (p1, p2)
    else if p1 > 0 then (p1 - 1, p2)
    else if p2 > 0 then (p1, p2 - 1)
    else (p1, p2)
  if negP2 then
    let p1 := p1 - p2
    if p1 < 0 then (0, p2 + p1) else (p1, p2)
  else (p1, p2)

/-- The third argument, or its absence: the number of elements and whether they stand before the
place. -/
def readP2 (aLimit : ℕ) : Option ℤ → ℤ × Bool
  | none => (aLimit, false)
  | some p2 => if p2 < 0 then (-p2, true) else (p2, false)

/-- The function without a NULL among the numbers; `aLimit` is the limit on lengths. -/
def substr (aLimit : ℕ) (argv0 : Value) (p1 : ℤ) (argv2 : Option ℤ) : Value :=
  let (p2, negP2) := readP2 aLimit argv2
  match argv0 with
  | .null => .null
  | .blob z =>
    if z = [] then .null
    else
      let len := z.length
      let (p1, p2) := window len p1 p2 negP2
      let p2 := if p1 + p2 > len then (if len - p1 < 0 then 0 else len - p1) else p2
      .blob ((z.drop p1.toNat).take p2.toNat)
  | .text z =>
    let len := if p1 < 0 then countChars z else 0
    let (p1, p2) := window len p1 p2 negP2
    let z := skipChars z p1
    let z2 := skipChars z p2
    .text (z.take (z.length - z2.length))

/-- `none` is NULL, and for `argv[2]` on the outside the call with two arguments. -/
def substrFunc (aLimit : ℕ) (argv0 : Value) (argv1 : Option ℤ) (argv2 : Option (Option ℤ)) : Value :=
  match argv1, argv2 with
  | none, _ => .null
  | some _, some none => .null
  | some p1, none => substr aLimit argv0 p1 none
  | some p1, some (some p2) => substr aLimit argv0 p1 (some p2)

/-! What it is for. -/

/-- The characters up to the first NUL, or the bytes. -/
inductive Value.HasElements : Value → List (List UInt8) → Prop
  | text (cs : List Char) : Value.HasElements (.text (cs.flatMap String.utf8EncodeChar))
      ((cs.takeWhile (· ≠ '\x00')).map String.utf8EncodeChar)
  | blob (z : List UInt8) : Value.HasElements (.blob z) (z.map fun b => [b])

/-- The value of the same kind with the elements `es`. What is cut from an empty blob is NULL. -/
def Value.withElements (es : List (List UInt8)) : Value → Value
  | .null => .null
  | .text _ => .text es.flatten
  | .blob z => if z = [] then .null else .blob es.flatten

/-- The size in bytes. -/
def Value.bytes : Value → ℕ
  | .null => 0
  | .text z => z.length
  | .blob z => z.length

/-- The place of the first element, counted from 0. -/
def startOf (len : ℕ) (p1 : ℤ) : ℤ := if 0 < p1 then p1 - 1 else if p1 < 0 then len + p1 else -1

/-- The places that are asked for. -/
def Wanted (s : ℤ) : Option ℤ → ℤ → Prop
  | none, i => s ≤ i
  | some p2, i => if 0 ≤ p2 then s ≤ i ∧ i < s + p2 else s + p2 ≤ i ∧ i < s

instance (s : ℤ) (p2 : Option ℤ) : DecidablePred (Wanted s p2) := fun i => by
  cases p2 <;> unfold Wanted <;> infer_instance

/-- The elements whose places are in `P`. -/
def select {α : Type} (P : ℤ → Prop) [DecidablePred P] (l : List α) : List α :=
  (l.zipIdx.filter fun x => P x.2).map Prod.fst

variable {α : Type} {l : List α}

theorem select_cons (P : ℤ → Prop) [DecidablePred P] (x : α) (l : List α) :
    select P (x :: l) = if P 0 then x :: select (fun i => P (i + 1)) l
      else select (fun i => P (i + 1)) l := by
  have htail : select (fun i => P (i + 1)) l =
      (((l.zipIdx 1).filter fun x => P x.2).map Prod.fst) := by
    rw [List.zipIdx_succ, List.filter_map, List.map_map]
    rfl
  rw [htail]
  unfold select
  rw [List.zipIdx_cons, List.filter_cons]
  simp only [Nat.cast_zero, decide_eq_true_eq, Nat.zero_add]
  split <;> rfl

theorem select_congr {P Q : ℤ → Prop} [DecidablePred P] [DecidablePred Q]
    (h : ∀ i < l.length, (P i ↔ Q i)) : select P l = select Q l := by
  unfold select
  congr 1
  apply List.filter_congr
  intro x hx
  have hlt : x.2 < l.length := by simpa using List.snd_lt_of_mem_zipIdx hx
  exact decide_eq_decide.mpr (h x.2 hlt)

/-- The places of an interval. -/
theorem select_interval (a b : ℤ) (l : List α) :
    select (fun i => a ≤ i ∧ i < b) l = (l.drop a.toNat).take (b.toNat - a.toNat) := by
  induction l generalizing a b with
  | nil => simp [select]
  | cons x l ih =>
    have htail : select (fun i => a ≤ i + 1 ∧ i + 1 < b) l =
        (l.drop (a - 1).toNat).take ((b - 1).toNat - (a - 1).toNat) := by
      rw [← ih]
      apply select_congr
      intro i hi
      constructor <;> rintro ⟨h, h'⟩ <;> constructor <;> omega
    rw [select_cons, htail]
    by_cases ha : a ≤ 0
    · obtain ⟨h0, h1⟩ : a.toNat = 0 ∧ (a - 1).toNat = 0 := by omega
      rw [h0, h1, List.drop_zero, List.drop_zero]
      by_cases hb : 0 < b
      · obtain ⟨k, hk, hk'⟩ : ∃ k, b.toNat - 0 = k + 1 ∧ (b - 1).toNat - 0 = k :=
          ⟨(b - 1).toNat, by omega, by omega⟩
        rw [if_pos ⟨ha, hb⟩, hk, hk', List.take_succ_cons]
      · obtain ⟨h2, h3⟩ : b.toNat - 0 = 0 ∧ (b - 1).toNat - 0 = 0 := by omega
        rw [if_neg (by omega), h2, h3, List.take_zero, List.take_zero]
    · obtain ⟨k, hk, hk'⟩ : ∃ k, a.toNat = k + 1 ∧ (a - 1).toNat = k :=
        ⟨(a - 1).toNat, by omega, by omega⟩
      have hsub : (b - 1).toNat - k = b.toNat - (k + 1) := by omega
      rw [if_neg (by omega), hk, hk', List.drop_succ_cons, hsub]

theorem select_from (a : ℤ) (l : List α) : select (fun i => a ≤ i) l = l.drop a.toNat := by
  have hsame : select (fun i => a ≤ i) l = select (fun i => a ≤ i ∧ i < l.length) l := by
    apply select_congr
    intro i hi
    have hlt : (i : ℤ) < l.length := by exact_mod_cast hi
    simp [hlt]
  rw [hsame, select_interval, Int.toNat_natCast, ← List.length_drop, List.take_length]

end

variable {z : List UInt8} {l : List (List UInt8)} {q : List Char} {p Y : ℤ} {Z : Option ℤ}
  {X : Value} {len aLimit : ℕ}

/-! Characters. -/

theorem skipChars_text (hq : ∀ c ∈ q, c ≠ '\x00') (hz : AtEnd z) (hp : 0 ≤ p) :
    skipChars (q.flatMap String.utf8EncodeChar ++ z) p =
      (q.drop p.toNat).flatMap String.utf8EncodeChar ++ z := by
  induction q generalizing p with
  | nil =>
    rw [List.drop_nil, List.flatMap_nil, List.nil_append]
    cases z with
    | nil => rw [skipChars]
    | cons b z => rw [skipChars, if_neg fun h => h.1 (hz b rfl)]
  | cons c q ih =>
    have hskip := skip_utf8 c (begins_text q hz.begins)
    obtain ⟨b, tl, heq, hb⟩ := utf8_nonzero (hq c List.mem_cons_self)
    by_cases h0 : p = 0
    · subst h0
      rw [List.flatMap_cons, heq, List.cons_append, List.cons_append, skipChars,
        if_neg fun h => h.2 rfl]
      simp [heq]
    · obtain ⟨n, hn, hn'⟩ : ∃ n, p.toNat = n + 1 ∧ (p - 1).toNat = n :=
        ⟨(p - 1).toNat, by omega, by omega⟩
      have ih' := ih (fun c hc => hq c (List.mem_cons_of_mem _ hc)) (p := p - 1) (by omega)
      rw [List.flatMap_cons, List.append_assoc]
      rw [heq, List.cons_append] at hskip ⊢
      rw [skipChars, if_pos ⟨hb, h0⟩, hskip, ih', hn, hn', List.drop_succ_cons]

/-! The places. -/

/-- Where the elements begin and where they end; without a third argument the limit on lengths
stands for it. -/
def bounds (aLimit : ℕ) (s : ℤ) : Option ℤ → ℤ × ℤ
  | none => (s, s + aLimit)
  | some p2 => if 0 ≤ p2 then (s, s + p2) else (s + p2, s)

theorem window_after (h : 0 ≤ p) : window len Y p false =
    (((startOf len Y).toNat : ℤ), (((startOf len Y + p).toNat - (startOf len Y).toNat : ℕ) : ℤ)) := by
  simp only [window, startOf, Bool.false_eq_true, if_false]
  split_ifs <;> rw [Prod.mk.injEq] <;> constructor <;> omega

theorem window_before (h : p < 0) : window len Y (-p) true =
    (((startOf len Y + p).toNat : ℤ), (((startOf len Y).toNat - (startOf len Y + p).toNat : ℕ) : ℤ)) := by
  simp only [window, startOf, if_true]
  split_ifs <;> rw [Prod.mk.injEq] <;> constructor <;> omega

theorem window_bounds (len aLimit : ℕ) (Y : ℤ) (Z : Option ℤ) :
    window len Y (readP2 aLimit Z).1 (readP2 aLimit Z).2 =
      (((bounds aLimit (startOf len Y) Z).1.toNat : ℤ),
        (((bounds aLimit (startOf len Y) Z).2.toNat -
          (bounds aLimit (startOf len Y) Z).1.toNat : ℕ) : ℤ)) := by
  cases Z with
  | none => exact window_after (Int.natCast_nonneg _)
  | some p2 =>
    by_cases h : p2 < 0
    · rw [readP2, if_pos h, bounds, if_neg (by omega)]
      exact window_before h
    · rw [readP2, if_neg h, bounds, if_pos (by omega)]
      exact window_after (by omega)

/-- The length is looked at when the place is counted from the end. -/
theorem window_length (h : 0 ≤ Y) (n : ℕ) (b : Bool) : window len Y p b = window n Y p b := by
  have hneg : ¬ Y < 0 := by omega
  simp only [window, if_neg hneg]

theorem flatten_singletons (z : List UInt8) : (z.map fun b => [b]).flatten = z := by
  induction z with
  | nil => rfl
  | cons b z ih => exact congrArg (b :: ·) ih

/-- What the function cuts out, for any arguments. -/
theorem substr_eq (h : X.HasElements l) : substr aLimit X Y Z =
    X.withElements (select (fun i => (bounds aLimit (startOf l.length Y) Z).1 ≤ i ∧
      i < (bounds aLimit (startOf l.length Y) Z).2) l) := by
  rw [select_interval]
  have hw := window_bounds l.length aLimit Y Z
  generalize bounds aLimit (startOf l.length Y) Z = ab at hw ⊢
  obtain ⟨a, b⟩ := ab
  cases h with
  | text cs =>
    set q := cs.takeWhile (· ≠ '\x00') with hq
    have hnul : ∀ c ∈ q, c ≠ '\x00' := fun c hc => by simpa using List.mem_takeWhile_imp hc
    obtain ⟨z, hz, hcs⟩ := text_parts cs
    rw [← hq] at hcs
    have hlen : window (if Y < 0 then countChars (cs.flatMap String.utf8EncodeChar) else 0) Y
        (readP2 aLimit Z).1 (readP2 aLimit Z).2 =
          ((a.toNat : ℤ), ((b.toNat - a.toNat : ℕ) : ℤ)) := by
      rw [← hw, List.length_map]
      split
      · rw [countChars_codesOf, codesOf_chars, textCodes, List.length_map]
      · exact window_length (by omega) _ _
    have hdrop (n : ℕ) : ∀ c ∈ q.drop n, c ≠ '\x00' := fun c hc => hnul c (List.mem_of_mem_drop hc)
    unfold substr Value.withElements
    dsimp only
    rw [hlen]
    dsimp only
    rw [hcs, skipChars_text hnul hz (Int.natCast_nonneg _),
      skipChars_text (hdrop _) hz (Int.natCast_nonneg _), Int.toNat_natCast, Int.toNat_natCast]
    have hflat : ((q.map String.utf8EncodeChar).drop a.toNat).take (b.toNat - a.toNat) =
        ((q.drop a.toNat).take (b.toNat - a.toNat)).map String.utf8EncodeChar := by
      rw [List.map_take, List.map_drop]
    rw [hflat, ← List.flatMap_def]
    generalize q.drop a.toNat = r
    generalize b.toNat - a.toNat = n
    have hr : r.flatMap String.utf8EncodeChar = (r.take n).flatMap String.utf8EncodeChar ++
        (r.drop n).flatMap String.utf8EncodeChar := by
      rw [← List.flatMap_append, List.take_append_drop]
    rw [hr, List.append_assoc, List.length_append, Nat.add_sub_cancel, List.take_left]
  | blob z =>
    rw [List.length_map] at hw
    unfold substr Value.withElements
    dsimp only
    rw [hw]
    dsimp only
    split
    · rfl
    rw [← List.map_drop, ← List.map_take, flatten_singletons, Int.toNat_natCast]
    congr 1
    split_ifs with h1 h2
    · have hnone : z.length ≤ a.toNat := by omega
      rw [List.drop_eq_nil_of_le hnone, List.take_nil, List.take_nil]
    · have hall : (z.drop a.toNat).length ≤ b.toNat - a.toNat := by
        rw [List.length_drop]
        omega
      have hrest : (z.drop a.toNat).length ≤ ((z.length : ℤ) - a.toNat).toNat := by
        rw [List.length_drop]
        omega
      rw [List.take_of_length_le hall, List.take_of_length_le hrest]
    · rw [Int.toNat_natCast]

theorem Value.HasElements.ne_nil (h : X.HasElements l) : ∀ x ∈ l, x ≠ [] := by
  intro x hx
  cases h with
  | text cs =>
    obtain ⟨c, -, rfl⟩ := List.mem_map.mp hx
    obtain ⟨b, tl, heq, -⟩ := WRITE_UTF8_parts c.toNat
    rw [← WRITE_UTF8_char, heq]
    exact List.cons_ne_nil b tl
  | blob z =>
    obtain ⟨b, -, rfl⟩ := List.mem_map.mp hx
    exact List.cons_ne_nil b []

theorem length_le_flatten (h : ∀ x ∈ l, x ≠ []) : l.length ≤ l.flatten.length := by
  induction l with
  | nil => simp
  | cons x l ih =>
    have hx := List.length_pos_of_ne_nil (h x List.mem_cons_self)
    have hl := ih fun y hy => h y (List.mem_cons_of_mem _ hy)
    rw [List.length_cons, List.flatten_cons, List.length_append]
    omega

theorem Value.HasElements.length_le (h : X.HasElements l) : l.length ≤ X.bytes := by
  have hflat := length_le_flatten h.ne_nil
  cases h with
  | text cs =>
    have hcs : (cs.takeWhile (· ≠ '\x00') ++ cs.dropWhile (· ≠ '\x00')).flatMap
        String.utf8EncodeChar = cs.flatMap String.utf8EncodeChar := by
      rw [List.takeWhile_append_dropWhile]
    rw [← List.flatMap_def] at hflat
    rw [Value.bytes, ← hcs, List.flatMap_append, List.length_append]
    omega
  | blob z => exact (List.length_map _).le

theorem flatten_take_eq (h : ∀ x ∈ l, x ≠ []) (n : ℕ) :
    (l.take n).flatten = l.flatten ↔ l.length ≤ n := by
  constructor
  · intro heq
    by_contra hlt
    have hsplit : l.flatten = (l.take n).flatten ++ (l.drop n).flatten := by
      rw [← List.flatten_append, List.take_append_drop]
    rw [heq, List.self_eq_append_right, List.flatten_eq_nil_iff] at hsplit
    have hmem : l.get ⟨n, by omega⟩ ∈ l.drop n := by
      rw [List.drop_eq_getElem_cons (by omega)]
      exact List.mem_cons_self
    exact h _ (List.get_mem l _) (hsplit _ hmem)
  · intro hle
    rw [List.take_of_length_le hle]

theorem withElements_take (h : X.HasElements l) {r : List (List UInt8)} (hr : ∀ x ∈ r, x ≠ [])
    (hnil : l = [] → r = []) (n : ℕ) :
    X.withElements (r.take n) = X.withElements r ↔ r.length ≤ n := by
  rw [← flatten_take_eq hr]
  cases h with
  | text cs => exact Value.text.injEq _ _ ▸ Iff.rfl
  | blob z =>
    rw [Value.withElements, Value.withElements]
    split
    · rename_i hz
      subst hz
      simp [hnil rfl]
    · exact Value.blob.injEq _ _ ▸ Iff.rfl

/-- With three arguments the function gives exactly what is asked for. With two it does so if and
only if the limit on lengths, which stands for the third, reaches to the end. -/
theorem substrFunc_iff (h : X.HasElements l) (hlimit : X.bytes ≤ aLimit) :
    substrFunc aLimit X (some Y) (Z.map some) =
        X.withElements (select (Wanted (startOf l.length Y) Z) l) ↔
      Z.isSome ∨ l.length = 0 ∨ (-aLimit ≤ Y ∧ (Y = 0 → l.length < aLimit)) := by
  cases Z with
  | some p2 =>
    have hwanted : select (fun i => (bounds aLimit (startOf l.length Y) (some p2)).1 ≤ i ∧
        i < (bounds aLimit (startOf l.length Y) (some p2)).2) l =
          select (Wanted (startOf l.length Y) (some p2)) l := by
      apply select_congr
      intro i hi
      rw [bounds, Wanted]
      split <;> rfl
    show substr aLimit X Y (some p2) = _ ↔ _
    rw [substr_eq h, hwanted]
    simp
  | none =>
    have hle := h.length_le
    show substr aLimit X Y none = X.withElements (select (fun i => startOf l.length Y ≤ i) l) ↔ _
    rw [substr_eq h, select_interval, select_from]
    dsimp only [bounds]
    rw [withElements_take h (fun x hx => h.ne_nil x (List.mem_of_mem_drop hx))
      (by rintro rfl; exact List.drop_nil), List.length_drop]
    simp only [startOf, Option.isSome_none, Bool.false_eq_true, false_or]
    split_ifs <;> omega

/-- The first two characters of a text, the third of which takes three bytes. -/
theorem substrFunc_iff_euro : ∃ l, Value.HasElements (.text [0x61, 0x62, 0xe2, 0x82, 0xac]) l ∧
    substrFunc 1000000000 (.text [0x61, 0x62, 0xe2, 0x82, 0xac]) (some (-1)) (some (some (-2))) =
      .text [0x61, 0x62] := by
  have h : Value.HasElements (.text [0x61, 0x62, 0xe2, 0x82, 0xac]) [[0x61], [0x62], [0xe2, 0x82, 0xac]] :=
    .text ['a', 'b', '€']
  refine ⟨_, h, ((substrFunc_iff (Z := some (-2)) h (by decide)).mpr (.inl rfl)).trans ?_⟩
  decide

/-- A place before the beginning, by more than the limit on lengths: nothing is left of the text. -/
theorem substrFunc_empty : ∃ l, Value.HasElements (.text [0x61, 0x62, 0x63]) l ∧
    substrFunc 1000000000 (.text [0x61, 0x62, 0x63]) (some (-2147483648)) none = .text [] ∧
    Value.withElements (select (Wanted (startOf l.length (-2147483648)) none) l)
      (.text [0x61, 0x62, 0x63]) = .text [0x61, 0x62, 0x63] := by
  refine ⟨_, .text ['a', 'b', 'c'], by decide +kernel, by decide⟩

end Sqlite.Func
