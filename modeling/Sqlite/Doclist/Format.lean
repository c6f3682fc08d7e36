import Mathlib.Data.List.Pairwise
import Sqlite.Doclist.Varint

/-! Position lists and doclists of the full-text index (`fts3.c`), and the loops that step over them.
A pointer is the list of the bytes from there on; a read past the end of a buffer is `none`. -/
namespace Sqlite.Doclist

open Fts (sqlite3Fts3PutVarint sqlite3Fts3GetVarint)

def POS_COLUMN : ℕ := 1
def POS_END : ℕ := 0
def POSITION_LIST_END : ℤ := 0x7fffffff

/-- The positions of a term in a row, for each column that has some. -/
abbrev Poslist := List (ℕ × List ℕ)

structure IsPoslist (l : Poslist) : Prop where
  columns : l.Pairwise (·.1 < ·.1)
  positions : ∀ c ∈ l, c.2.Pairwise (· < ·)
  nonempty : ∀ c ∈ l, c.2 ≠ []
  column_lt : ∀ c ∈ l, c.1 < 2 ^ 31 - 1
  position_lt : ∀ c ∈ l, ∀ q ∈ c.2, q < 2 ^ 31

instance (l : Poslist) : Decidable (IsPoslist l) :=
  decidable_of_iff (l.Pairwise (·.1 < ·.1) ∧ (∀ c ∈ l, c.2.Pairwise (· < ·)) ∧ (∀ c ∈ l, c.2 ≠ []) ∧
      (∀ c ∈ l, c.1 < 2 ^ 31 - 1) ∧ ∀ c ∈ l, ∀ q ∈ c.2, q < 2 ^ 31)
    ⟨fun h => ⟨h.1, h.2.1, h.2.2.1, h.2.2.2.1, h.2.2.2.2⟩,
      fun h => ⟨h.columns, h.positions, h.nonempty, h.column_lt, h.position_lt⟩⟩

/-- Each position is stored as its distance from the one before, plus 2. -/
def posBytes : ℕ → List ℕ → List ℕ
  | _, [] => []
  | prev, q :: l => sqlite3Fts3PutVarint (q - prev + 2) ++ posBytes q l

def headerBytes (c : ℕ) : List ℕ := if c = 0 then [] else POS_COLUMN :: sqlite3Fts3PutVarint c

def columnBytes (c : ℕ × List ℕ) : List ℕ := headerBytes c.1 ++ posBytes 0 c.2

def columnsBytes (l : Poslist) : List ℕ := l.flatMap columnBytes

def poslistBytes (l : Poslist) : List ℕ := columnsBytes l ++ [POS_END]

/-- The rows that have a term, in the order of their docids. -/
abbrev Entries := List (ℤ × Poslist)

/-- Docid `d` is stored ahead of `e`. -/
def Before (desc : Bool) (d e : ℤ) : Prop := if desc then e < d else d < e

instance (desc : Bool) (d e : ℤ) : Decidable (Before desc d e) :=
  inferInstanceAs (Decidable (if desc then e < d else d < e))

structure IsDoclist (desc : Bool) (l : Entries) : Prop where
  order : l.Pairwise (Before desc ·.1 ·.1)
  fits : ∀ e ∈ l, -2 ^ 63 ≤ e.1 ∧ e.1 < 2 ^ 63
  poslists : ∀ e ∈ l, IsPoslist e.2

instance (desc : Bool) (l : Entries) : Decidable (IsDoclist desc l) :=
  decidable_of_iff (l.Pairwise (Before desc ·.1 ·.1) ∧ (∀ e ∈ l, -2 ^ 63 ≤ e.1 ∧ e.1 < 2 ^ 63) ∧
      ∀ e ∈ l, IsPoslist e.2)
    ⟨fun h => ⟨h.1, h.2.1, h.2.2⟩, fun h => ⟨h.order, h.fits, h.poslists⟩⟩

/-- What is stored for docid `d`: the first docid itself, then the distance from the one before. -/
def delta (desc : Bool) : Option ℤ → ℤ → ℕ
  | none, d => u64 d
  | some prev, d => u64 (if desc then prev - d else d - prev)

/-- The bytes of some rows, after the row with docid `prev`. -/
def entriesBytes (desc : Bool) : Option ℤ → Entries → List ℕ
  | _, [] => []
  | prev, e :: l =>
    sqlite3Fts3PutVarint (delta desc prev e.1) ++ poslistBytes e.2 ++ entriesBytes desc (some e.1) l

def doclistBytes (desc : Bool) (l : Entries) : List ℕ := entriesBytes desc none l

/-- The loop of `fts3PoslistCopy` and of `fts3ColumnlistCopy`: the bytes it passes, and the rest. -/
def scanLoop (mask c : ℕ) : List ℕ → Option (List ℕ × List ℕ)
  | [] => none
  | b :: q =>
    if mask &&& (b ||| c) = 0 then some ([], b :: q)
    else (scanLoop mask (b &&& 0x80) q).map fun r => (b :: r.1, r.2)

/-- The bytes of the position list at `p`, and those after it. -/
def fts3PoslistCopy (p : List ℕ) : Option (List ℕ × List ℕ) := do
  let (n, pEnd) ← scanLoop 0xFF 0 p
  return (n ++ pEnd.take 1, pEnd.drop 1)

def fts3ColumnlistCopy (p : List ℕ) : Option (List ℕ × List ℕ) := scanLoop 0xFE 0 p

/-! What the loops do on bytes that are well formed. -/

theorem high_bits : ∀ b < 256, 128 ≤ b → b &&& 0x80 = 0x80 ∧ 0xFF &&& (b ||| 0) ≠ 0 ∧
    0xFE &&& (b ||| 0) ≠ 0 ∧ 0xFF &&& (b ||| 0x80) ≠ 0 ∧ 0xFE &&& (b ||| 0x80) ≠ 0 := by
  decide +kernel

theorem low_bits : ∀ b < 128, b &&& 0x80 = 0 ∧ 0xFF &&& (b ||| 0x80) ≠ 0 ∧
    0xFE &&& (b ||| 0x80) ≠ 0 ∧ (b ≠ 0 → 0xFF &&& (b ||| 0) ≠ 0) ∧
    (2 ≤ b → 0xFE &&& (b ||| 0) ≠ 0) := by
  decide +kernel

/-- The masks of the two loops, with the least number that each of them steps over. -/
inductive Mask : ℕ → ℕ → Prop
  | poslist : Mask 0xFF 1
  | columnlist : Mask 0xFE 2

theorem Mask.high {mask least b c : ℕ} (h : Mask mask least) (hb : 128 ≤ b) (hb' : b < 256)
    (hc : c = 0 ∨ c = 0x80) : mask &&& (b ||| c) ≠ 0 ∧ b &&& 0x80 = 0x80 := by
  obtain ⟨h1, h2, h3, h4, h5⟩ := high_bits b hb' hb
  cases h <;> rcases hc with rfl | rfl <;> exact ⟨by assumption, h1⟩

theorem Mask.low {mask least b c : ℕ} (h : Mask mask least) (hb : b < 128)
    (hc : c = 0 ∧ least ≤ b ∨ c = 0x80) : mask &&& (b ||| c) ≠ 0 ∧ b &&& 0x80 = 0 := by
  obtain ⟨h1, h2, h3, h4, h5⟩ := low_bits b hb
  cases h with
  | poslist =>
    rcases hc with ⟨rfl, hc⟩ | rfl
    · exact ⟨h4 (by omega), h1⟩
    · exact ⟨h2, h1⟩
  | columnlist =>
    rcases hc with ⟨rfl, hc⟩ | rfl
    · exact ⟨h5 hc, h1⟩
    · exact ⟨h3, h1⟩

/-- Bytes that a loop steps over as a whole, when it meets them at the start of a number. -/
def Passes (mask : ℕ) (l : List ℕ) : Prop :=
  ∀ rest, scanLoop mask 0 (l ++ rest) = (scanLoop mask 0 rest).map fun r => (l ++ r.1, r.2)

theorem Passes.nil (mask : ℕ) : Passes mask [] := by
  intro rest
  simp

theorem Passes.append {mask : ℕ} {l l' : List ℕ} (h : Passes mask l) (h' : Passes mask l') :
    Passes mask (l ++ l') := by
  intro rest
  rw [List.append_assoc, h, h', Option.map_map]
  simp [Function.comp_def]

theorem scanLoop_high {mask least c lo : ℕ} (hm : Mask mask least) (hlo : lo < 128) (hi : List ℕ)
    (hhi : ∀ b ∈ hi, 128 ≤ b ∧ b < 256) (hc : c = 0 ∧ (hi = [] → least ≤ lo) ∨ c = 0x80)
    (rest : List ℕ) : scanLoop mask c (hi ++ lo :: rest) =
      (scanLoop mask 0 rest).map fun r => (hi ++ lo :: r.1, r.2) := by
  induction hi generalizing c with
  | nil =>
    obtain ⟨h1, h2⟩ := hm.low hlo (hc.imp (fun h => ⟨h.1, h.2 rfl⟩) id)
    rw [List.nil_append, scanLoop, if_neg h1, h2]
    rfl
  | cons b hi ih =>
    obtain ⟨hb, hb'⟩ := hhi b List.mem_cons_self
    obtain ⟨h1, h2⟩ := hm.high (c := c) hb hb' (hc.imp (·.1) id)
    rw [List.cons_append, scanLoop, if_neg h1, h2,
      ih (fun x hx => hhi x (List.mem_cons_of_mem b hx)) (.inr rfl), Option.map_map]
    rfl

theorem Passes.varint {mask least v : ℕ} (hm : Mask mask least) (hv : v < 2 ^ 64) (h : least ≤ v) :
    Passes mask (sqlite3Fts3PutVarint v) := by
  obtain ⟨hi, lo, heq, hhi, hlo, -, hsmall⟩ := (Doclist.varint v hv).split
  intro rest
  rw [heq, List.append_assoc, List.singleton_append,
    scanLoop_high hm hlo hi hhi (.inl ⟨rfl, fun hnil => by rw [hsmall hnil]; exact h⟩)]
  simp

theorem Passes.posBytes {mask least : ℕ} (hm : Mask mask least) :
    ∀ (prev : ℕ) (l : List ℕ), (∀ q ∈ l, q < 2 ^ 31) → Passes mask (posBytes prev l)
  | _, [], _ => Passes.nil mask
  | prev, q :: l, h => by
    have hq := h q List.mem_cons_self
    refine (Passes.varint hm (by omega) ?_).append
      (Passes.posBytes hm q l fun x hx => h x (List.mem_cons_of_mem q hx))
    cases hm <;> omega

theorem Passes.header {c : ℕ} (hc : c < 2 ^ 31 - 1) : Passes 0xFF (headerBytes c) := by
  rw [headerBytes]
  split
  · exact Passes.nil _
  · have hone : Passes 0xFF [POS_COLUMN] := by
      have h := Passes.varint Mask.poslist (v := 1) (by decide) le_rfl
      rwa [putVarint_small (by decide)] at h
    exact hone.append (Passes.varint Mask.poslist (by omega) (by omega))

theorem Passes.columns {l : Poslist} (h : IsPoslist l) : Passes 0xFF (columnsBytes l) := by
  have hall : ∀ c ∈ l, Passes 0xFF (columnBytes c) := fun c hc =>
    (Passes.header (h.column_lt c hc)).append (Passes.posBytes .poslist 0 c.2 (h.position_lt c hc))
  clear h
  induction l with
  | nil => exact Passes.nil _
  | cons c l ih =>
    rw [columnsBytes, List.flatMap_cons]
    exact (hall c List.mem_cons_self).append (ih fun x hx => hall x (List.mem_cons_of_mem c hx))

theorem poslistCopy {l : Poslist} (h : IsPoslist l) (rest : List ℕ) :
    fts3PoslistCopy (poslistBytes l ++ rest) = some (poslistBytes l, rest) := by
  have hend : scanLoop 0xFF 0 (POS_END :: rest) = some ([], POS_END :: rest) := rfl
  have hpass : scanLoop 0xFF 0 (poslistBytes l ++ rest) =
      some (columnsBytes l, POS_END :: rest) := by
    rw [poslistBytes, List.append_assoc, Passes.columns h, List.singleton_append, hend]
    simp
  rw [fts3PoslistCopy, hpass]
  rfl

/-- A column list ends at the byte that ends it or starts the next one. -/
theorem columnlistCopy {prev : ℕ} {l : List ℕ} (h : ∀ q ∈ l, q < 2 ^ 31) {t : ℕ} (ht : t < 2)
    (rest : List ℕ) : fts3ColumnlistCopy (posBytes prev l ++ t :: rest) =
      some (posBytes prev l, t :: rest) := by
  have hend : scanLoop 0xFE 0 (t :: rest) = some ([], t :: rest) := by
    have : t = 0 ∨ t = 1 := by omega
    rcases this with rfl | rfl <;> rfl
  rw [fts3ColumnlistCopy, Passes.posBytes .columnlist prev l h, hend]
  simp

/-! The rows of a doclist and their bytes. -/

theorem delta_lt (desc : Bool) (prev : Option ℤ) (d : ℤ) : delta desc prev d < 2 ^ 64 := by
  cases prev <;> exact u64_lt _

/-- The docid before the rows that come after `l`. -/
def lastDocid (prev : Option ℤ) (l : Entries) : Option ℤ := (l.getLast?.map (·.1)).or prev

theorem lastDocid_cons (prev : Option ℤ) (e : ℤ × Poslist) (l : Entries) :
    lastDocid prev (e :: l) = lastDocid (some e.1) l := by
  cases l with
  | nil => rfl
  | cons f l =>
    rw [lastDocid, lastDocid, List.getLast?_cons_cons,
      List.getLast?_eq_some_getLast (List.cons_ne_nil f l)]
    rfl

theorem lastDocid_concat (prev : Option ℤ) (l : Entries) (e : ℤ × Poslist) :
    lastDocid prev (l ++ [e]) = some e.1 := by
  simp [lastDocid]

theorem entriesBytes_append (desc : Bool) (prev : Option ℤ) (l l' : Entries) :
    entriesBytes desc prev (l ++ l') =
      entriesBytes desc prev l ++ entriesBytes desc (lastDocid prev l) l' := by
  induction l generalizing prev with
  | nil => rfl
  | cons e l ih =>
    rw [List.cons_append, entriesBytes, ih, lastDocid_cons, entriesBytes]
    simp only [List.append_assoc]

theorem IsDoclist.of_cons {desc : Bool} {e : ℤ × Poslist} {l : Entries}
    (h : IsDoclist desc (e :: l)) : IsDoclist desc l where
  order := (List.pairwise_cons.mp h.order).2
  fits := fun x hx => h.fits x (List.mem_cons_of_mem e hx)
  poslists := fun x hx => h.poslists x (List.mem_cons_of_mem e hx)

theorem length_le_entriesBytes (desc : Bool) (prev : Option ℤ) (l : Entries) :
    l.length ≤ (entriesBytes desc prev l).length := by
  induction l generalizing prev with
  | nil => exact Nat.zero_le _
  | cons e l ih =>
    have hpos := length_putVarint_pos (delta_lt desc prev e.1)
    have hrest := ih (some e.1)
    simp only [entriesBytes, List.length_append, List.length_cons]
    omega

/-- A later docid is never stored as zero. -/
theorem delta_ne_zero {desc : Bool} {prev d : ℤ} (h : Before desc prev d)
    (hp : -2 ^ 63 ≤ prev ∧ prev < 2 ^ 63) (hd : -2 ^ 63 ≤ d ∧ d < 2 ^ 63) :
    delta desc (some prev) d ≠ 0 := by
  cases desc <;> simp only [Before, delta, u64, if_true, if_false, Bool.false_eq_true] at h ⊢ <;>
    omega

theorem columnsBytes_eq_nil {l : Poslist} (h : IsPoslist l) (hl : columnsBytes l = []) : l = [] := by
  cases l with
  | nil => rfl
  | cons c l =>
    obtain ⟨q, r, hq⟩ := List.exists_cons_of_ne_nil (h.nonempty c List.mem_cons_self)
    have hlt := h.position_lt c List.mem_cons_self q (by rw [hq]; exact List.mem_cons_self)
    have hne := putVarint_ne_nil (v := q - 0 + 2) (by omega)
    rw [columnsBytes, List.flatMap_cons, columnBytes, hq, posBytes] at hl
    simp only [List.append_eq_nil_iff] at hl
    exact absurd hl.1.2.1 hne

end Sqlite.Doclist
