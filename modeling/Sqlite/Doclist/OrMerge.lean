import Mathlib.Algebra.Ring.Int.Defs
import Sqlite.Doclist.Poslists

/-! The union of two doclists (`fts3DoclistOrMerge`). -/
namespace Sqlite.Doclist

open Fts (sqlite3Fts3PutVarint sqlite3Fts3GetVarint FTS3_VARINT_MAX)
open Foundation

/-- The bytes after the number at `p`, with `*pVal`; a null pointer where the doclist ends. -/
def fts3GetDeltaVarint3 (bDescIdx : Bool) (p : List ℕ) (pVal : ℤ) : Option (Option (List ℕ) × ℤ) :=
  if p = [] then some (none, pVal)
  else do
    let (iVal, p) ← sqlite3Fts3GetVarint p
    return (some p, i64 (if bDescIdx then pVal - iVal else pVal + iVal))

def fts3PutDeltaVarint3 (bDescIdx : Bool) (iPrev : ℤ) (bFirst : Bool) (iVal : ℤ) : List ℕ :=
  sqlite3Fts3PutVarint (u64 (if bDescIdx = false ∨ bFirst = false then iVal - iPrev else iPrev - iVal))

def DOCID_CMP (bDescDoclist : Bool) (i1 i2 : ℤ) : ℤ :=
  i64 ((if bDescDoclist then -1 else 1) * i64 (i1 - i2))

/-- The loop of `fts3DoclistOrMerge`: the bytes that it writes. A round takes a row of one of the lists, so
their length bounds the rounds. -/
def orLoop (bDescDoclist : Bool) : ℕ → Option (List ℕ) → Option (List ℕ) → ℤ → ℤ → ℤ → Bool →
    Option (List ℕ)
  | 0, _, _, _, _, _, _ => none
  | n + 1, p1, p2, i1, i2, iPrev, bFirstOut =>
    if p1 = none ∧ p2 = none then some []
    else
      let iDiff := DOCID_CMP bDescDoclist i1 i2
      if p2 ≠ none ∧ p1 ≠ none ∧ iDiff = 0 then do
        let docid := fts3PutDeltaVarint3 bDescDoclist iPrev bFirstOut i1
        let (list, q1, q2) ← fts3PoslistMerge (p1.getD []) (p2.getD [])
        let (p1', i1') ← fts3GetDeltaVarint3 bDescDoclist q1 i1
        let (p2', i2') ← fts3GetDeltaVarint3 bDescDoclist q2 i2
        let rest ← orLoop bDescDoclist n p1' p2' i1' i2' i1 true
        return docid ++ list ++ rest
      else if p2 = none ∨ (p1 ≠ none ∧ iDiff < 0) then do
        let docid := fts3PutDeltaVarint3 bDescDoclist iPrev bFirstOut i1
        let (list, q1) ← fts3PoslistCopy (p1.getD [])
        let (p1', i1') ← fts3GetDeltaVarint3 bDescDoclist q1 i1
        let rest ← orLoop bDescDoclist n p1' p2 i1' i2 i1 true
        return docid ++ list ++ rest
      else do
        let docid := fts3PutDeltaVarint3 bDescDoclist iPrev bFirstOut i2
        let (list, q2) ← fts3PoslistCopy (p2.getD [])
        let (p2', i2') ← fts3GetDeltaVarint3 bDescDoclist q2 i2
        let rest ← orLoop bDescDoclist n p1 p2' i1 i2' i2 true
        return docid ++ list ++ rest

def fts3DoclistOrMerge (bDescDoclist : Bool) (a1 a2 : List ℕ) : Option (List ℕ) := do
  let (p1, i1) ← fts3GetDeltaVarint3 false a1 0
  let (p2, i2) ← fts3GetDeltaVarint3 false a2 0
  orLoop bDescDoclist (a1.length + a2.length + 1) p1 p2 i1 i2 0 false

/-! What the loop computes: the merge of the rows by `DOCID_CMP`. -/

def rowCmp (desc : Bool) (e f : ℤ × Poslist) : ℤ := DOCID_CMP desc e.1 f.1

def joinRows (e f : ℤ × Poslist) : ℤ × Poslist := (e.1, mergedColumns e.2 f.2)

def orRows (desc : Bool) (l l' : Entries) : Entries := mergeBy (rowCmp desc) joinRows l l'

/-- The rows `l` are still to come, and the docid of the first has been read. -/
def Cursor (desc : Bool) (p : Option (List ℕ)) (i : ℤ) : Entries → Prop
  | [] => p = none
  | e :: l => i = e.1 ∧ p = some (poslistBytes e.2 ++ entriesBytes desc (some e.1) l)

/-- What the merge needs to know of a doclist: its docids fit and its position lists are in range. -/
structure Readable (l : Entries) : Prop where
  fits : ∀ e ∈ l, -2 ^ 63 ≤ e.1 ∧ e.1 < 2 ^ 63
  poslists : ∀ e ∈ l, IsPoslist e.2
  small : ∀ e ∈ l, Small e.2

theorem Readable.of_cons {e : ℤ × Poslist} {l : Entries} (h : Readable (e :: l)) : Readable l where
  fits := fun x hx => h.fits x (List.mem_cons_of_mem e hx)
  poslists := fun x hx => h.poslists x (List.mem_cons_of_mem e hx)
  small := fun x hx => h.small x (List.mem_cons_of_mem e hx)

variable {desc : Bool} {p p1 p2 : Option (List ℕ)} {i i1 i2 iPrev : ℤ} {e : ℤ × Poslist}
  {l l1 l2 : Entries} {prev : Option ℤ} {n : ℕ}

theorem getDelta_next (desc : Bool) (h : ∀ e ∈ l, -2 ^ 63 ≤ e.1 ∧ e.1 < 2 ^ 63) (d : ℤ) :
    ∃ p i, fts3GetDeltaVarint3 desc (entriesBytes desc (some d) l) d = some (p, i) ∧
      Cursor desc p i l := by
  cases l with
  | nil => exact ⟨none, d, rfl, rfl⟩
  | cons e l =>
    obtain ⟨hlo, hhi⟩ := h e List.mem_cons_self
    have hlt := delta_lt desc (some d) e.1
    have hne : entriesBytes desc (some d) (e :: l) ≠ [] := by
      rw [entriesBytes, List.append_assoc]
      exact List.append_ne_nil_of_left_ne_nil (putVarint_ne_nil hlt) _
    have hdocid : i64 (if desc then d - (delta desc (some d) e.1 : ℤ)
        else d + (delta desc (some d) e.1 : ℤ)) = e.1 := by
      cases desc
      · exact i64_add_u64_sub hlo hhi
      · exact i64_sub_u64_sub hlo hhi
    refine ⟨some (poslistBytes e.2 ++ entriesBytes desc (some e.1) l), e.1, ?_, rfl, rfl⟩
    rw [fts3GetDeltaVarint3, if_neg hne, entriesBytes, List.append_assoc,
      Fts.getVarint_putVarint hlt]
    simp only [Option.bind_eq_bind, Option.bind_some, hdocid]
    rfl

theorem getDelta_first (desc : Bool) (h : ∀ e ∈ l, -2 ^ 63 ≤ e.1 ∧ e.1 < 2 ^ 63) :
    ∃ p i, fts3GetDeltaVarint3 false (doclistBytes desc l) 0 = some (p, i) ∧ Cursor desc p i l := by
  cases l with
  | nil => exact ⟨none, 0, rfl, rfl⟩
  | cons e l =>
    obtain ⟨hlo, hhi⟩ := h e List.mem_cons_self
    have hlt := delta_lt desc none e.1
    have hne : doclistBytes desc (e :: l) ≠ [] := by
      rw [doclistBytes, entriesBytes, List.append_assoc]
      exact List.append_ne_nil_of_left_ne_nil (putVarint_ne_nil hlt) _
    have hdocid : i64 (0 + (delta desc none e.1 : ℤ)) = e.1 := by
      have := i64_add_u64_sub (x := 0) hlo hhi
      rwa [sub_zero] at this
    refine ⟨some (poslistBytes e.2 ++ entriesBytes desc (some e.1) l), e.1, ?_, rfl, rfl⟩
    rw [fts3GetDeltaVarint3, if_neg hne, doclistBytes, entriesBytes, List.append_assoc,
      Fts.getVarint_putVarint hlt]
    simp only [Option.bind_eq_bind, Option.bind_some, Bool.false_eq_true, if_false, hdocid]
    rfl

/-- The docid written before, as the loop keeps it. -/
def Written (iPrev : ℤ) (bFirstOut : Bool) : Option ℤ → Prop
  | none => iPrev = 0 ∧ bFirstOut = false
  | some d => iPrev = d ∧ bFirstOut = true

theorem putDelta (desc : Bool) {bFirstOut : Bool} (h : Written iPrev bFirstOut prev) (d : ℤ) :
    fts3PutDeltaVarint3 desc iPrev bFirstOut d = sqlite3Fts3PutVarint (delta desc prev d) := by
  cases prev with
  | none =>
    obtain ⟨rfl, rfl⟩ := h
    rw [fts3PutDeltaVarint3, if_pos (.inr rfl), delta, sub_zero]
  | some c =>
    obtain ⟨rfl, rfl⟩ := h
    cases desc <;> rfl

theorem orLoop_rows {bFirstOut : Bool} (h1 : Readable l1) (h2 : Readable l2) (hc1 : Cursor desc p1 i1 l1)
    (hc2 : Cursor desc p2 i2 l2) (hw : Written iPrev bFirstOut prev) (hn : l1.length + l2.length < n) :
    orLoop desc n p1 p2 i1 i2 iPrev bFirstOut =
      some (entriesBytes desc prev (orRows desc l1 l2)) := by
  have hnext : ∀ d : ℤ, Written d true (some d) := fun _ => ⟨rfl, rfl⟩
  induction n generalizing l1 l2 p1 p2 i1 i2 iPrev bFirstOut prev with
  | zero => omega
  | succ n ih =>
    cases l1 with
    | nil =>
      obtain rfl : p1 = none := id hc1
      cases l2 with
      | nil =>
        obtain rfl : p2 = none := id hc2
        rw [orLoop, if_pos ⟨rfl, rfl⟩, orRows, mergeBy, entriesBytes]
      | cons f l2 =>
        obtain ⟨rfl, rfl⟩ := id hc2
        obtain ⟨p2', i2', hget, hc2'⟩ := getDelta_next desc h2.of_cons.fits f.1
        have hrest := ih h1 h2.of_cons hc1 hc2' (hnext f.1) (by simpa using hn)
        have hrows : orRows desc [] (f :: l2) = f :: orRows desc [] l2 := by
          simp only [orRows, mergeBy]
        rw [orLoop, hrows, entriesBytes]
        simp only [Option.getD_some, poslistCopy (h2.poslists f List.mem_cons_self), hget, hrest,
          putDelta desc hw, Option.bind_eq_bind, Option.bind_some, reduceCtorEq, and_false, if_false,
          ne_eq, not_false_eq_true, not_true_eq_false, false_and, or_false]
        rfl
    | cons e l1 =>
      obtain ⟨rfl, rfl⟩ := id hc1
      obtain ⟨p1', i1', hget1, hc1'⟩ := getDelta_next desc h1.of_cons.fits e.1
      cases l2 with
      | nil =>
        obtain rfl : p2 = none := id hc2
        have hrest := ih h1.of_cons h2 hc1' hc2 (hnext e.1) (by simpa using hn)
        have hrows : orRows desc (e :: l1) [] = e :: orRows desc l1 [] := by
          simp only [orRows, mergeBy_nil_right]
        rw [orLoop, hrows, entriesBytes]
        simp only [Option.getD_some, poslistCopy (h1.poslists e List.mem_cons_self), hget1, hrest,
          putDelta desc hw, Option.bind_eq_bind, Option.bind_some, reduceCtorEq, and_true, if_false,
          ne_eq, not_true_eq_false, false_and, true_or, if_true]
        rfl
      | cons f l2 =>
        obtain ⟨rfl, rfl⟩ := id hc2
        obtain ⟨p2', i2', hget2, hc2'⟩ := getDelta_next desc h2.of_cons.fits f.1
        simp only [List.length_cons] at hn
        have hmerge := poslistMerge (h1.poslists e List.mem_cons_self) (h2.poslists f List.mem_cons_self)
          (h1.small e List.mem_cons_self) (h2.small f List.mem_cons_self)
          (entriesBytes desc (some e.1) l1) (entriesBytes desc (some f.1) l2)
        rw [orLoop, orRows, mergeBy, rowCmp]
        simp only [Option.getD_some, reduceCtorEq, and_self, if_false, ne_eq, not_false_eq_true,
          true_and, false_or]
        by_cases hzero : DOCID_CMP desc e.1 f.1 = 0
        · have hrest := ih h1.of_cons h2.of_cons hc1' hc2' (hnext e.1) (by omega)
          rw [if_pos hzero, if_pos hzero, hmerge]
          simp only [hget1, hget2, hrest, putDelta desc hw, Option.bind_eq_bind, Option.bind_some]
          rfl
        · rw [if_neg hzero, if_neg hzero]
          by_cases hneg : DOCID_CMP desc e.1 f.1 < 0
          · have hrest := ih h1.of_cons h2 hc1' hc2 (hnext e.1) (by simp only [List.length_cons]; omega)
            rw [if_pos hneg, if_pos hneg, poslistCopy (h1.poslists e List.mem_cons_self)]
            simp only [hget1, hrest, putDelta desc hw, Option.bind_eq_bind, Option.bind_some]
            rfl
          · have hrest := ih h1 h2.of_cons hc1 hc2' (hnext f.1) (by simp only [List.length_cons]; omega)
            rw [if_neg hneg, if_neg hneg, poslistCopy (h2.poslists f List.mem_cons_self)]
            simp only [hget2, hrest, putDelta desc hw, Option.bind_eq_bind, Option.bind_some]
            rfl

theorem orMerge_bytes (desc : Bool) (h1 : Readable l1) (h2 : Readable l2) :
    fts3DoclistOrMerge desc (doclistBytes desc l1) (doclistBytes desc l2) =
      some (doclistBytes desc (orRows desc l1 l2)) := by
  obtain ⟨p1, i1, hget1, hc1⟩ := getDelta_first desc h1.fits
  obtain ⟨p2, i2, hget2, hc2⟩ := getDelta_first desc h2.fits
  have hlen1 := length_le_entriesBytes desc none l1
  have hlen2 := length_le_entriesBytes desc none l2
  have hfirst : Written 0 false none := ⟨rfl, rfl⟩
  have hloop := orLoop_rows (n := (doclistBytes desc l1).length + (doclistBytes desc l2).length + 1) h1 h2
    hc1 hc2 hfirst (by
      rw [doclistBytes, doclistBytes]
      omega)
  rw [fts3DoclistOrMerge, hget1, hget2]
  exact hloop

/-! The order of docids, and when `DOCID_CMP` has it right. -/

theorem before_trans (desc : Bool) (x y z : ℤ) (h : Before desc x y) (h' : Before desc y z) :
    Before desc x z := by
  cases desc <;> simp only [Before, if_true, if_false, Bool.false_eq_true] at h h' ⊢ <;> omega

theorem before_irrefl (desc : Bool) (x : ℤ) : ¬Before desc x x := by
  cases desc <;> simp [Before]

/-- The difference of two docids, as `DOCID_CMP` takes it, fits in 64 bits. -/
def Near (desc : Bool) (x y : ℤ) : Prop :=
  -2 ^ 63 ≤ (if desc then y - x else x - y) ∧ (if desc then y - x else x - y) < 2 ^ 63

theorem docidCmp_eq_zero {x y : ℤ} (hx : -2 ^ 63 ≤ x ∧ x < 2 ^ 63) (hy : -2 ^ 63 ≤ y ∧ y < 2 ^ 63) :
    DOCID_CMP desc x y = 0 ↔ x = y := by
  cases desc <;> simp only [DOCID_CMP, i64, Int.bmod_def, if_true, if_false, Bool.false_eq_true] <;>
    omega

theorem right_iff_near {e f : ℤ × Poslist} (he : -2 ^ 63 ≤ e.1 ∧ e.1 < 2 ^ 63)
    (hf : -2 ^ 63 ≤ f.1 ∧ f.1 < 2 ^ 63) :
    Right (Before desc) Prod.fst (rowCmp desc) e f ↔ Near desc e.1 f.1 := by
  constructor
  · rintro ⟨h0, h1, h2⟩
    cases desc <;>
      simp only [rowCmp, DOCID_CMP, i64, Int.bmod_def, Near, Before, if_true, if_false,
        Bool.false_eq_true] at h0 h1 h2 ⊢ <;> omega
  · intro h
    cases desc <;> simp only [Near, if_true, if_false, Bool.false_eq_true] at h <;>
      (refine ⟨fun h0 => ?_, fun h1 => ?_, fun h2 => ?_⟩ <;>
        simp only [rowCmp, DOCID_CMP, i64, Int.bmod_def, Before, if_true, if_false,
          Bool.false_eq_true] at * <;> omega)

/-! Bytes are of one doclist only. -/

theorem delta_inj {x y : ℤ} (hx : -2 ^ 63 ≤ x ∧ x < 2 ^ 63) (hy : -2 ^ 63 ≤ y ∧ y < 2 ^ 63)
    (h : delta desc prev x = delta desc prev y) : x = y := by
  cases prev <;> cases desc <;>
    simp only [delta, u64, if_true, if_false, Bool.false_eq_true] at h <;> omega

theorem entriesBytes_inj {l l' : Entries} (hfits : ∀ e ∈ l, -2 ^ 63 ≤ e.1 ∧ e.1 < 2 ^ 63)
    (hfits' : ∀ e ∈ l', -2 ^ 63 ≤ e.1 ∧ e.1 < 2 ^ 63) (hp : ∀ e ∈ l, IsPoslist e.2)
    (hp' : ∀ e ∈ l', IsPoslist e.2) (h : entriesBytes desc prev l = entriesBytes desc prev l') :
    l = l' := by
  have hnil : ∀ (prev : Option ℤ) (e : ℤ × Poslist) (l : Entries),
      entriesBytes desc prev (e :: l) ≠ [] := by
    intro prev e l
    rw [entriesBytes, List.append_assoc]
    exact List.append_ne_nil_of_left_ne_nil (putVarint_ne_nil (delta_lt desc prev e.1)) _
  induction l generalizing l' prev with
  | nil =>
    cases l' with
    | nil => rfl
    | cons e l' => exact absurd h.symm (hnil prev e l')
  | cons e l ih =>
    cases l' with
    | nil => exact absurd h (hnil prev e l)
    | cons f l' =>
      have he := List.mem_cons_self (a := e) (l := l)
      have hf := List.mem_cons_self (a := f) (l := l')
      rw [entriesBytes, entriesBytes, List.append_assoc, List.append_assoc] at h
      obtain ⟨hdelta, hrest⟩ := putVarint_inj (delta_lt desc prev e.1) (delta_lt desc prev f.1) h
      have hdocid := delta_inj (hfits e he) (hfits' f hf) hdelta
      rw [poslistBytes, poslistBytes, List.append_assoc, List.append_assoc] at hrest
      obtain ⟨hlist, htail⟩ := columnsBytes_inj (hp e he) (hp' f hf) hrest
      rw [← hdocid] at htail
      obtain rfl := ih (fun x hx => hfits x (List.mem_cons_of_mem e hx))
        (fun x hx => hfits' x (List.mem_cons_of_mem f hx))
        (fun x hx => hp x (List.mem_cons_of_mem e hx)) (fun x hx => hp' x (List.mem_cons_of_mem f hx)) htail
      rw [Prod.ext hdocid hlist]

/-! The bytes that the union takes. Only the first docid of one of the lists can grow. -/

/-- The docid is stored in no more bytes after `p` than after `q`. -/
theorem length_delta_mono {q p x : ℤ} (hq : -2 ^ 63 ≤ q ∧ q < 2 ^ 63) (hx : -2 ^ 63 ≤ x ∧ x < 2 ^ 63)
    (hqp : q = p ∨ Before desc q p) (hpx : Before desc p x) :
    (sqlite3Fts3PutVarint (delta desc (some p) x)).length ≤
      (sqlite3Fts3PutVarint (delta desc (some q) x)).length := by
  refine length_putVarint_mono ?_ (delta_lt desc (some q) x)
  cases desc <;>
    simp only [delta, u64, Before, if_true, if_false, Bool.false_eq_true] at hqp hpx ⊢ <;> omega

/-- No docid and position is lost. -/
def NoClashes (l l' : Entries) : Prop := ∀ e ∈ l, ∀ f ∈ l', e.1 = f.1 → NoClash e.2 f.2

/-- A list whose last docid was `q`, when the union has come to `p`. -/
def Behind (desc : Bool) (q p : ℤ) : Prop := (-2 ^ 63 ≤ q ∧ q < 2 ^ 63) ∧ (q = p ∨ Before desc q p)

theorem Behind.of_before {q p x : ℤ} (h : Behind desc q p) (hx : Before desc p x) : Behind desc q x :=
  ⟨h.1, .inr (h.2.elim (fun h => h ▸ hx) fun h => before_trans desc q p x h hx)⟩

/-- How much longer the rest of a list can get: by the rest of a varint, if no docid of it was read. -/
def slack : Option ℤ → ℕ
  | none => FTS3_VARINT_MAX - 1
  | some _ => 0

theorem slack_some (d : ℤ) : slack (some d) = 0 := rfl

/-- What holds of the last docid of a list, if it has one. -/
def BehindOpt (desc : Bool) (q : Option ℤ) (p : ℤ) : Prop := ∀ d, q = some d → Behind desc d p

theorem length_docid {q : Option ℤ} {p x : ℤ} (hq : BehindOpt desc q p)
    (hx : -2 ^ 63 ≤ x ∧ x < 2 ^ 63) (hpx : Before desc p x) :
    (sqlite3Fts3PutVarint (delta desc (some p) x)).length ≤
      (sqlite3Fts3PutVarint (delta desc q x)).length + slack q := by
  cases q with
  | none =>
    have h1 := length_putVarint_le (delta_lt desc (some p) x)
    have h2 := length_putVarint_pos (delta_lt desc none x)
    rw [slack, FTS3_VARINT_MAX]
    omega
  | some d =>
    obtain ⟨hd, hdp⟩ := hq d rfl
    exact length_delta_mono hd hx hdp hpx

theorem length_entries_rest {q : Option ℤ} {p : ℤ} (hq : BehindOpt desc q p)
    (hl : IsDoclist desc l) (hp : ∀ e ∈ l, Before desc p e.1) :
    (entriesBytes desc (some p) l).length ≤ (entriesBytes desc q l).length + slack q := by
  cases l with
  | nil => exact Nat.zero_le _
  | cons e l =>
    have he := List.mem_cons_self (a := e) (l := l)
    have := length_docid hq (hl.fits e he) (hp e he)
    simp only [entriesBytes, List.length_append]
    omega

/-- After the first row: what is still to be written, and what is still to be read. -/
theorem length_entries_merge {m : Entries} (h : Merges (Before desc) Prod.fst joinRows l1 l2 m)
    {q1 q2 : Option ℤ} {p : ℤ} (hq1 : BehindOpt desc q1 p) (hq2 : BehindOpt desc q2 p)
    (h1 : IsDoclist desc l1) (h2 : IsDoclist desc l2) (hp1 : ∀ e ∈ l1, Before desc p e.1)
    (hp2 : ∀ e ∈ l2, Before desc p e.1) (hno : NoClashes l1 l2) :
    (entriesBytes desc (some p) m).length ≤ (entriesBytes desc q1 l1).length +
      (entriesBytes desc q2 l2).length + slack q1 + slack q2 := by
  have hbehind : ∀ {e : ℤ × Poslist}, -2 ^ 63 ≤ e.1 ∧ e.1 < 2 ^ 63 → BehindOpt desc (some e.1) e.1 := by
    rintro e he d hd
    obtain rfl := Option.some.inj hd
    exact ⟨he, .inl rfl⟩
  induction h generalizing q1 q2 p with
  | nil_left l =>
    have := length_entries_rest hq2 h2 hp2
    omega
  | nil_right l =>
    have := length_entries_rest hq1 h1 hp1
    omega
  | @both a b l l' m hab hm ih =>
    have ha := List.mem_cons_self (a := a) (l := l)
    have hb := List.mem_cons_self (a := b) (l := l')
    have hput := length_docid hq1 (h1.fits a ha) (hp1 a ha)
    have hput' := length_putVarint_pos (delta_lt desc q2 b.1)
    have hcols := length_columnsBytes_merged (h1.poslists a ha) (h2.poslists b hb) (hno a ha b hb hab)
    have hrest := ih (hbehind (h1.fits a ha)) (hab ▸ hbehind (h2.fits b hb)) h1.of_cons h2.of_cons
      (List.pairwise_cons.mp h1.order).1 (hab ▸ (List.pairwise_cons.mp h2.order).1)
      fun x hx y hy => hno x (List.mem_cons_of_mem a hx) y (List.mem_cons_of_mem b hy)
    have hab' : a.1 = b.1 := hab
    simp only [entriesBytes, joinRows, poslistBytes, List.length_append, slack_some, ← hab'] at hrest hput' ⊢
    omega
  | @left a b l l' m hab hm ih =>
    have ha := List.mem_cons_self (a := a) (l := l)
    have hput := length_docid hq1 (h1.fits a ha) (hp1 a ha)
    have hrest := ih (hbehind (h1.fits a ha)) (fun d hd => (hq2 d hd).of_before (hp1 a ha)) h1.of_cons h2
      (List.pairwise_cons.mp h1.order).1
      (fun x hx => (List.mem_cons.mp hx).elim (fun h => h ▸ hab) fun hx =>
        before_trans desc _ _ _ hab ((List.pairwise_cons.mp h2.order).1 x hx))
      fun x hx => hno x (List.mem_cons_of_mem a hx)
    simp only [entriesBytes, List.length_append, slack_some] at hrest ⊢
    omega
  | @right a b l l' m hba hm ih =>
    have hb := List.mem_cons_self (a := b) (l := l')
    have hput := length_docid hq2 (h2.fits b hb) (hp2 b hb)
    have hrest := ih (fun d hd => (hq1 d hd).of_before (hp2 b hb)) (hbehind (h2.fits b hb)) h1 h2.of_cons
      (fun x hx => (List.mem_cons.mp hx).elim (fun h => h ▸ hba) fun hx =>
        before_trans desc _ _ _ hba ((List.pairwise_cons.mp h1.order).1 x hx))
      (List.pairwise_cons.mp h2.order).1 fun x hx y hy => hno x hx y (List.mem_cons_of_mem b hy)
    simp only [entriesBytes, List.length_append, slack_some] at hrest ⊢
    omega

theorem length_merged {m : Entries} (h : Merges (Before desc) Prod.fst joinRows l1 l2 m)
    (h1 : IsDoclist desc l1) (h2 : IsDoclist desc l2) (hno : NoClashes l1 l2) :
    (doclistBytes desc m).length ≤ (doclistBytes desc l1).length + (doclistBytes desc l2).length +
      FTS3_VARINT_MAX - 1 := by
  have hbehind : ∀ {e : ℤ × Poslist}, -2 ^ 63 ≤ e.1 ∧ e.1 < 2 ^ 63 → BehindOpt desc (some e.1) e.1 := by
    rintro e he d hd
    obtain rfl := Option.some.inj hd
    exact ⟨he, .inl rfl⟩
  have hnone : ∀ p, BehindOpt desc none p := fun p d hd => absurd hd (by simp)
  rw [doclistBytes, doclistBytes, doclistBytes, FTS3_VARINT_MAX]
  cases h with
  | nil_left l => omega
  | nil_right l => omega
  | @both a b l l' m hab hm =>
    have ha := List.mem_cons_self (a := a) (l := l)
    have hb := List.mem_cons_self (a := b) (l := l')
    have hput' := length_putVarint_pos (delta_lt desc none b.1)
    have hcols := length_columnsBytes_merged (h1.poslists a ha) (h2.poslists b hb) (hno a ha b hb hab)
    have hrest := length_entries_merge hm (hbehind (h1.fits a ha)) (hab ▸ hbehind (h2.fits b hb))
      h1.of_cons h2.of_cons (List.pairwise_cons.mp h1.order).1
      (hab ▸ (List.pairwise_cons.mp h2.order).1)
      fun x hx y hy => hno x (List.mem_cons_of_mem a hx) y (List.mem_cons_of_mem b hy)
    have hab' : a.1 = b.1 := hab
    simp only [entriesBytes, joinRows, poslistBytes, List.length_append, slack_some, ← hab'] at hrest hput' ⊢
    omega
  | @left a b l l' m hab hm =>
    have ha := List.mem_cons_self (a := a) (l := l)
    have hrest := length_entries_merge hm (hbehind (h1.fits a ha)) (hnone a.1) h1.of_cons h2
      (List.pairwise_cons.mp h1.order).1
      (fun x hx => (List.mem_cons.mp hx).elim (fun h => h ▸ hab) fun hx =>
        before_trans desc _ _ _ hab ((List.pairwise_cons.mp h2.order).1 x hx))
      fun x hx => hno x (List.mem_cons_of_mem a hx)
    simp only [entriesBytes, List.length_append, slack, FTS3_VARINT_MAX] at hrest ⊢
    omega
  | @right a b l l' m hba hm =>
    have hb := List.mem_cons_self (a := b) (l := l')
    have hrest := length_entries_merge hm (hnone b.1) (hbehind (h2.fits b hb)) h1 h2.of_cons
      (fun x hx => (List.mem_cons.mp hx).elim (fun h => h ▸ hba) fun hx =>
        before_trans desc _ _ _ hba ((List.pairwise_cons.mp h1.order).1 x hx))
      (List.pairwise_cons.mp h2.order).1 fun x hx y hy => hno x hx y (List.mem_cons_of_mem b hy)
    simp only [entriesBytes, List.length_append, slack, FTS3_VARINT_MAX] at hrest ⊢
    omega

/-! What the union holds. -/

/-- The position list has position `q` of column `c`. -/
def HasPos (l : Poslist) (c q : ℕ) : Prop := ∃ a ∈ l, a.1 = c ∧ q ∈ a.2

/-- The row with docid `d` has the term at position `q` of column `c`. -/
def Occurs (l : Entries) (d : ℤ) (c q : ℕ) : Prop := ∃ e ∈ l, e.1 = d ∧ HasPos e.2 c q

/-- The doclist of the docids of both lists, with the positions of both. -/
structure IsUnion (desc : Bool) (l l' out : Entries) : Prop where
  doclist : IsDoclist desc out
  docids : ∀ d, d ∈ out.map (·.1) ↔ d ∈ l.map (·.1) ∨ d ∈ l'.map (·.1)
  positions : ∀ d c q, Occurs out d c q ↔ Occurs l d c q ∨ Occurs l' d c q

theorem hasPos_merged {l l' : Poslist} (h : IsPoslist l) (h' : IsPoslist l') (hno : NoClash l l') {c q : ℕ} :
    HasPos (mergedColumns l l') c q ↔ HasPos l c q ∨ HasPos l' c q := by
  have hjoin : ∀ a ∈ l, ∀ b ∈ l', a.1 = b.1 → (q ∈ (joinColumns a b).2 ↔ q ∈ a.2 ∨ q ∈ b.2) := by
    intro a ha b hb hab
    rw [joinColumns, joined_of_not_clash (hno a ha b hb hab),
      mem_union (h.positions a ha) (h'.positions b hb)]
  constructor
  · rintro ⟨x, hx, rfl, hq⟩
    rcases (mem_mergedColumns h h').mp hx with ⟨hx, -⟩ | ⟨hx, -⟩ | ⟨a, ha, b, hb, hab, rfl⟩
    · exact .inl ⟨x, hx, rfl, hq⟩
    · exact .inr ⟨x, hx, rfl, hq⟩
    · exact ((hjoin a ha b hb hab).mp hq).imp (fun hq => ⟨a, ha, rfl, hq⟩)
        fun hq => ⟨b, hb, hab.symm, hq⟩
  · rintro (⟨a, ha, rfl, hq⟩ | ⟨b, hb, rfl, hq⟩)
    · by_cases hmem : a.1 ∈ l'.map (·.1)
      · obtain ⟨b, hb, hba⟩ := List.mem_map.mp hmem
        exact ⟨joinColumns a b, (mem_mergedColumns h h').mpr (.inr (.inr ⟨a, ha, b, hb, hba.symm, rfl⟩)),
          rfl, (hjoin a ha b hb hba.symm).mpr (.inl hq)⟩
      · exact ⟨a, (mem_mergedColumns h h').mpr (.inl ⟨ha, hmem⟩), rfl, hq⟩
    · by_cases hmem : b.1 ∈ l.map (·.1)
      · obtain ⟨a, ha, hab⟩ := List.mem_map.mp hmem
        exact ⟨joinColumns a b, (mem_mergedColumns h h').mpr (.inr (.inr ⟨a, ha, b, hb, hab, rfl⟩)),
          hab, (hjoin a ha b hb hab).mpr (.inr hq)⟩
      · exact ⟨b, (mem_mergedColumns h h').mpr (.inr (.inl ⟨hb, hmem⟩)), rfl, hq⟩

theorem isDoclist_readable (h : IsDoclist desc l) (hs : ∀ e ∈ l, Small e.2) : Readable l :=
  ⟨h.fits, h.poslists, hs⟩

variable {m : Entries}

/-- What a row of the merge is. -/
theorem mem_rows (h : Merges (Before desc) Prod.fst joinRows l1 l2 m) (h1 : IsDoclist desc l1)
    (h2 : IsDoclist desc l2) : e ∈ m ↔ (e ∈ l1 ∧ e.1 ∉ l2.map (·.1)) ∨ (e ∈ l2 ∧ e.1 ∉ l1.map (·.1)) ∨
      ∃ a ∈ l1, ∃ b ∈ l2, a.1 = b.1 ∧ e = joinRows a b :=
  Merges.mem_iff (before_trans desc) (before_irrefl desc) h h1.order h2.order

theorem joinRows_fst (a b : ℤ × Poslist) (_ : a.1 = b.1) : (joinRows a b).1 = a.1 := rfl

theorem isDoclist_merged (h : Merges (Before desc) Prod.fst joinRows l1 l2 m) (h1 : IsDoclist desc l1)
    (h2 : IsDoclist desc l2) : IsDoclist desc m where
  order := Merges.ascends joinRows_fst (before_trans desc) h h1.order h2.order
  fits e he := by
    rcases (mem_rows h h1 h2).mp he with ⟨he, -⟩ | ⟨he, -⟩ | ⟨a, ha, b, hb, -, rfl⟩
    · exact h1.fits e he
    · exact h2.fits e he
    · exact h1.fits a ha
  poslists e he := by
    rcases (mem_rows h h1 h2).mp he with ⟨he, -⟩ | ⟨he, -⟩ | ⟨a, ha, b, hb, -, rfl⟩
    · exact h1.poslists e he
    · exact h2.poslists e he
    · exact isPoslist_merged (h1.poslists a ha) (h2.poslists b hb)

theorem isUnion_merged (h : Merges (Before desc) Prod.fst joinRows l1 l2 m) (h1 : IsDoclist desc l1)
    (h2 : IsDoclist desc l2) (hno : NoClashes l1 l2) : IsUnion desc l1 l2 m where
  doclist := isDoclist_merged h h1 h2
  docids _ := Merges.mem_keys joinRows_fst h
  positions d c q := by
    constructor
    · rintro ⟨e, he, rfl, hq⟩
      rcases (mem_rows h h1 h2).mp he with ⟨he, -⟩ | ⟨he, -⟩ | ⟨a, ha, b, hb, hab, rfl⟩
      · exact .inl ⟨e, he, rfl, hq⟩
      · exact .inr ⟨e, he, rfl, hq⟩
      · exact ((hasPos_merged (h1.poslists a ha) (h2.poslists b hb) (hno a ha b hb hab)).mp hq).imp
          (fun hq => ⟨a, ha, rfl, hq⟩) fun hq => ⟨b, hb, hab.symm, hq⟩
    · rintro (⟨a, ha, rfl, hq⟩ | ⟨b, hb, rfl, hq⟩)
      · by_cases hmem : a.1 ∈ l2.map (·.1)
        · obtain ⟨b, hb, hba⟩ := List.mem_map.mp hmem
          exact ⟨joinRows a b, (mem_rows h h1 h2).mpr (.inr (.inr ⟨a, ha, b, hb, hba.symm, rfl⟩)), rfl,
            (hasPos_merged (h1.poslists a ha) (h2.poslists b hb) (hno a ha b hb hba.symm)).mpr (.inl hq)⟩
        · exact ⟨a, (mem_rows h h1 h2).mpr (.inl ⟨ha, hmem⟩), rfl, hq⟩
      · by_cases hmem : b.1 ∈ l1.map (·.1)
        · obtain ⟨a, ha, hab⟩ := List.mem_map.mp hmem
          exact ⟨joinRows a b, (mem_rows h h1 h2).mpr (.inr (.inr ⟨a, ha, b, hb, hab, rfl⟩)), hab,
            (hasPos_merged (h1.poslists a ha) (h2.poslists b hb) (hno a ha b hb hab)).mpr (.inr hq)⟩
        · exact ⟨b, (mem_rows h h1 h2).mpr (.inr (.inl ⟨hb, hmem⟩)), rfl, hq⟩

/-- A row of each list, and where the merge compares them their docids are near. -/
def Comparable (desc : Bool) (l l' : Entries) : Prop :=
  ∀ e ∈ l, ∀ f ∈ l', Meets (Before desc) Prod.fst l l' e f → Near desc e.1 f.1

/-- Where the rows come out as those of a doclist, the comparisons were right. -/
theorem comparable_of_ascends (h1 : IsDoclist desc l1) (h2 : IsDoclist desc l2)
    (h : Ascends (Before desc) Prod.fst (orRows desc l1 l2)) : Comparable desc l1 l2 := by
  intro e he f hf hmeets
  have hzero : ∀ a ∈ l1, ∀ b ∈ l2, rowCmp desc a b = 0 ↔ a.1 = b.1 := fun a ha b hb =>
    docidCmp_eq_zero (h1.fits a ha) (h2.fits b hb)
  exact (right_iff_near (h1.fits e he) (h2.fits f hf)).mp
    (right_of_ascends (before_trans desc) (before_irrefl desc) h1.order h2.order joinRows_fst hzero h e he
      f hf hmeets)

theorem merges_of_comparable (h1 : IsDoclist desc l1) (h2 : IsDoclist desc l2)
    (h : Comparable desc l1 l2) :
    Merges (Before desc) Prod.fst joinRows l1 l2 (orRows desc l1 l2) :=
  mergeBy_merges (before_trans desc) (before_irrefl desc) h1.order h2.order fun e he f hf hmeets =>
    (right_iff_near (h1.fits e he) (h2.fits f hf)).mpr (h e he f hf hmeets)

/-- Where two position lists clash, the merge has lost a position of theirs. -/
theorem noClash_of_hasPos {l l' : Poslist} (h : IsPoslist l) (h' : IsPoslist l')
    (hpos : ∀ c q, HasPos l c q ∨ HasPos l' c q → HasPos (mergedColumns l l') c q) : NoClash l l' := by
  rintro a ha b hb hab ⟨hlast, hboth⟩
  have hno := last_not_mem_joined (h.positions a ha) (h'.positions b hb) hboth
  obtain ⟨x, hx, hxa, hq⟩ := hpos a.1 LAST
    (hlast.imp (fun h => ⟨a, ha, rfl, h⟩) fun h => ⟨b, hb, hab.symm, h⟩)
  rcases (mem_mergedColumns h h').mp hx with ⟨-, hk⟩ | ⟨-, hk⟩ | ⟨a', ha', b', hb', hab', rfl⟩
  · exact hk (hxa ▸ hab ▸ List.mem_map_of_mem hb)
  · exact hk (hxa ▸ List.mem_map_of_mem ha)
  · obtain rfl : a' = a := Ascends.key_inj Nat.lt_irrefl h.columns ha' ha hxa
    obtain rfl : b' = b := Ascends.key_inj Nat.lt_irrefl h'.columns hb' hb (hab'.symm.trans hab)
    exact hno hq

theorem noClashes_of_isUnion (h : Merges (Before desc) Prod.fst joinRows l1 l2 m)
    (h1 : IsDoclist desc l1) (h2 : IsDoclist desc l2) (hm : IsUnion desc l1 l2 m) : NoClashes l1 l2 := by
  intro e he f hf hef
  refine noClash_of_hasPos (h1.poslists e he) (h2.poslists f hf) fun c q hcq => ?_
  obtain ⟨x, hx, hxe, hq⟩ := (hm.positions e.1 c q).mpr
    (hcq.imp (fun h => ⟨e, he, rfl, h⟩) fun h => ⟨f, hf, hef.symm, h⟩)
  rcases (mem_rows h h1 h2).mp hx with ⟨-, hk⟩ | ⟨-, hk⟩ | ⟨a, ha, b, hb, hab, rfl⟩
  · exact absurd (hxe ▸ hef ▸ List.mem_map_of_mem hf) hk
  · exact absurd (hxe ▸ List.mem_map_of_mem he) hk
  · obtain rfl : a = e := Ascends.key_inj (before_irrefl desc) h1.order ha he hxe
    obtain rfl : b = f := Ascends.key_inj (before_irrefl desc) h2.order hb hf (hab.symm.trans hef)
    exact hq

/-- The rows of the merge are well formed, but for their order. -/
theorem readable_orRows (h1 : IsDoclist desc l1) (h2 : IsDoclist desc l2) :
    ∀ e ∈ orRows desc l1 l2, (-2 ^ 63 ≤ e.1 ∧ e.1 < 2 ^ 63) ∧ IsPoslist e.2 := by
  rw [orRows]
  induction l1 generalizing l2 with
  | nil =>
    rw [mergeBy]
    exact fun e he => ⟨h2.fits e he, h2.poslists e he⟩
  | cons a l1 ih =>
    induction l2 with
    | nil =>
      rw [mergeBy]
      exact fun e he => ⟨h1.fits e he, h1.poslists e he⟩
    | cons b l2 ih2 =>
      have ha := List.mem_cons_self (a := a) (l := l1)
      have hb := List.mem_cons_self (a := b) (l := l2)
      rw [mergeBy]
      split
      · refine List.forall_mem_cons.mpr ⟨⟨h1.fits a ha, ?_⟩, ih h1.of_cons h2.of_cons⟩
        exact isPoslist_merged (h1.poslists a ha) (h2.poslists b hb)
      · split
        · exact List.forall_mem_cons.mpr ⟨⟨h1.fits a ha, h1.poslists a ha⟩, ih h1.of_cons h2⟩
        · exact List.forall_mem_cons.mpr ⟨⟨h2.fits b hb, h2.poslists b hb⟩, ih2 h2.of_cons⟩

/-- `fts3DoclistOrMerge` writes the union of two doclists, in the room it allocates, if and only if the
docids that it compares are near and no position reads like the end of a list. -/
theorem orMerge_union_iff (desc : Bool) (l1 l2 : Entries) (h1 : IsDoclist desc l1)
    (h2 : IsDoclist desc l2) (hs1 : ∀ e ∈ l1, Small e.2) (hs2 : ∀ e ∈ l2, Small e.2) :
    (∃ aOut out, fts3DoclistOrMerge desc (doclistBytes desc l1) (doclistBytes desc l2) = some aOut ∧
      aOut = doclistBytes desc out ∧ IsUnion desc l1 l2 out ∧ aOut.length ≤
        (doclistBytes desc l1).length + (doclistBytes desc l2).length + FTS3_VARINT_MAX - 1) ↔
      Comparable desc l1 l2 ∧ NoClashes l1 l2 := by
  have hbytes := orMerge_bytes desc (isDoclist_readable h1 hs1) (isDoclist_readable h2 hs2)
  constructor
  · rintro ⟨aOut, out, hrun, rfl, hout, -⟩
    have hrows := readable_orRows h1 h2
    have hsame : orRows desc l1 l2 = out := by
      rw [hbytes, Option.some.injEq] at hrun
      exact entriesBytes_inj (fun e he => (hrows e he).1) hout.doclist.fits (fun e he => (hrows e he).2)
        hout.doclist.poslists hrun
    subst hsame
    have hcomp := comparable_of_ascends h1 h2 hout.doclist.order
    exact ⟨hcomp, noClashes_of_isUnion (merges_of_comparable h1 h2 hcomp) h1 h2 hout⟩
  · rintro ⟨hcomp, hno⟩
    have hm := merges_of_comparable h1 h2 hcomp
    exact ⟨_, _, hbytes, rfl, isUnion_merged hm h1 h2 hno, length_merged hm h1 h2 hno⟩

theorem orMerge_union_iff_two : ∃ l1 l2 : Entries, ∃ (_ : IsDoclist true l1) (_ : IsDoclist true l2)
    (_ : ∀ e ∈ l1, Small e.2) (_ : ∀ e ∈ l2, Small e.2), (∃ aOut out,
      fts3DoclistOrMerge true (doclistBytes true l1) (doclistBytes true l2) = some aOut ∧
      aOut = doclistBytes true out ∧ IsUnion true l1 l2 out ∧ aOut.length ≤
        (doclistBytes true l1).length + (doclistBytes true l2).length + FTS3_VARINT_MAX - 1) ↔
      Comparable true l1 l2 ∧ NoClashes l1 l2 :=
  ⟨[(7, [(0, [1, 5])]), (-3, [])], [(7, [(0, [2]), (4, [0])])], by decide +kernel, by decide +kernel,
    by decide +kernel, by decide +kernel,
    orMerge_union_iff true _ _ (by decide +kernel) (by decide +kernel) (by decide +kernel)
      (by decide +kernel)⟩

/-- The difference of the docids wraps, and the later one is written first. -/
theorem orMerge_swaps : ∃ l1 l2 : Entries, IsDoclist false l1 ∧ IsDoclist false l2 ∧
    (∀ e ∈ l1, Small e.2) ∧ (∀ e ∈ l2, Small e.2) ∧
    fts3DoclistOrMerge false (doclistBytes false l1) (doclistBytes false l2) =
      some (doclistBytes false [(1, [(0, [0])]), (-2 ^ 63, [(0, [0])])]) ∧
    ¬∃ aOut out, fts3DoclistOrMerge false (doclistBytes false l1) (doclistBytes false l2) = some aOut ∧
      aOut = doclistBytes false out ∧ IsUnion false l1 l2 out := by
  have hrun : fts3DoclistOrMerge false (doclistBytes false [(-2 ^ 63, [(0, [0])])])
      (doclistBytes false [(1, [(0, [0])])]) =
        some (doclistBytes false [(1, [(0, [0])]), (-2 ^ 63, [(0, [0])])]) := by decide +kernel
  refine ⟨[(-2 ^ 63, [(0, [0])])], [(1, [(0, [0])])], by decide +kernel, by decide +kernel,
    by decide +kernel, by decide +kernel, hrun, ?_⟩
  rintro ⟨aOut, out, h, rfl, hout⟩
  rw [hrun, Option.some.injEq] at h
  have hsame : [((1 : ℤ), [(0, [0])]), (-2 ^ 63, [(0, [0])])] = out :=
    entriesBytes_inj (by decide +kernel) hout.doclist.fits (by decide +kernel) hout.doclist.poslists h
  have horder := hout.doclist.order
  rw [← hsame] at horder
  exact absurd horder (by decide +kernel)

end Sqlite.Doclist
