import Sqlite.Doclist.PhraseColumns

/-! The doclist of a phrase, written over the right-hand doclist: the writes stay behind the bytes still to
be read, but for the first docid. -/
namespace Sqlite.Doclist

open Fts (sqlite3Fts3PutVarint sqlite3Fts3GetVarint)
open Foundation

/-- The row of the phrase for a row of the right-hand list, if there is one. -/
def rowOut (n : ℕ) (l1 : Entries) (f : ℤ × Poslist) : Option (ℤ × Poslist) :=
  (l1.find? fun e => e.1 = f.1).bind fun e =>
    if phraseCols n e.2 f.2 = [] then none else some (f.1, phraseCols n e.2 f.2)

/-- The rows of the phrase. -/
def rowsOut (n : ℕ) (l1 l2 : Entries) : Entries := l2.filterMap (rowOut n l1)

/-- The bytes that docid `d` takes after the row `last`; none are taken into account for the first one. -/
def need (desc : Bool) (last : Option ℤ) (d : ℤ) : ℕ :=
  (last.map fun c => (sqlite3Fts3PutVarint (delta desc (some c) d)).length).getD 0

/-- What is still to be read of the right-hand list, when the output is `out` and its last docid `last`. -/
def RightAt (desc : Bool) (o : Out) (p2 : Option ℕ) (i2 : ℤ) (out : List ℕ) (last : Option ℤ) :
    Entries → Prop
  | [] => p2 = none ∧ (∃ g, o.a = out ++ g) ∧ o.p = out.length
  | f :: l => i2 = f.1 ∧ ∃ k, p2 = some k ∧ o.Room none k (need desc last f.1) ∧
      o.At none k out (poslistBytes f.2 ++ entriesBytes desc (some f.1) l)

/-- The state of the loop: the rows `pre` and `q` have been read. -/
structure RowsAt (desc : Bool) (n : ℕ) (l1 l2 pre suf q r : Entries) (o : Out) (p1 : Option (List ℕ))
    (p2 : Option ℕ) (i1 i2 iPrev : ℤ) (bFirstOut : Bool) : Prop where
  right : l2 = pre ++ suf
  left : l1 = q ++ r
  passed : ∀ e ∈ q, ∀ f ∈ suf, Before desc e.1 f.1
  cursor1 : Cursor desc p1 i1 r
  cursor2 : RightAt desc o p2 i2 (entriesBytes desc none (rowsOut n l1 pre))
    (lastDocid none (rowsOut n l1 pre)) suf
  written : Written iPrev bFirstOut (lastDocid none (rowsOut n l1 pre))
  size : o.a.length = (doclistBytes desc l2).length

variable {desc : Bool} {n : ℕ} {l l1 l2 pre suf q r : Entries} {o o' : Out} {e f : ℤ × Poslist}
  {out : List ℕ} {last : Option ℤ} {k : ℕ}

theorem length_delta_add {c d g : ℤ} (hc : -2 ^ 63 ≤ c ∧ c < 2 ^ 63) (hg : -2 ^ 63 ≤ g ∧ g < 2 ^ 63)
    (hcd : Before desc c d) (hdg : Before desc d g) :
    (sqlite3Fts3PutVarint (delta desc (some c) g)).length ≤
      (sqlite3Fts3PutVarint (delta desc (some c) d)).length +
        (sqlite3Fts3PutVarint (delta desc (some d) g)).length := by
  have hadd : delta desc (some c) g = delta desc (some c) d + delta desc (some d) g := by
    cases desc <;> simp only [Before, delta, u64, if_true, if_false, Bool.false_eq_true] at hcd hdg ⊢ <;>
      omega
  rw [hadd]
  exact length_putVarint_add (hadd ▸ delta_lt desc (some c) g)

/-- The next row of the right-hand list is read. -/
theorem readRow_next (hat : o.At none k out (entriesBytes desc (some e.1) l))
    (hfits : ∀ f ∈ l, -2 ^ 63 ≤ f.1 ∧ f.1 < 2 ^ 63)
    (hlast : ∀ f ∈ l, o.Room none (k + (sqlite3Fts3PutVarint (delta desc (some e.1) f.1)).length)
      (need desc last f.1)) :
    ∃ p2 i2, readRow desc o.a.length o k e.1 = some (p2, i2) ∧ RightAt desc o p2 i2 out last l := by
  have hsize := hat.size
  rw [Option.getD_none] at hsize
  have hright : (if o.a.length ≤ k then [] else o.right none k) = entriesBytes desc (some e.1) l := by
    split
    case isTrue hle => exact (List.eq_nil_of_length_eq_zero (by omega)).symm
    case isFalse => exact hat.right
  rw [readRow, hright]
  cases l with
  | nil => exact ⟨none, e.1, rfl, rfl, hat.written, hat.pos⟩
  | cons f l =>
    obtain ⟨p, i, hget, rfl, rfl⟩ := getDelta_next desc hfits e.1
    refine ⟨some (k + (sqlite3Fts3PutVarint (delta desc (some e.1) f.1)).length), f.1, ?_, rfl, _, rfl,
      hlast f List.mem_cons_self, ?_⟩
    · simp only [hget, Option.bind_eq_bind, Option.bind_some, Option.map_some]
      congr 3
      rw [entriesBytes, List.append_assoc, List.length_append]
      omega
    · rw [entriesBytes, List.append_assoc] at hat
      exact hat.read

theorem find_row (h1 : IsDoclist desc l1) (he : e ∈ l1) (hef : e.1 = f.1) :
    rowOut n l1 f = if phraseCols n e.2 f.2 = [] then none else some (f.1, phraseCols n e.2 f.2) := by
  have hfind : l1.find? (fun x => x.1 = f.1) = some e := by
    cases hx : l1.find? fun x => x.1 = f.1 with
    | none =>
      rw [List.find?_eq_none] at hx
      exact absurd hef (by simpa using hx e he)
    | some x =>
      have hxf : x.1 = f.1 := by simpa using List.find?_some hx
      rw [Ascends.key_inj (before_irrefl desc) h1.order (List.mem_of_find?_eq_some hx) he
        (hxf.trans hef.symm)]
  rw [rowOut, hfind, Option.bind_some]

theorem rowOut_none (h : f.1 ∉ l1.map (·.1)) : rowOut n l1 f = none := by
  have hfind : l1.find? (fun x => x.1 = f.1) = none := by
    rw [List.find?_eq_none]
    intro x hx hxf
    exact h (List.mem_map.mpr ⟨x, hx, by simpa using hxf⟩)
  rw [rowOut, hfind, Option.bind_none]

theorem rowsOut_concat (n : ℕ) (l1 pre : Entries) (f : ℤ × Poslist) :
    rowsOut n l1 (pre ++ [f]) = rowsOut n l1 pre ++ (rowOut n l1 f).toList := by
  rw [rowsOut, List.filterMap_append, rowsOut]
  cases h : rowOut n l1 f with
  | none => rw [List.filterMap_cons_none h, List.filterMap_nil, Option.toList_none]
  | some x => rw [List.filterMap_cons_some h, List.filterMap_nil, Option.toList_some]

theorem mem_rowsOut {x : ℤ × Poslist} (h : x ∈ rowsOut n l1 l) :
    ∃ e ∈ l1, ∃ f ∈ l, e.1 = f.1 ∧ x = (f.1, phraseCols n e.2 f.2) ∧ phraseCols n e.2 f.2 ≠ [] := by
  obtain ⟨f, hf, hrow⟩ := List.mem_filterMap.mp h
  obtain ⟨e, hfind, hx⟩ := Option.bind_eq_some_iff.mp hrow
  split at hx
  case isTrue => exact absurd hx (by simp)
  case isFalse hne =>
    exact ⟨e, List.mem_of_find?_eq_some hfind, f, hf, by simpa using List.find?_some hfind,
      (Option.some.inj hx).symm, hne⟩

/-- The last docid written is that of a row read. -/
theorem lastDocid_mem {c : ℤ} (h : lastDocid none (rowsOut n l1 l) = some c) : c ∈ l.map (·.1) := by
  rw [lastDocid, Option.or_none, Option.map_eq_some_iff] at h
  obtain ⟨x, hx, rfl⟩ := h
  obtain ⟨e, -, f, hf, -, rfl, -⟩ := mem_rowsOut (List.mem_of_getLast? hx)
  exact List.mem_map.mpr ⟨f, hf, rfl⟩

theorem lastDocid_eq_none (h : lastDocid none l = none) : l = [] := by
  rw [lastDocid, Option.or_none, Option.map_eq_none_iff, List.getLast?_eq_none_iff] at h
  exact h

theorem need_le (desc : Bool) (last : Option ℤ) (d : ℤ) :
    need desc last d ≤ (sqlite3Fts3PutVarint (delta desc last d)).length := by
  cases last with
  | none => exact Nat.zero_le _
  | some c => exact le_rfl

/-- There is room for the next docid, once there was room for the one of row `f`. -/
theorem need_next {g : ℤ × Poslist} {p : ℕ} (hk : p + need desc last f.1 ≤ k)
    (hlast : ∀ c, last = some c → Before desc c f.1 ∧ -2 ^ 63 ≤ c ∧ c < 2 ^ 63)
    (hg : -2 ^ 63 ≤ g.1 ∧ g.1 < 2 ^ 63) (hfg : Before desc f.1 g.1) :
    p + need desc last g.1 ≤ k + (sqlite3Fts3PutVarint (delta desc (some f.1) g.1)).length := by
  cases last with
  | none =>
    simp only [need, Option.map_none, Option.getD_none] at hk ⊢
    omega
  | some c =>
    obtain ⟨hcf, hc⟩ := hlast c rfl
    have := length_delta_add hc hg hcf hfg
    simp only [need, Option.map_some, Option.getD_some] at hk ⊢
    omega

/-- The two lists, as the loop takes them. -/
structure Inputs (desc : Bool) (l1 l2 : Entries) : Prop where
  left : IsDoclist desc l1
  right : IsDoclist desc l2
  left_ne : ∀ e ∈ l1, e.2 ≠ []
  right_ne : ∀ f ∈ l2, f.2 ≠ []
  near : ∀ e ∈ l1, ∀ f ∈ l2, Near desc e.1 f.1

variable {p1 : Option (List ℕ)} {p2 : Option ℕ} {i1 i2 iPrev : ℤ} {bFirstOut : Bool} {m : ℕ}

theorem RowsAt.lists (h : RowsAt desc n l1 l2 pre (f :: suf) q (e :: r) o p1 p2 i1 i2 iPrev bFirstOut)
    (hl : Inputs desc l1 l2) : e ∈ l1 ∧ f ∈ l2 ∧ (∀ x ∈ r, x ∈ l1 ∧ Before desc e.1 x.1) ∧
      (∀ x ∈ suf, x ∈ l2 ∧ Before desc f.1 x.1) ∧ ∀ x ∈ pre, x ∈ l2 ∧ Before desc x.1 f.1 := by
  have hleft := hl.left.order
  have hright := hl.right.order
  rw [h.left] at hleft
  rw [h.right] at hright
  obtain ⟨-, hleft, -⟩ := List.pairwise_append.mp hleft
  obtain ⟨-, hright, hacross⟩ := List.pairwise_append.mp hright
  refine ⟨by rw [h.left]; simp, by rw [h.right]; simp, fun x hx => ⟨by rw [h.left]; simp [hx], ?_⟩,
    fun x hx => ⟨by rw [h.right]; simp [hx], ?_⟩, fun x hx => ⟨by rw [h.right]; simp [hx], ?_⟩⟩
  · exact (List.pairwise_cons.mp hleft).1 x hx
  · exact (List.pairwise_cons.mp hright).1 x hx
  · exact hacross x hx f List.mem_cons_self

theorem RowsAt.last_before
    (h : RowsAt desc n l1 l2 pre (f :: suf) q (e :: r) o p1 p2 i1 i2 iPrev bFirstOut)
    (hl : Inputs desc l1 l2) (c : ℤ) (hc : lastDocid none (rowsOut n l1 pre) = some c) :
    Before desc c f.1 ∧ -2 ^ 63 ≤ c ∧ c < 2 ^ 63 := by
  obtain ⟨x, hx, rfl⟩ := List.mem_map.mp (lastDocid_mem hc)
  obtain ⟨hmem, hbefore⟩ := (h.lists hl).2.2.2.2 x hx
  exact ⟨hbefore, hl.right.fits x hmem⟩

/-- The left-hand row comes first. -/
theorem RowsAt.skip_left (h : RowsAt desc n l1 l2 pre (f :: suf) q (e :: r) o p1 p2 i1 i2 iPrev bFirstOut)
    (hl : Inputs desc l1 l2) (hlt : Before desc e.1 f.1) : ∃ p1' i1',
      phraseRows desc n (doclistBytes desc l2).length (m + 1) o p1 p2 i1 i2 iPrev bFirstOut =
        phraseRows desc n (doclistBytes desc l2).length m o p1' p2 i1' i2 iPrev bFirstOut ∧
      RowsAt desc n l1 l2 pre (f :: suf) (q ++ [e]) r o p1' p2 i1' i2 iPrev bFirstOut := by
  obtain ⟨he, hf, hr, hsuf, -⟩ := h.lists hl
  obtain ⟨rfl, rfl⟩ := h.cursor1
  obtain ⟨rfl, k, rfl, hroom, hat⟩ := id h.cursor2
  obtain ⟨p1', i1', hget, hc1⟩ := getDelta_next desc (l := r)
    (fun x hx => hl.left.fits x (hr x hx).1) e.1
  have hright := (right_iff_near (hl.left.fits e he) (hl.right.fits f hf)).mpr (hl.near e he f hf)
  have hcmp : DOCID_CMP desc e.1 f.1 < 0 := by
    rcases Int.lt_trichotomy (DOCID_CMP desc e.1 f.1) 0 with hneg | hzero | hpos
    · exact hneg
    · have heq : e.1 = f.1 := hright.zero hzero
      exact absurd (heq ▸ hlt) (before_irrefl desc _)
    · exact absurd (before_trans desc _ _ _ hlt (hright.pos hpos)) (before_irrefl desc _)
  refine ⟨p1', i1', ?_, ?_⟩
  · rw [phraseRows]
    simp only [hcmp.ne, hcmp, if_false, if_true, poslistCopy (hl.left.poslists e he), hget,
      Option.bind_eq_bind, Option.bind_some]
  · refine ⟨h.right, by rw [h.left]; simp, fun x hx g hg => ?_, hc1, h.cursor2, h.written, h.size⟩
    rcases List.mem_append.mp hx with hx | hx
    · exact h.passed x hx g hg
    · obtain rfl : x = e := by simpa using hx
      rcases List.mem_cons.mp hg with rfl | hg
      · exact hlt
      · exact before_trans desc _ _ _ hlt (hsuf g hg).2

theorem RowsAt.absent (h : RowsAt desc n l1 l2 pre (f :: suf) q (e :: r) o p1 p2 i1 i2 iPrev bFirstOut)
    (hl : Inputs desc l1 l2) (hlt : Before desc f.1 e.1) : f.1 ∉ l1.map (·.1) := by
  intro hmem
  obtain ⟨x, hx, hxf⟩ := List.mem_map.mp hmem
  rw [h.left] at hx
  rcases List.mem_append.mp hx with hx | hx
  · exact before_irrefl desc f.1 (hxf ▸ h.passed x hx f List.mem_cons_self)
  · rcases List.mem_cons.mp hx with rfl | hx
    · exact before_irrefl desc f.1 (hxf ▸ hlt)
    · have hfx := before_trans desc _ _ _ hlt ((h.lists hl).2.2.1 x hx).2
      rw [hxf] at hfx
      exact before_irrefl desc f.1 hfx

/-- The right-hand row comes first. -/
theorem RowsAt.skip_right
    (h : RowsAt desc n l1 l2 pre (f :: suf) q (e :: r) o p1 p2 i1 i2 iPrev bFirstOut)
    (hl : Inputs desc l1 l2) (hlt : Before desc f.1 e.1) : ∃ p2' i2',
      phraseRows desc n (doclistBytes desc l2).length (m + 1) o p1 p2 i1 i2 iPrev bFirstOut =
        phraseRows desc n (doclistBytes desc l2).length m o p1 p2' i1 i2' iPrev bFirstOut ∧
      RowsAt desc n l1 l2 (pre ++ [f]) suf q (e :: r) o p1 p2' i1 i2' iPrev bFirstOut := by
  obtain ⟨he, hf, hr, hsuf, -⟩ := h.lists hl
  obtain ⟨rfl, rfl⟩ := h.cursor1
  obtain ⟨rfl, k, rfl, hroom, hat⟩ := id h.cursor2
  have hright := (right_iff_near (hl.left.fits e he) (hl.right.fits f hf)).mpr (hl.near e he f hf)
  have hcmp : 0 < DOCID_CMP desc e.1 f.1 := by
    rcases Int.lt_trichotomy (DOCID_CMP desc e.1 f.1) 0 with hneg | hzero | hpos
    · exact absurd (before_trans desc _ _ _ hlt (hright.neg hneg)) (before_irrefl desc _)
    · have heq : e.1 = f.1 := hright.zero hzero
      exact absurd (heq ▸ hlt) (before_irrefl desc _)
    · exact hpos
  have hnone : rowOut n l1 f = none := rowOut_none (h.absent hl hlt)
  have hrows : rowsOut n l1 (pre ++ [f]) = rowsOut n l1 pre := by
    rw [rowsOut_concat, hnone, Option.toList_none, List.append_nil]
  obtain ⟨p2', i2', hread, hc2⟩ := readRow_next (l := suf) (e := f) hat.read
    (fun x hx => hl.right.fits x (hsuf x hx).1) fun g hg hsrc =>
      need_next ((hroom hsrc).trans (Nat.le_add_right _ _)) (h.last_before hl)
        (hl.right.fits g (hsuf g hg).1) (hsuf g hg).2
  refine ⟨p2', i2', ?_, ?_⟩
  · rw [h.size] at hread
    rw [phraseRows]
    simp only [hcmp.ne', not_lt_of_gt hcmp, if_false, hat.right, poslistCopy (hl.right.poslists f hf), hread,
      Option.bind_eq_bind, Option.bind_some]
  · refine ⟨by rw [h.right]; simp, h.left, fun x hx g hg => h.passed x hx g (List.mem_cons_of_mem f hg),
      h.cursor1, hrows ▸ hc2, hrows ▸ h.written, h.size⟩

/-- Both lists have the row. There has to be room for the docid. -/
theorem RowsAt.both (h : RowsAt desc n l1 l2 pre (f :: suf) q (e :: r) o p1 (some k) i1 i2 iPrev bFirstOut)
    (hl : Inputs desc l1 l2) (hef : e.1 = f.1)
    (hroom : o.Room none k
      (sqlite3Fts3PutVarint (delta desc (lastDocid none (rowsOut n l1 pre)) f.1)).length) :
    ∃ o' p1' p2' i1' i2' iPrev' bFirstOut',
      phraseRows desc n (doclistBytes desc l2).length (m + 1) o p1 (some k) i1 i2 iPrev bFirstOut =
        phraseRows desc n (doclistBytes desc l2).length m o' p1' p2' i1' i2' iPrev' bFirstOut' ∧
      RowsAt desc n l1 l2 (pre ++ [f]) suf (q ++ [e]) r o' p1' p2' i1' i2' iPrev' bFirstOut' ∧
      o'.late = o.late := by
  obtain ⟨he, hf, hr, hsuf, -⟩ := h.lists hl
  obtain ⟨rfl, rfl⟩ := h.cursor1
  obtain ⟨rfl, k', hk, -, hat⟩ := id h.cursor2
  obtain rfl : k = k' := Option.some.inj hk
  obtain ⟨p1', i1', hget, hc1⟩ := getDelta_next desc (l := r)
    (fun x hx => hl.left.fits x (hr x hx).1) e.1
  have hzero : DOCID_CMP desc e.1 f.1 = 0 :=
    (docidCmp_eq_zero (hl.left.fits e he) (hl.right.fits f hf)).mpr hef
  have hdocid : fts3PutDeltaVarint3 desc iPrev bFirstOut e.1 =
      sqlite3Fts3PutVarint (delta desc (lastDocid none (rowsOut n l1 pre)) f.1) := by
    rw [hef]
    exact putDelta desc h.written f.1
  have hput := Out.Step.of_put hat hroom
  obtain ⟨o2, p2', hrun, hstep⟩ := poslistPhraseMerge_hits (n := n)
    (entriesBytes desc (some e.1) r) (hl.left.poslists e he) (hl.right.poslists f hf)
    (hl.left_ne e he) (hl.right_ne f hf) hput.state hput.room
  have hall := hput.trans hstep
  have hrow := find_row (n := n) hl.left he hef
  have hsize : o2.a.length = (doclistBytes desc l2).length := hall.size.trans h.size
  have hfinish : ∀ {o3 : Out} {iPrev' : ℤ} {bFirstOut' : Bool}, o3.a.length = o2.a.length →
      o3.At none p2' (entriesBytes desc none (rowsOut n l1 (pre ++ [f])))
        (entriesBytes desc (some f.1) suf) →
      (∀ g ∈ suf, o3.Room none (p2' + (sqlite3Fts3PutVarint (delta desc (some f.1) g.1)).length)
        (need desc (lastDocid none (rowsOut n l1 (pre ++ [f]))) g.1)) →
      Written iPrev' bFirstOut' (lastDocid none (rowsOut n l1 (pre ++ [f]))) →
      ∃ p2 i2, readRow desc (doclistBytes desc l2).length o3 p2' f.1 = some (p2, i2) ∧
        RowsAt desc n l1 l2 (pre ++ [f]) suf (q ++ [e]) r o3 p1' p2 i1' i2 iPrev' bFirstOut' := by
    intro o3 iPrev' bFirstOut' ha hat3 hneed hwritten
    obtain ⟨p2, i2, hread, hc2⟩ :=
      readRow_next (e := f) hat3 (fun x hx => hl.right.fits x (hsuf x hx).1) hneed
    rw [ha, hsize] at hread
    refine ⟨p2, i2, hread, by rw [h.right]; simp, by rw [h.left]; simp, fun x hx g hg => ?_, hc1, hc2,
      hwritten, ha.trans hsize⟩
    rcases List.mem_append.mp hx with hx | hx
    · exact h.passed x hx g (List.mem_cons_of_mem f hg)
    · obtain rfl : x = e := by simpa using hx
      exact hef ▸ (hsuf g hg).2
  have hround : ∀ {o3 : Out} {iPrev' : ℤ} {bFirstOut' : Bool} {p2 : Option ℕ} {i2 : ℤ},
      (if (!(phraseCols n e.2 f.2).isEmpty) = true then o2 else { o2 with p := o.p }) = o3 →
      (if (!(phraseCols n e.2 f.2).isEmpty) = true then e.1 else iPrev) = iPrev' →
      (if (!(phraseCols n e.2 f.2).isEmpty) = true then true else bFirstOut) = bFirstOut' →
      readRow desc (doclistBytes desc l2).length o3 p2' f.1 = some (p2, i2) →
      phraseRows desc n (doclistBytes desc l2).length (m + 1) o
          (some (poslistBytes e.2 ++ entriesBytes desc (some e.1) r)) (some k) e.1 f.1 iPrev bFirstOut =
        phraseRows desc n (doclistBytes desc l2).length m o3 p1' p2 i1' i2 iPrev' bFirstOut' := by
    rintro o3 iPrev' bFirstOut' p2 i2 rfl rfl rfl hread
    rw [phraseRows]
    simp only [hzero, if_true, hdocid, hrun, hget, hread, Option.bind_eq_bind, Option.bind_some]
  have hp2 : o2.p ≤ p2' := hstep.room rfl
  have hpos := hall.state.pos
  by_cases hnil : phraseCols n e.2 f.2 = []
  · -- No position: the docid is taken back.
    have hempty : (!(phraseCols n e.2 f.2).isEmpty) = false := by simp [hnil]
    rw [if_pos hnil] at hrow
    have hrows : rowsOut n l1 (pre ++ [f]) = rowsOut n l1 pre := by
      rw [rowsOut_concat, hrow, Option.toList_none, List.append_nil]
    rw [hempty] at hround
    simp only [Bool.false_eq_true, if_false] at hround
    rw [hrows] at hfinish
    have hback : Out.At { o2 with p := o.p } none p2' (entriesBytes desc none (rowsOut n l1 pre))
        (entriesBytes desc (some f.1) suf) := by
      have hstate := hall.state
      rw [List.append_assoc] at hstate
      exact hstate.back hat.pos
    have hneed : ∀ g ∈ suf, Out.Room { o2 with p := o.p } none
        (p2' + (sqlite3Fts3PutVarint (delta desc (some f.1) g.1)).length)
        (need desc (lastDocid none (rowsOut n l1 pre)) g.1) := by
      intro g hg hsrc
      refine need_next ?_ (h.last_before hl) (hl.right.fits g (hsuf g hg).1) (hsuf g hg).2
      have hneed := need_le desc (lastDocid none (rowsOut n l1 pre)) f.1
      have hpos0 := hat.pos
      simp only [List.length_append] at hpos
      change o.p + _ ≤ p2'
      omega
    obtain ⟨p2, i2, hread, hrows'⟩ := @hfinish { o2 with p := o.p } _ _ rfl hback hneed h.written
    exact ⟨_, _, _, _, _, _, _, hround rfl rfl rfl hread, hrows', hall.late rfl⟩
  · have hempty : (!(phraseCols n e.2 f.2).isEmpty) = true := by simpa using hnil
    rw [if_neg hnil] at hrow
    have hrows : rowsOut n l1 (pre ++ [f]) = rowsOut n l1 pre ++ [(f.1, phraseCols n e.2 f.2)] := by
      rw [rowsOut_concat, hrow, Option.toList_some]
    have hlast : lastDocid none (rowsOut n l1 (pre ++ [f])) = some f.1 := by
      rw [hrows, lastDocid_concat]
    have hbytes : entriesBytes desc none (rowsOut n l1 pre) ++
        sqlite3Fts3PutVarint (delta desc (lastDocid none (rowsOut n l1 pre)) f.1) ++
        listOut (phraseCols n e.2 f.2) = entriesBytes desc none (rowsOut n l1 (pre ++ [f])) := by
      rw [hrows, entriesBytes_append, entriesBytes, entriesBytes, listOut, if_neg hnil, List.append_nil,
        List.append_assoc]
    rw [hempty] at hround
    simp only [if_true] at hround
    have hstate := hall.state
    rw [hbytes] at hstate
    rw [hlast] at hfinish
    obtain ⟨p2, i2, hread, hrows'⟩ := @hfinish o2 e.1 true rfl hstate
      (fun g _ _ => Nat.add_le_add_right hp2 _) ⟨hef, rfl⟩
    exact ⟨_, _, _, _, _, _, _, hround rfl rfl rfl hread, hrows', hall.late rfl⟩

/-! A write that was late stays on record. -/

section

variable {src : Option (List ℕ)} {nToken : ℤ} {isSaveLeft isExact : Bool}

theorem Out.late_put (h : o.late = true) (p2 : ℕ) (w : List ℕ) : (o.put p2 w).late = true := by
  rw [Out.put, h, Bool.true_or]

theorem phraseLoop_late {p1 : List ℕ} {p2 : ℕ} {iPos1 iPos2 iPrev : ℤ} {saved : Bool}
    {x : Out × List ℕ × ℕ × Bool} (hlate : o.late = true)
    (h : phraseLoop src nToken isSaveLeft isExact m o p1 p2 iPos1 iPos2 iPrev saved = some x) :
    x.1.late = true := by
  induction m generalizing o p1 p2 iPos1 iPos2 iPrev saved with
  | zero => simp [phraseLoop] at h
  | succ m ih =>
    rw [phraseLoop] at h
    simp only at h
    generalize ho : ite (iPos2 = iPos1 + nToken ∨ isExact = false ∧ iPos2 > iPos1 ∧ iPos2 ≤ iPos1 + nToken)
      (o.put p2 (fts3PutDeltaVarint iPrev ((if isSaveLeft = true then iPos1 else iPos2) + 2))) o = o1 at h
    have hlate1 : o1.late = true := by
      rw [← ho]
      split
      · exact Out.late_put hlate _ _
      · exact hlate
    split at h
    all_goals
      obtain ⟨y, -, h⟩ := Option.bind_eq_some_iff.mp h
      cases y with
      | none =>
        obtain rfl := Option.some.inj h
        exact hlate1
      | some y => exact ih hlate1 h

theorem phraseColumn_late {p1 : List ℕ} {p2 : ℕ} {iCol : ℤ} {x : Out × List ℕ × ℕ} (hlate : o.late = true)
    (h : phraseColumn src nToken isSaveLeft isExact o p1 p2 iCol = some x) : x.1.late = true := by
  rw [phraseColumn] at h
  obtain ⟨⟨q1, iPos1⟩, -, h⟩ := Option.bind_eq_some_iff.mp h
  obtain ⟨⟨q2, iPos2⟩, -, h⟩ := Option.bind_eq_some_iff.mp h
  obtain ⟨⟨o2, q1', q2', saved⟩, hloop, h⟩ := Option.bind_eq_some_iff.mp h
  obtain ⟨_, -, h⟩ := Option.bind_eq_some_iff.mp h
  obtain ⟨_, -, h⟩ := Option.bind_eq_some_iff.mp h
  obtain rfl := Option.some.inj h
  have hlate2 : o2.late = true := by
    refine phraseLoop_late ?_ hloop
    split
    · exact Out.late_put (Out.late_put hlate _ _) _ _
    · exact hlate
  change (if saved = true then o2 else { o2 with p := o.p }).late = true
  split
  · exact hlate2
  · exact hlate2

theorem phraseColumns_late {p1 : List ℕ} {p2 : ℕ} {iCol1 iCol2 : ℤ} {x : Out × List ℕ × ℕ}
    (hlate : o.late = true)
    (h : phraseColumns src nToken isSaveLeft isExact m o p1 p2 iCol1 iCol2 = some x) : x.1.late = true := by
  induction m generalizing o p1 p2 iCol1 iCol2 with
  | zero => simp [phraseColumns] at h
  | succ m ih =>
    rw [phraseColumns] at h
    split at h
    · obtain ⟨⟨o1, q1, q2⟩, hcol, h⟩ := Option.bind_eq_some_iff.mp h
      have hlate1 := phraseColumn_late hlate hcol
      obtain ⟨b1, -, h⟩ := Option.bind_eq_some_iff.mp h
      obtain ⟨b2, -, h⟩ := Option.bind_eq_some_iff.mp h
      split at h
      · obtain rfl := Option.some.inj h
        exact hlate1
      · obtain ⟨_, -, h⟩ := Option.bind_eq_some_iff.mp h
        obtain ⟨_, -, h⟩ := Option.bind_eq_some_iff.mp h
        exact ih hlate1 h
    · split at h
      all_goals
        obtain ⟨_, -, h⟩ := Option.bind_eq_some_iff.mp h
        obtain ⟨b, -, h⟩ := Option.bind_eq_some_iff.mp h
        split at h
        · obtain rfl := Option.some.inj h
          exact hlate
        · obtain ⟨_, -, h⟩ := Option.bind_eq_some_iff.mp h
          exact ih hlate h

theorem poslistPhraseMerge_late {p1 : List ℕ} {p2 : ℕ} {x : Bool × Out × List ℕ × ℕ} (hlate : o.late = true)
    (h : fts3PoslistPhraseMerge src nToken isSaveLeft isExact o p1 p2 = some x) : x.2.1.late = true := by
  rw [fts3PoslistPhraseMerge] at h
  obtain ⟨_, -, h⟩ := Option.bind_eq_some_iff.mp h
  obtain ⟨_, -, h⟩ := Option.bind_eq_some_iff.mp h
  obtain ⟨⟨o1, q1, q2⟩, hcols, h⟩ := Option.bind_eq_some_iff.mp h
  have hlate1 := phraseColumns_late hlate hcols
  obtain ⟨_, -, h⟩ := Option.bind_eq_some_iff.mp h
  obtain ⟨_, -, h⟩ := Option.bind_eq_some_iff.mp h
  simp only at h
  split at h
  · obtain rfl := Option.some.inj h
    exact hlate1
  · obtain rfl := Option.some.inj h
    exact Out.late_put hlate1 _ _

end

theorem phraseRows_late {nDist : ℤ} {nRight : ℕ} (hlate : o.late = true)
    (h : phraseRows desc nDist nRight m o p1 p2 i1 i2 iPrev bFirstOut = some o') : o'.late = true := by
  induction m generalizing o p1 p2 i1 i2 iPrev bFirstOut with
  | zero => simp [phraseRows] at h
  | succ m ih =>
    cases p1 with
    | none =>
      obtain rfl := Option.some.inj h
      exact hlate
    | some p1 =>
      cases p2 with
      | none =>
        obtain rfl := Option.some.inj h
        exact hlate
      | some p2 =>
        rw [phraseRows] at h
        simp only at h
        split at h
        · obtain ⟨⟨res, o1, q1, q2⟩, hmerge, h⟩ := Option.bind_eq_some_iff.mp h
          have hlate1 : o1.late = true := poslistPhraseMerge_late (Out.late_put hlate _ _) hmerge
          obtain ⟨_, -, h⟩ := Option.bind_eq_some_iff.mp h
          obtain ⟨_, -, h⟩ := Option.bind_eq_some_iff.mp h
          refine ih ?_ h
          change (if res = true then o1 else { o1 with p := o.p }).late = true
          split
          · exact hlate1
          · exact hlate1
        · split at h
          all_goals
            obtain ⟨_, -, h⟩ := Option.bind_eq_some_iff.mp h
            obtain ⟨_, -, h⟩ := Option.bind_eq_some_iff.mp h
            exact ih hlate h

/-- The offset after the docid of row `f`, which comes after the rows `pre`. -/
def docidEnd (desc : Bool) (pre : Entries) (f : ℤ × Poslist) : ℕ :=
  (entriesBytes desc none pre).length + (sqlite3Fts3PutVarint (delta desc (lastDocid none pre) f.1)).length

theorem RowsAt.docidEnd_eq
    (h : RowsAt desc n l1 l2 pre (f :: suf) q r o p1 (some k) i1 i2 iPrev bFirstOut) :
    k = docidEnd desc pre f := by
  obtain ⟨-, k', hk, -, hat⟩ := h.cursor2
  obtain rfl : k = k' := Option.some.inj hk
  have hsize := hat.size
  rw [Option.getD_none, h.size, h.right, doclistBytes, entriesBytes_append, entriesBytes] at hsize
  simp only [List.length_append] at hsize
  rw [docidEnd]
  omega

/-- The first docid that the loop writes fits in the bytes read, wherever the loop writes one. -/
def FirstFits (desc : Bool) (n : ℕ) (l1 l2 : Entries) : Prop :=
  ∀ pre f suf, l2 = pre ++ f :: suf → f.1 ∈ l1.map (·.1) → rowsOut n l1 pre = [] →
    (sqlite3Fts3PutVarint (u64 f.1)).length ≤ docidEnd desc pre f

theorem phraseRows_end {nDist : ℤ} {nRight : ℕ} (h : p1 = none ∨ p2 = none) :
    phraseRows desc nDist nRight (m + 1) o p1 p2 i1 i2 iPrev bFirstOut = some o := by
  cases p1 with
  | none => rfl
  | some p1 =>
    obtain rfl : p2 = none := h.resolve_left (by simp)
    rfl

theorem RightAt.output {i2 : ℤ} (h : RightAt desc o p2 i2 out last suf) : o.a.take o.p = out := by
  have hout : (∃ g, o.a = out ++ g) ∧ o.p = out.length := by
    cases suf with
    | nil => exact h.2
    | cons f suf =>
      obtain ⟨-, k, -, -, hat⟩ := h
      exact ⟨hat.written, hat.pos⟩
  obtain ⟨⟨g, hg⟩, hp⟩ := hout
  rw [hg, hp, List.take_left]

/-- Once one of the lists has been read, all rows have been written. -/
theorem RowsAt.done (h : RowsAt desc n l1 l2 pre suf q r o p1 p2 i1 i2 iPrev bFirstOut)
    (hend : suf = [] ∨ r = []) : rowsOut n l1 l2 = rowsOut n l1 pre := by
  rw [h.right, rowsOut, List.filterMap_append, ← rowsOut, ← rowsOut]
  have hnil : rowsOut n l1 suf = [] := by
    rcases hend with rfl | rfl
    · rfl
    · rw [rowsOut, List.filterMap_eq_nil_iff]
      intro f hf
      refine rowOut_none fun hmem => ?_
      obtain ⟨x, hx, hxf⟩ := List.mem_map.mp hmem
      rw [h.left, List.append_nil] at hx
      exact before_irrefl desc f.1 (hxf ▸ h.passed x hx f hf)
  rw [hnil, List.append_nil]

/-- Where there is room for the docid of a row of both lists. -/
theorem RowsAt.room (h : RowsAt desc n l1 l2 pre (f :: suf) q r o p1 (some k) i1 i2 iPrev bFirstOut)
    (hfirst : rowsOut n l1 pre = [] → (sqlite3Fts3PutVarint (u64 f.1)).length ≤ k) :
    o.Room none k (sqlite3Fts3PutVarint (delta desc (lastDocid none (rowsOut n l1 pre)) f.1)).length := by
  obtain ⟨-, k', hk, hroom, hat⟩ := h.cursor2
  obtain rfl : k = k' := Option.some.inj hk
  intro hsrc
  have hroom := hroom hsrc
  cases hlast : lastDocid none (rowsOut n l1 pre) with
  | none =>
    have hnil := lastDocid_eq_none hlast
    have hpos := hat.pos
    rw [hnil, entriesBytes, List.length_nil] at hpos
    rw [hpos, Nat.zero_add]
    exact hfirst hnil
  | some c =>
    rw [hlast] at hroom
    exact hroom

theorem RowsAt.run (h : RowsAt desc n l1 l2 pre suf q r o p1 p2 i1 i2 iPrev bFirstOut)
    (hl : Inputs desc l1 l2) (hfirst : FirstFits desc n l1 l2) (hm : suf.length + r.length < m) :
    ∃ o', phraseRows desc n (doclistBytes desc l2).length m o p1 p2 i1 i2 iPrev bFirstOut = some o' ∧
      o'.late = o.late ∧ o'.a.take o'.p = doclistBytes desc (rowsOut n l1 l2) := by
  induction m generalizing pre suf q r o p1 p2 i1 i2 iPrev bFirstOut with
  | zero => omega
  | succ m ih =>
    cases suf with
    | nil =>
      refine ⟨o, phraseRows_end (.inr h.cursor2.1), rfl, ?_⟩
      rw [h.done (.inl rfl)]
      exact h.cursor2.output
    | cons f suf =>
      cases r with
      | nil =>
        refine ⟨o, phraseRows_end (.inl h.cursor1), rfl, ?_⟩
        rw [h.done (.inr rfl)]
        exact h.cursor2.output
      | cons e r =>
        obtain ⟨he, hf, -⟩ := h.lists hl
        simp only [List.length_cons] at hm
        have horder : Before desc e.1 f.1 ∨ e.1 = f.1 ∨ Before desc f.1 e.1 := by
          cases desc <;> simp only [Before, if_true, if_false, Bool.false_eq_true] <;> omega
        rcases horder with hlt | heq | hgt
        · obtain ⟨p1', i1', hrun, h'⟩ := h.skip_left (m := m) hl hlt
          rw [hrun]
          exact ih h' (by simp only [List.length_cons]; omega)
        · obtain ⟨-, k, rfl, -, -⟩ := id h.cursor2
          have hroom := h.room fun hnil => by
            rw [h.docidEnd_eq]
            exact hfirst pre f suf h.right (List.mem_map.mpr ⟨e, he, heq⟩) hnil
          obtain ⟨o1, p1', p2', i1', i2', iPrev', bFirstOut', hrun, h', hlate⟩ :=
            h.both (m := m) hl heq hroom
          rw [hrun, ← hlate]
          exact ih h' (by omega)
        · obtain ⟨p2', i2', hrun, h'⟩ := h.skip_right (m := m) hl hgt
          rw [hrun]
          exact ih h' (by simp only [List.length_cons]; omega)

/-- The first docid runs into the bytes still to be read. -/
theorem RowsAt.overtake
    (h : RowsAt desc n l1 l2 pre (f :: suf) q (e :: r) o p1 (some k) i1 i2 iPrev bFirstOut)
    (hl : Inputs desc l1 l2) (hef : e.1 = f.1) (hnil : rowsOut n l1 pre = [])
    (hbad : k < (sqlite3Fts3PutVarint (u64 f.1)).length)
    (hrun : phraseRows desc n (doclistBytes desc l2).length (m + 1) o p1 (some k) i1 i2 iPrev bFirstOut =
      some o') : o'.late = true := by
  obtain ⟨he, hf, -⟩ := h.lists hl
  obtain ⟨rfl, rfl⟩ := h.cursor1
  obtain ⟨rfl, -⟩ := h.cursor2
  have hzero : DOCID_CMP desc e.1 f.1 = 0 :=
    (docidCmp_eq_zero (hl.left.fits e he) (hl.right.fits f hf)).mpr hef
  have hdocid := putDelta desc h.written e.1
  have hlate : (o.put k (fts3PutDeltaVarint3 desc iPrev bFirstOut e.1)).late = true := by
    rw [hdocid, hnil, hef]
    change (o.late || decide (k < o.p + (sqlite3Fts3PutVarint (u64 f.1)).length)) = true
    rw [decide_eq_true (by omega), Bool.or_true]
  rw [phraseRows] at hrun
  simp only [hzero, if_true] at hrun
  obtain ⟨⟨res, o1, q1, q2⟩, hmerge, hrun⟩ := Option.bind_eq_some_iff.mp hrun
  have hlate1 : o1.late = true := poslistPhraseMerge_late hlate hmerge
  obtain ⟨_, -, hrun⟩ := Option.bind_eq_some_iff.mp hrun
  obtain ⟨_, -, hrun⟩ := Option.bind_eq_some_iff.mp hrun
  refine phraseRows_late ?_ hrun
  change (if res = true then o1 else { o1 with p := o.p }).late = true
  split
  · exact hlate1
  · exact hlate1

theorem RowsAt.fails {mid suf' : Entries}
    (h : RowsAt desc n l1 l2 pre suf q r o p1 p2 i1 i2 iPrev bFirstOut) (hl : Inputs desc l1 l2)
    (hsuf : suf = mid ++ f :: suf') (hmem : f.1 ∈ l1.map (·.1)) (hnil : rowsOut n l1 (pre ++ mid) = [])
    (hbad : docidEnd desc (pre ++ mid) f < (sqlite3Fts3PutVarint (u64 f.1)).length)
    (hrun : phraseRows desc n (doclistBytes desc l2).length m o p1 p2 i1 i2 iPrev bFirstOut = some o') :
    o'.late = true := by
  induction m generalizing pre suf q r o p1 p2 i1 i2 iPrev bFirstOut mid with
  | zero => simp [phraseRows] at hrun
  | succ m ih =>
    have hpre : rowsOut n l1 pre = [] := by
      rw [rowsOut, List.filterMap_append, List.append_eq_nil_iff] at hnil
      exact hnil.1
    obtain ⟨g, suf, rfl⟩ : ∃ g s, suf = g :: s := by
      cases mid with
      | nil => exact ⟨f, suf', hsuf⟩
      | cons g mid => exact ⟨g, _, hsuf⟩
    obtain ⟨e, r, rfl⟩ : ∃ e s, r = e :: s := by
      cases r with
      | cons e r => exact ⟨e, r, rfl⟩
      | nil =>
        obtain ⟨x, hx, hxf⟩ := List.mem_map.mp hmem
        rw [h.left, List.append_nil] at hx
        have hlt := h.passed x hx f (by rw [hsuf]; simp)
        rw [hxf] at hlt
        exact absurd hlt (before_irrefl desc _)
    have hnext : ∀ {mid' : Entries}, mid = g :: mid' → pre ++ [g] ++ mid' = pre ++ mid ∧
        suf = mid' ++ f :: suf' := by
      rintro mid' rfl
      exact ⟨by simp, (List.cons.inj hsuf).2⟩
    have horder : Before desc e.1 g.1 ∨ e.1 = g.1 ∨ Before desc g.1 e.1 := by
      cases desc <;> simp only [Before, if_true, if_false, Bool.false_eq_true] <;> omega
    rcases horder with hlt | heq | hgt
    · obtain ⟨p1', i1', hround, h'⟩ := h.skip_left (m := m) hl hlt
      rw [hround] at hrun
      exact ih h' hsuf hnil hbad hrun
    · obtain ⟨-, k, rfl, -, -⟩ := id h.cursor2
      by_cases hroom : (sqlite3Fts3PutVarint (u64 g.1)).length ≤ k
      · cases mid with
        | nil =>
          obtain rfl : g = f := (List.cons.inj hsuf).1
          rw [h.docidEnd_eq] at hroom
          rw [List.append_nil] at hbad
          omega
        | cons g' mid =>
          obtain rfl : g = g' := (List.cons.inj hsuf).1
          obtain ⟨happ, hsuf'⟩ := hnext rfl
          obtain ⟨o1, p1', p2', i1', i2', iPrev', bFirstOut', hround, h', -⟩ :=
            h.both (m := m) hl heq (h.room fun _ => hroom)
          rw [hround] at hrun
          exact ih h' hsuf' (happ ▸ hnil) (happ ▸ hbad) hrun
      · exact h.overtake hl heq hpre (by omega) hrun
    · cases mid with
      | nil =>
        obtain rfl : g = f := (List.cons.inj hsuf).1
        exact absurd hmem (h.absent hl hgt)
      | cons g' mid =>
        obtain rfl : g = g' := (List.cons.inj hsuf).1
        obtain ⟨happ, hsuf'⟩ := hnext rfl
        obtain ⟨p2', i2', hround, h'⟩ := h.skip_right (m := m) hl hgt
        rw [hround] at hrun
        exact ih h' hsuf' (happ ▸ hnil) (happ ▸ hbad) hrun

end Sqlite.Doclist
