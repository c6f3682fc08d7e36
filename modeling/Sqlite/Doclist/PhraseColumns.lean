import Mathlib.Data.List.Basic
import Sqlite.Doclist.Phrase

/-! The merge of two position lists: the columns, one after the other. -/
namespace Sqlite.Doclist

open Fts (sqlite3Fts3PutVarint sqlite3Fts3GetVarint)

/-- The positions of the phrase in each column that both lists have; there may be none. -/
def common (n : ℕ) (l1 l2 : Poslist) : Poslist :=
  l2.filterMap fun d => (l1.find? fun c => c.1 = d.1).map fun c => (d.1, hits n c.2 d.2)

/-- The position list of the phrase. -/
def phraseCols (n : ℕ) (l1 l2 : Poslist) : Poslist := (common n l1 l2).filter fun e => e.2 ≠ []

/-- The writes for some columns stay below `N`. -/
def FitCols : ℕ → Poslist → ℕ → Prop
  | _, [], _ => True
  | k, e :: l, N => FitCol k e.1 e.2 N ∧ FitCols (k + (columnOut e.1 e.2).length) l N

/-- The bytes up to `r` are those of a position list that is not needed any more. -/
def Tail (r p : List ℕ) : Prop := ∃ w, fts3PoslistCopy p = some (w, r) ∧ p = w ++ r ∧ 0 < w.length

variable {src : Option (List ℕ)} {o o' : Out} {p2 n : ℕ} {out : List ℕ} {c d : ℕ × List ℕ} {l1 l2 : Poslist}
  {s s1 s2 : List ℕ}

theorem common_nil_left (l : Poslist) : common n [] l = [] := by
  rw [common, List.filterMap_eq_nil_iff]
  exact fun _ _ => rfl

theorem common_same (h2 : IsPoslist (d :: l2)) (hcd : c.1 = d.1) :
    common n (c :: l1) (d :: l2) = (d.1, hits n c.2 d.2) :: common n l1 l2 := by
  rw [common, List.filterMap_cons_some (b := (d.1, hits n c.2 d.2)) (by simp [hcd]), common]
  congr 1
  refine List.filterMap_congr fun e he => ?_
  have hlt := (List.pairwise_cons.mp h2.columns).1 e he
  rw [List.find?_cons_of_neg (by simp only [decide_eq_true_eq]; omega)]

theorem common_left (h2 : IsPoslist (d :: l2)) (hcd : c.1 < d.1) :
    common n (c :: l1) (d :: l2) = common n l1 (d :: l2) := by
  refine List.filterMap_congr fun e he => ?_
  have hle : d.1 ≤ e.1 := by
    rcases List.mem_cons.mp he with rfl | he
    · exact le_rfl
    · exact ((List.pairwise_cons.mp h2.columns).1 e he).le
  rw [List.find?_cons_of_neg (by simp only [decide_eq_true_eq]; omega)]

theorem common_right (h1 : IsPoslist (c :: l1)) (hcd : d.1 < c.1) :
    common n (c :: l1) (d :: l2) = common n (c :: l1) l2 := by
  refine List.filterMap_cons_none ?_
  rw [Option.map_eq_none_iff, List.find?_eq_none]
  intro e he
  have hle : c.1 ≤ e.1 := by
    rcases List.mem_cons.mp he with rfl | he
    · exact le_rfl
    · exact ((List.pairwise_cons.mp h1.columns).1 e he).le
  simp only [decide_eq_true_eq]
  omega

theorem Tail.of_passes {x : List ℕ} (h : Passes 0xFF x) : Tail s (x ++ 0 :: s) := by
  refine ⟨x ++ [0], ?_, by simp, by simp⟩
  have hend : scanLoop 0xFF 0 (0 :: s) = some ([], 0 :: s) := rfl
  rw [fts3PoslistCopy, h, hend]
  simp

theorem Tail.columns (h : IsPoslist l1) : Tail s (columnsBytes l1 ++ 0 :: s) :=
  Tail.of_passes (Passes.columns h)

theorem Tail.column (h : IsPoslist (c :: l1)) : Tail s (posBytes 0 c.2 ++ (columnsBytes l1 ++ 0 :: s)) := by
  rw [← List.append_assoc]
  exact Tail.of_passes
    ((Passes.posBytes .poslist 0 c.2 (h.position_lt c List.mem_cons_self)).append (Passes.columns h.of_cons))

/-- The byte before the number of a column, and the number. -/
theorem next_column (h : IsPoslist (c :: l1)) (h0 : c.1 ≠ 0) :
    (columnsBytes (c :: l1) ++ s).head? = some 1 ∧ columnNumber (columnsBytes (c :: l1) ++ s) =
      some ((c.1 : ℤ), posBytes 0 c.2 ++ (columnsBytes l1 ++ s)) := by
  have hlt := h.column_lt c List.mem_cons_self
  rw [columnsBytes_cons, headerBytes, if_neg h0]
  refine ⟨rfl, ?_⟩
  have hcast : i32 c.1 = c.1 := by
    rw [i32, Int.bmod_def]
    omega
  rw [columnNumber, List.cons_append, List.drop_succ_cons, List.drop_zero,
    Fts.getVarint_putVarint (by omega)]
  simp [hcast]

theorem first_column (h : IsPoslist (c :: l1)) : firstColumn (columnsBytes (c :: l1) ++ s) =
    some ((c.1 : ℤ), posBytes 0 c.2 ++ (columnsBytes l1 ++ s)) := by
  by_cases h0 : c.1 = 0
  · obtain ⟨q, l, hq⟩ := List.exists_cons_of_ne_nil (h.nonempty c List.mem_cons_self)
    have hlt := h.position_lt c List.mem_cons_self q (by rw [hq]; exact List.mem_cons_self)
    obtain ⟨b, r, hb, hhead⟩ := putVarint_head (v := q - 0 + 2) (by omega)
    have h1 : b ≠ POS_COLUMN := by
      rw [POS_COLUMN]
      omega
    rw [columnsBytes_cons, headerBytes, if_pos h0, hq, posBytes, hb]
    simp [firstColumn, h1, h0]
  · obtain ⟨hhead, hnum⟩ := next_column (s := s) h h0
    rw [firstColumn, hhead, hnum]
    rfl

theorem columnsBytes_filter (e : ℕ × List ℕ) (l : Poslist) :
    columnsBytes ((e :: l).filter fun e => e.2 ≠ []) =
      columnOut e.1 e.2 ++ columnsBytes (l.filter fun e => e.2 ≠ []) := by
  rw [List.filter_cons, columnOut]
  by_cases h : e.2 = []
  · simp [h]
  · simp [h, columnsBytes]

/-- The list copied is the one of the first column. -/
theorem skip_column (h : IsPoslist (c :: l1)) :
    fts3ColumnlistCopy (posBytes 0 c.2 ++ (columnsBytes l1 ++ 0 :: s)) =
      some (posBytes 0 c.2, columnsBytes l1 ++ 0 :: s) := by
  obtain ⟨b, r, hb, hlt⟩ := ends_columns h.tail_ne_zero s
  rw [hb, columnlistCopy (h.position_lt c List.mem_cons_self) hlt]

theorem columns_head (c : ℕ × List ℕ) (l1 : Poslist) (s : List ℕ) :
    columnsBytes (c :: l1) ++ 0 :: s = headerBytes c.1 ++ (posBytes 0 c.2 ++ (columnsBytes l1 ++ 0 :: s)) ∧
      (columnsBytes (c :: l1) ++ 0 :: s).length -
        (posBytes 0 c.2 ++ (columnsBytes l1 ++ 0 :: s)).length = (headerBytes c.1).length := by
  refine ⟨columnsBytes_cons c l1 _, ?_⟩
  rw [columnsBytes_cons, List.length_append]
  omega

theorem phraseColumns_hits {m : ℕ} (s1 : List ℕ) (h1 : IsPoslist (c :: l1)) (h2 : IsPoslist (d :: l2))
    (hat : o.At src p2 out (posBytes 0 d.2 ++ (columnsBytes l2 ++ 0 :: s2)))
    (hroom : o.Room src p2 (headerBytes d.1).length) (hm : l1.length + l2.length < m) :
    ∃ o' p1' p2' R', phraseColumns src n false true m o (posBytes 0 c.2 ++ (columnsBytes l1 ++ 0 :: s1)) p2
        c.1 d.1 = some (o', p1', p2') ∧ Tail s1 p1' ∧ Tail s2 R' ∧
      o.Step o' src p2' (out ++ columnsBytes (phraseCols n (c :: l1) (d :: l2))) R'
        (FitCols o.p (common n (c :: l1) (d :: l2))) := by
  induction m generalizing o p2 out c d l1 l2 with
  | zero => omega
  | succ m ih =>
    have hroom0 : o.Room src p2 0 := hroom.mono (Nat.zero_le _)
    rw [phraseColumns, phraseCols]
    rcases Nat.lt_trichotomy c.1 d.1 with hcd | hcd | hcd
    · rw [if_neg (by omega), if_pos (by omega), skip_column h1, common_left h2 hcd]
      cases l1 with
      | nil =>
        refine ⟨o, _, p2, _, rfl, Tail.columns h1.of_cons, Tail.column h2, ?_⟩
        rw [common_nil_left]
        simp only [List.filter_nil, columnsBytes, List.flatMap_nil, List.append_nil, FitCols]
        exact Out.Step.refl hat hroom0
      | cons e l1 =>
        obtain ⟨hhead, hnum⟩ := next_column (s := 0 :: s1) h1.of_cons (h1.tail_ne_zero e List.mem_cons_self)
        simp only [Option.bind_eq_bind, Option.bind_some, hhead, hnum, one_ne_zero, if_false]
        exact ih h1.of_cons h2 hat hroom (by simp only [List.length_cons] at hm; omega)
    · rw [if_pos (by rw [hcd])]
      have hc := List.mem_cons_self (a := c) (l := l1)
      have hd := List.mem_cons_self (a := d) (l := l2)
      have hlt := h1.column_lt c hc
      obtain ⟨o1, p2', hrun, hstep⟩ := phraseColumn_hits (n := n) (c := c.1)
        (ends_columns h1.tail_ne_zero s1) (ends_columns h2.tail_ne_zero s2) (by omega) hat
        (h1.positions c hc) (h2.positions d hd) (h1.position_lt c hc) (h2.position_lt d hd)
        (h1.nonempty c hc) (h2.nonempty d hd) (hcd ▸ hroom)
      have hp : o1.p = o.p + (columnOut d.1 (hits n c.2 d.2)).length := by
        rw [hstep.state.pos, hat.pos, List.length_append, hcd]
      have hwrite : ∀ {o2 : Out} {p2 : ℕ} {R : List ℕ},
          o1.Step o2 src p2 (out ++ columnOut c.1 (hits n c.2 d.2) ++ columnsBytes (phraseCols n l1 l2)) R
            (FitCols o1.p (common n l1 l2)) →
          o.Step o2 src p2 (out ++ columnsBytes ((common n (c :: l1) (d :: l2)).filter fun e => e.2 ≠ [])) R
            (FitCols o.p (common n (c :: l1) (d :: l2))) := by
        intro o2 p2 R h
        rw [common_same h2 hcd, columnsBytes_filter, ← List.append_assoc, ← hcd]
        refine (hstep.trans h).congr fun N => ?_
        rw [FitCols, hp, hcd]
      have hstop : ∀ {p2 : ℕ} {R : List ℕ}, common n l1 l2 = [] →
          o1.At src p2 (out ++ columnOut c.1 (hits n c.2 d.2)) R → o1.Room src p2 0 →
          o.Step o1 src p2 (out ++ columnsBytes ((common n (c :: l1) (d :: l2)).filter fun e => e.2 ≠ [])) R
            (FitCols o.p (common n (c :: l1) (d :: l2))) := by
        intro p2 R hnil hat hroom
        refine hwrite ?_
        rw [phraseCols, hnil]
        simp only [List.filter_nil, columnsBytes, List.flatMap_nil, List.append_nil, FitCols]
        exact Out.Step.refl hat hroom
      rw [hrun]
      simp only [Option.bind_eq_bind, Option.bind_some, hstep.state.right]
      have hend : ∀ s : List ℕ, (columnsBytes [] ++ 0 :: s).head? = some 0 := fun _ => rfl
      cases l1 with
      | nil =>
        -- The left-hand list ends here.
        refine ⟨o1, _, p2', _, ?_, Tail.columns h1.of_cons, Tail.columns h2.of_cons,
          hstop (common_nil_left l2) hstep.state hstep.room⟩
        have hsome : ∃ b, (columnsBytes l2 ++ 0 :: s2).head? = some b := by
          obtain ⟨b, r, hb, -⟩ := ends_columns h2.tail_ne_zero s2
          exact ⟨b, by rw [hb]; rfl⟩
        obtain ⟨b, hb⟩ := hsome
        simp [hend, hb]
      | cons e l1 =>
        have he := h1.tail_ne_zero e List.mem_cons_self
        obtain ⟨hhead1, hnum1⟩ := next_column (s := 0 :: s1) h1.of_cons he
        cases l2 with
        | nil =>
          refine ⟨o1, _, p2', _, ?_, Tail.columns h1.of_cons, Tail.columns h2.of_cons,
            hstop rfl hstep.state hstep.room⟩
          simp [hend, hhead1]
        | cons f l2 =>
          have hf := h2.tail_ne_zero f List.mem_cons_self
          obtain ⟨hhead2, hnum2⟩ := next_column (s := 0 :: s2) h2.of_cons hf
          obtain ⟨heq, hlen⟩ := columns_head f l2 s2
          have hat1 := hstep.state
          rw [heq] at hat1
          obtain ⟨o', p1', p2'', R', hrun', ht1, ht2, hstep'⟩ := ih h1.of_cons h2.of_cons hat1.read
            (fun hsrc => Nat.add_le_add_right (hstep.room hsrc) _)
            (by simp only [List.length_cons] at hm; omega)
          refine ⟨o', p1', p2'', R', ?_, ht1, ht2, hwrite hstep'⟩
          simp only [hhead1, hhead2, hnum1, hnum2, Option.bind_some, one_ne_zero, or_self, if_false, hlen]
          exact hrun'
    · rw [if_neg (by omega), if_neg (by omega), hat.right, skip_column h2, common_right h1 hcd]
      cases l2 with
      | nil =>
        refine ⟨o, _, _, _, rfl, Tail.column h1, Tail.columns h2.of_cons, ?_⟩
        simp only [common, List.filterMap_nil, List.filter_nil, columnsBytes, List.flatMap_nil,
          List.append_nil, FitCols]
        exact Out.Step.refl hat.read fun hsrc => (hroom0 hsrc).trans (Nat.le_add_right _ _)
      | cons f l2 =>
        have h0 := h2.tail_ne_zero f List.mem_cons_self
        obtain ⟨hhead, hnum⟩ := next_column (s := 0 :: s2) h2.of_cons h0
        obtain ⟨heq, hlen⟩ := columns_head f l2 s2
        simp only [Option.bind_eq_bind, Option.bind_some, hhead, hnum, one_ne_zero, if_false, hlen]
        rw [heq] at hat
        refine ih h1 h2.of_cons hat.read.read (fun hsrc => ?_) (by simp only [List.length_cons] at hm; omega)
        have := hroom0 hsrc
        omega

theorem mem_common {e : ℕ × List ℕ} (h : e ∈ common n l1 l2) :
    ∃ c ∈ l1, ∃ d ∈ l2, c.1 = e.1 ∧ d.1 = e.1 ∧ e.2 = hits n c.2 d.2 := by
  obtain ⟨d, hd, hmap⟩ := List.mem_filterMap.mp h
  obtain ⟨c, hfind, rfl⟩ := Option.map_eq_some_iff.mp hmap
  have hcd := List.find?_some hfind
  exact ⟨c, List.mem_of_find?_eq_some hfind, d, hd, of_decide_eq_true hcd, rfl, rfl⟩

theorem isPoslist_phraseCols (n : ℕ) (l1 : Poslist) (h2 : IsPoslist l2) :
    IsPoslist (phraseCols n l1 l2) := by
  have hpos : ∀ e ∈ phraseCols n l1 l2, ∃ d ∈ l2, d.1 = e.1 ∧ e.2 ≠ [] ∧ e.2.Sublist d.2 := by
    intro e he
    obtain ⟨he, hne⟩ := List.mem_filter.mp he
    obtain ⟨c, -, d, hd, -, hde, hhits⟩ := mem_common he
    exact ⟨d, hd, hde, of_decide_eq_true hne, hhits ▸ List.filter_sublist⟩
  refine ⟨List.Pairwise.filter _ (h2.columns.filterMap _ ?_), fun e he => ?_, fun e he => ?_, fun e he => ?_,
    fun e he q hq => ?_⟩
  · intro d d' hlt e he e' he'
    obtain ⟨c, -, rfl⟩ := Option.map_eq_some_iff.mp he
    obtain ⟨c', -, rfl⟩ := Option.map_eq_some_iff.mp he'
    exact hlt
  all_goals obtain ⟨d, hd, hde, hne, hsub⟩ := hpos e he
  · exact (h2.positions d hd).sublist hsub
  · exact hne
  · exact hde ▸ h2.column_lt d hd
  · exact h2.position_lt d hd q (hsub.subset hq)

/-- What is written for two position lists. -/
def listOut (m : Poslist) : List ℕ := if m = [] then [] else poslistBytes m

/-- The writes for two position lists stay below `N`. -/
def FitList (k : ℕ) (l : Poslist) (N : ℕ) : Prop :=
  FitCols k l N ∧ ((l.filter fun e => e.2 ≠ []) ≠ [] →
    k + (poslistBytes (l.filter fun e => e.2 ≠ [])).length ≤ N)

theorem poslistPhraseMerge_hits (s1 : List ℕ) (h1 : IsPoslist l1) (h2 : IsPoslist l2) (hne1 : l1 ≠ [])
    (hne2 : l2 ≠ []) (hat : o.At src p2 out (poslistBytes l2 ++ s2)) (hroom : o.Room src p2 0) :
    ∃ o' p2', fts3PoslistPhraseMerge src n false true o (poslistBytes l1 ++ s1) p2 =
        some (!(phraseCols n l1 l2).isEmpty, o', s1, p2') ∧
      o.Step o' src p2' (out ++ listOut (phraseCols n l1 l2)) s2 (FitList o.p (common n l1 l2)) := by
  obtain ⟨c, l1, rfl⟩ := List.exists_cons_of_ne_nil hne1
  obtain ⟨d, l2, rfl⟩ := List.exists_cons_of_ne_nil hne2
  have hsplit : ∀ (l : Poslist) (r : List ℕ), poslistBytes l ++ r = columnsBytes l ++ 0 :: r := by
    intro l r
    rw [poslistBytes, POS_END, List.append_assoc, List.singleton_append]
  rw [hsplit] at hat
  rw [hsplit, fts3PoslistPhraseMerge]
  obtain ⟨heq, hlen⟩ := columns_head d l2 s2
  simp only [hat.right, first_column h1, first_column h2, Option.bind_eq_bind, Option.bind_some, hlen]
  rw [heq] at hat
  have hlen1 := length_le_columnsBytes h1.of_cons
  have hlen2 := length_le_columnsBytes h2
  simp only [List.length_cons] at hlen2
  obtain ⟨o1, p1', p2', R', hrun, ⟨w1, hw1, -, -⟩, ⟨w2, hw2, rfl, hpos⟩, hstep⟩ := phraseColumns_hits
    s1 (n := n) (m := (posBytes 0 c.2 ++ (columnsBytes l1 ++ 0 :: s1)).length +
      (columnsBytes (d :: l2) ++ 0 :: s2).length + 1) h1 h2 hat.read
    (fun hsrc => Nat.add_le_add_right (hroom hsrc) _) (by
      simp only [List.length_append]
      omega)
  rw [hrun]
  simp only [Option.bind_some, hstep.state.right, hw1, hw2]
  have hp : o1.p = o.p + (columnsBytes (phraseCols n (c :: l1) (d :: l2))).length := by
    rw [hstep.state.pos, hat.pos, List.length_append]
  have hread : o.Step o1 src (p2' + w2.length) (out ++ columnsBytes (phraseCols n (c :: l1) (d :: l2))) s2
      (FitCols o.p (common n (c :: l1) (d :: l2))) :=
    ⟨hstep.state.read, fun hsrc => (hstep.room hsrc).trans (Nat.le_add_right _ _), hstep.late, hstep.size,
      hstep.top⟩
  by_cases hnil : phraseCols n (c :: l1) (d :: l2) = []
  · have hfit : ((common n (c :: l1) (d :: l2)).filter fun e => e.2 ≠ []) = [] := hnil
    rw [hnil] at hp hread ⊢
    refine ⟨o1, _, if_pos hp, hread.congr fun N => ?_⟩
    simp only [FitList, hfit, ne_eq, not_true_eq_false, false_imp_iff, and_true]
  · have hfit : ((common n (c :: l1) (d :: l2)).filter fun e => e.2 ≠ []) ≠ [] := hnil
    have hne : o1.p ≠ o.p := by
      intro heq
      refine hnil (columnsBytes_eq_nil (isPoslist_phraseCols _ _ h2) (List.length_eq_zero_iff.mp ?_))
      omega
    have hsome : (!(phraseCols n (c :: l1) (d :: l2)).isEmpty) = true := by simpa using hnil
    have hput := Out.Step.of_put (w := [POS_END]) hread.state fun hsrc => by
      have := hstep.room hsrc
      simp only [List.length_singleton]
      omega
    rw [List.append_assoc] at hput
    rw [hsome, listOut, if_neg hnil, poslistBytes]
    refine ⟨_, _, if_neg hne, ((hread.trans hput).congr fun N => ?_)⟩
    simp only [FitList, hfit, ne_eq, not_false_eq_true, true_imp_iff, hp, poslistBytes, List.length_append,
      phraseCols, List.length_singleton, Nat.add_assoc]

end Sqlite.Doclist
