import Sqlite.ExprCode.Sound

/-! The code of a condition jumps exactly if the condition is true, or false. -/
namespace Sqlite.ExprCode

open Foundation (Dest Image Program)
open Parse

variable {V C F : Type}

section Spec

variable (M : Scalars V C F) (g : Schema V C F) (row : Row M)

/-- The code between `p` and `q` jumps to `dest` or runs to its end. Where it jumps, the entries of the cache that are
older than the current level are valid. -/
structure Branches (p q : Parse V C F) (dest : ℕ) (b : (ℕ → V) → Bool) : Prop where
  grows : Grows NoReg p q
  runs : ∀ X : Image (Op V C F), X.Contains q.pVdbe → ∀ ρ, CacheOK M g row p ρ → ∃ ρ', Frame p NoReg ρ ρ' ∧
    if b ρ then X.Runs (M.exec row) (p.pVdbe.here, ρ) (X.address dest, ρ') ∧
      CacheBelow M g row q p.iCacheLevel ρ'
    else X.Runs (M.exec row) (p.pVdbe.here, ρ) (q.pVdbe.here, ρ') ∧ CacheOK M g row q ρ'

structure Sound (e : Expr V F) : Prop where
  computes : Computes M g row e
  ifTrue : ∀ (p : Parse V C F) (dest : ℕ) (jumpIfNull : Bool), p.WF → Held p e →
    Branches M g row p (sqlite3ExprIfTrue g p e dest jumpIfNull) dest fun ρ => (holds M g row ρ e).getD jumpIfNull
  ifFalse : ∀ (p : Parse V C F) (dest : ℕ) (jumpIfNull : Bool), p.WF → Held p e →
    Branches M g row p (sqlite3ExprIfFalse g p e dest jumpIfNull) dest fun ρ =>
      (not3 (holds M g row ρ e)).getD jumpIfNull

end Spec

variable {M : Scalars V C F} {g : Schema V C F} {row : Row M} {p q s : Parse V C F} {T : ℕ → Prop}
  {P : (ℕ → V) → (ℕ → V) → Prop} {dest : ℕ} {b c : (ℕ → V) → Bool}

namespace Branches

theorem congr (h : Branches M g row p q dest b) (hb : ∀ ρ, b ρ = c ρ) : Branches M g row p q dest c := by
  obtain rfl : b = c := funext hb
  exact h

theorem after (h : Emits M g row NoReg p q P) (h' : Branches M g row q s dest b)
    (hb : ∀ ρ ρ', Frame p NoReg ρ ρ' → P ρ ρ' → b ρ' = c ρ) : Branches M g row p s dest c where
  grows := h.grows.trans h'.grows
  runs X hX ρ hρ := by
    obtain ⟨ρ₁, hrun, hc, hf, hP⟩ := h.runs X (hX.of_extends h'.grows.code) ρ hρ
    obtain ⟨ρ', hf', hrun'⟩ := h'.runs X hX ρ₁ hc
    refine ⟨ρ', hf.trans h.grows hf', ?_⟩
    rw [hb ρ ρ₁ hf hP, h.grows.level] at hrun'
    split
    · rename_i hc'
      rw [if_pos hc'] at hrun'
      exact ⟨hrun.trans hrun'.1, hrun'.2⟩
    · rename_i hc'
      rw [if_neg hc'] at hrun'
      exact ⟨hrun.trans hrun'.1, hrun'.2⟩

theorem release {r : ℕ} (h : Branches M g row p q dest b) (hr : Freed p q r) :
    Branches M g row p (q.sqlite3ReleaseTempReg r) dest b where
  grows := h.grows.release hr
  runs X hX ρ hρ := by
    have hC := releaseTempReg_cached q r
    rw [releaseTempReg_code] at hX ⊢
    obtain ⟨ρ', hf, hrun⟩ := h.runs X hX ρ hρ
    refine ⟨ρ', hf, ?_⟩
    split
    · rename_i hb
      rw [if_pos hb] at hrun
      exact ⟨hrun.1, fun k hk => hrun.2 k (hC ▸ hk)⟩
    · rename_i hb
      rw [if_neg hb] at hrun
      exact ⟨hrun.1, fun k hk => hrun.2 k (hC ▸ hk)⟩

theorem releaseAll : ∀ {q : Parse V C F} (rs : List ℕ), Branches M g row p q dest b → FreedAll p q rs →
    Branches M g row p (rs.foldl sqlite3ReleaseTempReg q) dest b
  | _, [], h, _ => h
  | _, r :: rs, h, hr => (h.release (hr.freed r List.mem_cons_self)).releaseAll rs hr.release

/-- One instruction that jumps or does not. -/
theorem addOp (hp : p.WF) (op : Op V C F)
    (hx : ∀ ρ, M.exec row op ρ = (if b ρ then some (.label dest) else none, ρ)) :
    Branches M g row p (p.addOp op) dest b where
  grows := hp.grows_code rfl (Program.extends_addOp _ _)
  runs X hX ρ hρ := by
    refine ⟨ρ, .refl, ?_⟩
    specialize hx ρ
    split
    · rename_i hb
      rw [if_pos hb] at hx
      exact ⟨Image.Runs.jump hX hx, fun k hk _ => hρ k hk⟩
    · rename_i hb
      rw [if_neg hb] at hx
      exact ⟨Image.Runs.next hX hx, hρ⟩

/-- Two conditions with the same destination. -/
theorem or (h : Branches M g row p q dest b) (h' : Branches M g row q s dest c)
    (hc : ∀ ρ ρ', Frame p NoReg ρ ρ' → c ρ' = c ρ) : Branches M g row p s dest fun ρ => b ρ || c ρ where
  grows := h.grows.trans h'.grows
  runs X hX ρ hρ := by
    obtain ⟨ρ₁, hf, hrun⟩ := h.runs X (hX.of_extends h'.grows.code) ρ hρ
    cases hb : b ρ with
    | true =>
      rw [if_pos hb] at hrun
      refine ⟨ρ₁, hf, ?_⟩
      rw [Bool.true_or, if_pos rfl]
      exact ⟨hrun.1, fun k hk hl => hrun.2 k (h'.grows.old k hk (h.grows.level ▸ hl)) hl⟩
    | false =>
      rw [if_neg (by rw [hb]; exact Bool.false_ne_true)] at hrun
      obtain ⟨ρ', hf', hrun'⟩ := h'.runs X hX ρ₁ hrun.2
      refine ⟨ρ', hf.trans h.grows hf', ?_⟩
      rw [hc ρ ρ₁ hf, h.grows.level] at hrun'
      rw [Bool.false_or]
      split
      · rename_i hc'
        rw [if_pos hc'] at hrun'
        exact ⟨hrun.1.trans hrun'.1, hrun'.2⟩
      · rename_i hc'
        rw [if_neg hc'] at hrun'
        exact ⟨hrun.1.trans hrun'.1, hrun'.2⟩

/-- A first condition that jumps behind the second. -/
theorem skip (h : Branches M g row p.makeLabel.sqlite3ExprCachePush q p.pVdbe.labels b)
    (h' : Branches M g row q s dest c)
    (hc : ∀ ρ ρ', Frame p NoReg ρ ρ' → c ρ' = c ρ) :
    Branches M g row p ((s.resolveLabel p.pVdbe.labels).sqlite3ExprCachePop 1) dest fun ρ => !b ρ && c ρ := by
  have hg : Grows NoReg p.sqlite3ExprCachePush.makeLabel s := h.grows.trans h'.grows
  have hown : Grows NoReg p.sqlite3ExprCachePush (s.resolveLabel p.pVdbe.labels) := hg.own_label
  obtain ⟨hgp, hcode, hsub⟩ := cachePush_grows hown
  have hlevel : q.iCacheLevel = p.iCacheLevel + 1 := h.grows.level
  refine ⟨hgp, fun X hX ρ hρ => ?_⟩
  rw [hcode] at hX ⊢
  obtain ⟨hXs, hend⟩ := hX.own_label hg.code
  have hend : X.address p.pVdbe.labels = s.pVdbe.here := hend
  obtain ⟨ρ₁, hf, hrun⟩ := h.runs X (hXs.of_extends h'.grows.code) ρ hρ
  cases hb : b ρ with
  | true =>
    rw [if_pos hb] at hrun
    refine ⟨ρ₁, hf, ?_⟩
    rw [Bool.not_true, Bool.false_and, if_neg Bool.false_ne_true]
    have hrun₁ : X.Runs (M.exec row) (p.pVdbe.here, ρ) (X.address p.pVdbe.labels, ρ₁) := hrun.1
    rw [hend] at hrun₁
    refine ⟨hrun₁, fun k hk => ?_⟩
    obtain ⟨hks, -, hl⟩ := hsub k hk
    exact hrun.2 k (h'.grows.old k hks (hlevel ▸ hl)) hl
  | false =>
    rw [if_neg (by rw [hb]; exact Bool.false_ne_true)] at hrun
    obtain ⟨ρ', hf', hrun'⟩ := h'.runs X hXs ρ₁ hrun.2
    refine ⟨ρ', Frame.trans (p := p.makeLabel.sqlite3ExprCachePush) h.grows hf hf', ?_⟩
    rw [hc ρ ρ₁ hf, hlevel] at hrun'
    rw [Bool.not_false, Bool.true_and]
    split
    · rename_i hc'
      rw [if_pos hc'] at hrun'
      exact ⟨hrun.1.trans hrun'.1, fun k hk hl => hrun'.2 k (hsub k hk).1 (Nat.lt_succ_of_lt hl)⟩
    · rename_i hc'
      rw [if_neg hc'] at hrun'
      exact ⟨hrun.1.trans hrun'.1, fun k hk => hrun'.2 k (hsub k hk).1⟩

end Branches

/-- Operands, and an instruction that jumps or does not. -/
theorem Holding.jump {vs : List (ℕ × ((ℕ → V) → V))} {rs : List ℕ} (h : Holding M g row p q vs rs)
    (op : Op V C F)
    (hx : ∀ ρ, M.exec row op ρ = (if b ρ then some (.label dest) else none, ρ))
    (hv : ∀ ρ ρ', (∀ x ∈ vs, ρ' x.1 = x.2 ρ) → b ρ' = c ρ) :
    Branches M g row p (rs.foldl sqlite3ReleaseTempReg (q.addOp op)) dest c := by
  have hop : Branches M g row q (q.addOp op) dest b := .addOp h.emits.grows.wf op hx
  exact (Branches.after h.emits hop fun ρ ρ' _ hP => hv ρ ρ' hP).releaseAll rs (h.freed.grows hop.grows)

/-! Conditions. -/

/-- A comparison, whose null flag does not matter if null is a value like others. -/
theorem Sound.of_comparison {e l r : Expr V F} (op : Cmp) (nullEq : Bool) (flag : Bool → Bool)
    (he : Computes M g row e) (hl : Computes M g row l) (hr : Computes M g row r) (hregs : e.regs = l.regs ++ r.regs)
    (hT : ∀ p dest j, sqlite3ExprIfTrue g p e dest j =
      let t₁ := sqlite3ExprCodeTemp g p l
      let t₂ := sqlite3ExprCodeTemp g t₁.1 r
      ((t₂.1.addOp (.compare op t₂.2.1 (.jump (.label dest) (flag j)) t₁.2.1 (g.compareInfo l r)
        nullEq)).sqlite3ReleaseTempReg t₁.2.2).sqlite3ReleaseTempReg t₂.2.2)
    (hF : ∀ p dest j, sqlite3ExprIfFalse g p e dest j =
      let t₁ := sqlite3ExprCodeTemp g p l
      let t₂ := sqlite3ExprCodeTemp g t₁.1 r
      ((t₂.1.addOp (.compare op.opposite t₂.2.1 (.jump (.label dest) (flag j)) t₁.2.1 (g.compareInfo l r)
        nullEq)).sqlite3ReleaseTempReg t₁.2.2).sqlite3ReleaseTempReg t₂.2.2)
    (hflag : ∀ op v w j, (M.comparison op (g.compareInfo l r) nullEq v w).getD (flag j) =
      (M.comparison op (g.compareInfo l r) nullEq v w).getD j)
    (hh : ∀ ρ, holds M g row ρ e =
      M.comparison op (g.compareInfo l r) nullEq (value M g row ρ l) (value M g row ρ r)) : Sound M g row e where
  computes := he
  ifTrue p dest j hp he := by
    have h := hl.operands hr hp (fun x hx => he x (by simp [hregs, hx])) fun x hx => he x (by simp [hregs, hx])
    rw [hT]
    refine h.jump _ (fun ρ => rfl) fun ρ ρ' hP => ?_
    obtain ⟨h2, h1⟩ := by simpa using hP
    rw [h1, h2, hflag, hh]
  ifFalse p dest j hp he := by
    have h := hl.operands hr hp (fun x hx => he x (by simp [hregs, hx])) fun x hx => he x (by simp [hregs, hx])
    rw [hF]
    refine h.jump _ (fun ρ => rfl) fun ρ ρ' hP => ?_
    obtain ⟨h2, h1⟩ := by simpa using hP
    rw [h1, h2, hflag, hh, M.comparison_opposite]

theorem Sound.compare {l r : Expr V F} (op : Cmp) (hl : Computes M g row l) (hr : Computes M g row r) :
    Sound M g row (.compare op l r) :=
  .of_comparison op false (fun j => j) (hl.compare op hr) hl hr rfl
    (fun p dest j => by simp only [sqlite3ExprIfTrue, codeCompare])
    (fun p dest j => by simp only [sqlite3ExprIfFalse, codeCompare]) (fun _ _ _ _ => rfl) fun ρ => by simp only [holds]

theorem Sound.is {l r : Expr V F} (hl : Computes M g row l) (hr : Computes M g row r) :
    Sound M g row (.is l r) :=
  .of_comparison .eq true (fun _ => false) (hl.is hr) hl hr rfl
    (fun p dest j => by simp only [sqlite3ExprIfTrue, codeCompare])
    (fun p dest j => by simp only [sqlite3ExprIfFalse, codeCompare, Cmp.opposite])
    (fun _ _ _ _ => M.comparison_nullEq _ _ _ _ _ _) fun ρ => by simp only [holds]

theorem Sound.isNot {l r : Expr V F} (hl : Computes M g row l) (hr : Computes M g row r) :
    Sound M g row (.isNot l r) :=
  .of_comparison .ne true (fun _ => false) (hl.isNot hr) hl hr rfl
    (fun p dest j => by simp only [sqlite3ExprIfTrue, codeCompare])
    (fun p dest j => by simp only [sqlite3ExprIfFalse, codeCompare, Cmp.opposite])
    (fun _ _ _ _ => M.comparison_nullEq _ _ _ _ _ _) fun ρ => by simp only [holds]

/-- An expression that is no condition: its value is tested. -/
theorem Sound.of_value {e : Expr V F} (h : Computes M g row e)
    (hT : ∀ p dest j, sqlite3ExprIfTrue g p e dest j =
      let t := sqlite3ExprCodeTemp g p e
      (t.1.addOp (.if t.2.1 (.label dest) j)).sqlite3ReleaseTempReg t.2.2)
    (hF : ∀ p dest j, sqlite3ExprIfFalse g p e dest j =
      let t := sqlite3ExprCodeTemp g p e
      (t.1.addOp (.ifNot t.2.1 (.label dest) j)).sqlite3ReleaseTempReg t.2.2)
    (hh : ∀ ρ, holds M g row ρ e = M.condition (value M g row ρ e)) : Sound M g row e where
  computes := h
  ifTrue p dest j hp he := by
    have ht := (Holding.nil M g row hp).load h he
    rw [hT]
    refine ht.jump _ (fun ρ => rfl) fun ρ ρ' hP => ?_
    have h1 : ρ' _ = _ := hP _ List.mem_cons_self
    rw [h1, hh, Scalars.condition]
    split <;> rfl
  ifFalse p dest j hp he := by
    have ht := (Holding.nil M g row hp).load h he
    rw [hF]
    refine ht.jump _ (fun ρ => rfl) fun ρ ρ' hP => ?_
    have h1 : ρ' _ = _ := hP _ List.mem_cons_self
    rw [h1, hh, Scalars.condition]
    split <;> rfl

theorem Sound.isNull {l : Expr V F} (hl : Computes M g row l) : Sound M g row (.isNull l) where
  computes := hl.isNull
  ifTrue p dest j hp he := by
    have ht := (Holding.nil M g row hp).load hl he
    simp only [sqlite3ExprIfTrue, holds]
    refine ht.jump _ (fun ρ => rfl) fun ρ ρ' hP => ?_
    have h1 : ρ' _ = _ := hP _ List.mem_cons_self
    rw [h1]
    rfl
  ifFalse p dest j hp he := by
    have ht := (Holding.nil M g row hp).load hl he
    simp only [sqlite3ExprIfFalse, holds]
    refine ht.jump _ (b := fun ρ => !M.isNull (ρ (sqlite3ExprCodeTemp g p l).2.1)) (fun ρ => ?_) fun ρ ρ' hP => ?_
    · rw [Scalars.exec]
      cases M.isNull (ρ (sqlite3ExprCodeTemp g p l).2.1) <;> rfl
    · have h1 : ρ' _ = _ := hP _ List.mem_cons_self
      rw [h1]
      rfl

theorem Sound.notNull {l : Expr V F} (hl : Computes M g row l) : Sound M g row (.notNull l) where
  computes := hl.notNull
  ifTrue p dest j hp he := by
    have ht := (Holding.nil M g row hp).load hl he
    simp only [sqlite3ExprIfTrue, holds]
    refine ht.jump _ (b := fun ρ => !M.isNull (ρ (sqlite3ExprCodeTemp g p l).2.1)) (fun ρ => ?_) fun ρ ρ' hP => ?_
    · rw [Scalars.exec]
      cases M.isNull (ρ (sqlite3ExprCodeTemp g p l).2.1) <;> rfl
    · have h1 : ρ' _ = _ := hP _ List.mem_cons_self
      rw [h1]
      rfl
  ifFalse p dest j hp he := by
    have ht := (Holding.nil M g row hp).load hl he
    simp only [sqlite3ExprIfFalse, holds]
    refine ht.jump _ (fun ρ => rfl) fun ρ ρ' hP => ?_
    have h1 : ρ' _ = _ := hP _ List.mem_cons_self
    rw [h1, not3, Option.map_some, Bool.not_not]
    rfl

theorem Sound.not {l : Expr V F} (hl : Sound M g row l) : Sound M g row (.not l) where
  computes := hl.computes.not
  ifTrue p dest j hp he := by
    simp only [sqlite3ExprIfTrue, holds]
    exact hl.ifFalse p dest j hp he
  ifFalse p dest j hp he := by
    simp only [sqlite3ExprIfFalse, holds]
    refine (hl.ifTrue p dest j hp he).congr fun ρ => ?_
    obtain _ | _ | _ := holds M g row ρ l <;> rfl

theorem Sound.and {l r : Expr V F} (hl : Sound M g row l) (hr : Sound M g row r) :
    Sound M g row (.and l r) where
  computes := hl.computes.and hr.computes
  ifTrue p dest j hp he := by
    have hel : Held p l := fun x hx => he x (by simp [hx])
    have her : Held p r := fun x hx => he x (by simp [hx])
    have h1 := hl.ifFalse p.makeLabel.sqlite3ExprCachePush p.pVdbe.labels (!j) hp.makeLabel.cachePush hel
    have h2 := hr.ifTrue _ dest j h1.grows.wf (Held.grows (p := p.makeLabel.sqlite3ExprCachePush) her h1.grows)
    simp only [sqlite3ExprIfTrue, holds]
    refine (h1.skip h2 fun ρ ρ' hf => by rw [holds_frame her hf fun _ _ => id]).congr fun ρ => ?_
    obtain _ | _ | _ := holds M g row ρ l <;> obtain _ | _ | _ := holds M g row ρ r <;> cases j <;> rfl
  ifFalse p dest j hp he := by
    have hel : Held p l := fun x hx => he x (by simp [hx])
    have her : Held p r := fun x hx => he x (by simp [hx])
    have h1 := hl.ifFalse p dest j hp hel
    have h2 := hr.ifFalse _ dest j h1.grows.wf (her.grows h1.grows)
    simp only [sqlite3ExprIfFalse, holds]
    refine (h1.or h2 fun ρ ρ' hf => by rw [holds_frame her hf fun _ _ => id]).congr fun ρ => ?_
    obtain _ | _ | _ := holds M g row ρ l <;> obtain _ | _ | _ := holds M g row ρ r <;> cases j <;> rfl

theorem Sound.or {l r : Expr V F} (hl : Sound M g row l) (hr : Sound M g row r) :
    Sound M g row (.or l r) where
  computes := hl.computes.or hr.computes
  ifTrue p dest j hp he := by
    have hel : Held p l := fun x hx => he x (by simp [hx])
    have her : Held p r := fun x hx => he x (by simp [hx])
    have h1 := hl.ifTrue p dest j hp hel
    have h2 := hr.ifTrue _ dest j h1.grows.wf (her.grows h1.grows)
    simp only [sqlite3ExprIfTrue, holds]
    refine (h1.or h2 fun ρ ρ' hf => by rw [holds_frame her hf fun _ _ => id]).congr fun ρ => ?_
    obtain _ | _ | _ := holds M g row ρ l <;> obtain _ | _ | _ := holds M g row ρ r <;> cases j <;> rfl
  ifFalse p dest j hp he := by
    have hel : Held p l := fun x hx => he x (by simp [hx])
    have her : Held p r := fun x hx => he x (by simp [hx])
    have h1 := hl.ifTrue p.makeLabel.sqlite3ExprCachePush p.pVdbe.labels (!j) hp.makeLabel.cachePush hel
    have h2 := hr.ifFalse _ dest j h1.grows.wf (Held.grows (p := p.makeLabel.sqlite3ExprCachePush) her h1.grows)
    simp only [sqlite3ExprIfFalse, holds]
    refine (h1.skip h2 fun ρ ρ' hf => by rw [holds_frame her hf fun _ _ => id]).congr fun ρ => ?_
    obtain _ | _ | _ := holds M g row ρ l <;> obtain _ | _ | _ := holds M g row ρ r <;> cases j <;> rfl

/-- `x>=y AND x<=z`, with `x` in a register. -/
def exprAnd (r : ℕ) (x y z : Expr V F) : Expr V F :=
  .and (.compare .ge (.register r x) y) (.compare .le (.register r x) z)

theorem Sound.exprAnd (r : ℕ) (x : Expr V F) {y z : Expr V F} (hy : Computes M g row y)
    (hz : Computes M g row z) :
    Sound M g row (exprAnd r x y z) :=
  (Sound.compare .ge (.register r x) hy).and (.compare .le (.register r x) hz)

theorem holds_exprAnd (r : ℕ) (x y z : Expr V F) (ρ ρ' : ℕ → V) (hx : ρ' r = value M g row ρ x)
    (hy : value M g row ρ' y = value M g row ρ y) (hz : value M g row ρ' z = value M g row ρ z) :
    holds M g row ρ' (exprAnd r x y z) = holds M g row ρ (.between x y z) := by
  rw [exprAnd]
  simp only [holds, value, hx, hy, hz, g.info_register r 0]

theorem Sound.between {x y z : Expr V F} (hx : Computes M g row x) (hy : Computes M g row y)
    (hz : Computes M g row z) :
    Sound M g row (.between x y z) := by
  have key : ∀ (p : Parse V C F), p.WF → Held p (.between x y z) →
      let t := sqlite3ExprCodeTemp g p x
      Emits M g row NoReg p t.1 (fun ρ ρ' => ρ' t.2.1 = value M g row ρ x) ∧ Freed p t.1 t.2.2 ∧
      Held t.1 (Sqlite.ExprCode.exprAnd t.2.1 x y z) ∧
      ∀ ρ ρ', Frame p NoReg ρ ρ' → ρ' t.2.1 = value M g row ρ x →
        holds M g row ρ' (Sqlite.ExprCode.exprAnd t.2.1 x y z) = holds M g row ρ (.between x y z) := by
    intro p hp he t
    have hhy : Held p y := fun r hr => he r (by simp [hr])
    have hhz : Held p z := fun r hr => he r (by simp [hr])
    have ht := hx.temp hp fun r hr => he r (by simp [hr])
    refine ⟨ht.emits, ht.freed, fun r hr => ?_, fun ρ ρ' hf hP => ?_⟩
    · simp only [Sqlite.ExprCode.exprAnd, Expr.regs, List.mem_append, List.mem_singleton] at hr
      obtain (rfl | hr) | (rfl | hr) := hr
      · exact ht.held
      · exact ht.emits.grows.held (hhy r hr)
      · exact ht.held
      · exact ht.emits.grows.held (hhz r hr)
    · exact holds_exprAnd _ x y z ρ ρ' hP (value_frame hhy hf fun _ _ => id) (value_frame hhz hf fun _ _ => id)
  refine ⟨hx.between hy hz, fun p dest j hp he => ?_, fun p dest j hp he => ?_⟩
  · obtain ⟨hem, hfreed, hheld, hh⟩ := key p hp he
    rw [sqlite3ExprIfTrue, exprCodeBetween]
    simp only [if_true]
    have h := (Sound.exprAnd (sqlite3ExprCodeTemp g p x).2.1 x hy hz).ifTrue _ dest j hem.grows.wf hheld
    exact (Branches.after hem h fun ρ ρ' hf hP => by rw [hh ρ ρ' hf hP]).release (h.grows.freed hfreed)
  · obtain ⟨hem, hfreed, hheld, hh⟩ := key p hp he
    rw [sqlite3ExprIfFalse, exprCodeBetween]
    simp only [Bool.false_eq_true, if_false]
    have h := (Sound.exprAnd (sqlite3ExprCodeTemp g p x).2.1 x hy hz).ifFalse _ dest j hem.grows.wf hheld
    exact (Branches.after hem h fun ρ ρ' hf hP => by rw [hh ρ ρ' hf hP]).release (h.grows.freed hfreed)

/-! `CASE`. -/

/-- What is tested for a `WHEN`. -/
def pTest (pX : Option (ℕ × Expr V F)) (pWhen : Expr V F) : Expr V F :=
  match pX with
  | none => pWhen
  | some (r, x) => .compare .eq (.register r x) pWhen

theorem pTest_regs {pX : Option (ℕ × Expr V F)} {w : Expr V F} {r : ℕ} (hr : r ∈ (pTest pX w).regs) :
    r ∈ w.regs ∨ ∃ a ∈ pX, a.1 = r := by
  obtain _ | ⟨r', x⟩ := pX
  · exact .inl hr
  · rw [pTest, Expr.regs, List.mem_append] at hr
    obtain hr | hr := hr
    · exact .inr ⟨(r', x), rfl, (List.mem_singleton.mp hr).symm⟩
    · exact .inl hr

/-- The expression in the register, with its value. -/
def cacheX (ρ : ℕ → V) (pX : Option (ℕ × Expr V F)) : Option (Expr V F × V) := pX.map fun a => (a.2, ρ a.1)

theorem caseLoop_cons (pX : Option (ℕ × Expr V F)) (w t : Expr V F) (es : List (Expr V F × Expr V F))
    (target endLabel : ℕ) :
    caseLoop g p pX ((w, t) :: es) target endLabel =
      let p₂ := sqlite3ExprIfFalse g p.sqlite3ExprCachePush.makeLabel (pTest pX w) p.pVdbe.labels true
      let p₃ := (sqlite3ExprCode g p₂ t target).addOp (.goto (.label endLabel))
      caseLoop g ((p₃.sqlite3ExprCachePop 1).resolveLabel p.pVdbe.labels) pX es target endLabel := by
  obtain _ | ⟨r, x⟩ := pX <;> simp only [caseLoop, pTest] <;> rfl

theorem Sound.pTest {pX : Option (ℕ × Expr V F)} {w : Expr V F} (hw : Sound M g row w) :
    Sound M g row (pTest pX w) := by
  obtain _ | ⟨r, x⟩ := pX
  · exact hw
  · exact .compare .eq (.register r x) hw.computes

theorem caseValue_cons (ρ : ℕ → V) (pX : Option (ℕ × Expr V F)) (w t : Expr V F)
    (es : List (Expr V F × Expr V F))
    (y : Option (Expr V F)) :
    caseValue M g row ρ (cacheX ρ pX) ((w, t) :: es) y =
      if holds M g row ρ (pTest pX w) = some true then value M g row ρ t
      else caseValue M g row ρ (cacheX ρ pX) es y := by
  obtain _ | ⟨r, x⟩ := pX
  · rw [cacheX, Option.map_none, caseValue]
    rfl
  · simp only [cacheX, pTest, Option.map_some, caseValue, holds, value, g.info_register r 0]

theorem caseLoop_runs (pX : Option (ℕ × Expr V F)) (target endLabel : ℕ) (y : Option (Expr V F)) :
    ∀ {es : List (Expr V F × Expr V F)} {p q : Parse V C F}, caseLoop g p pX es target endLabel = q →
    (∀ a ∈ es, Sound M g row a.1 ∧ Sound M g row a.2) → p.WF → p.Fresh target →
    (∀ r ∈ regsPairs es, ¬p.Avail r) → target ∉ regsPairs es → (∀ a ∈ pX, ¬p.Avail a.1) →
    (∀ r ∈ regsOption y, ¬p.Avail r) → target ∉ regsOption y →
    Grows (· = target) p q ∧ (∀ k, q.Cached k → p.Cached k) ∧
      ∀ X : Image (Op V C F), X.Contains q.pVdbe → ∀ ρ, CacheOK M g row p ρ → ∃ ρ',
        Frame p (· = target) ρ ρ' ∧
        CacheOK M g row q ρ' ∧
        (X.Runs (M.exec row) (p.pVdbe.here, ρ) (X.address endLabel, ρ') ∧
            ρ' target = caseValue M g row ρ (cacheX ρ pX) es y ∨
          X.Runs (M.exec row) (p.pVdbe.here, ρ) (q.pVdbe.here, ρ') ∧
            caseValue M g row ρ (cacheX ρ pX) es y = elseValue M g row ρ y)
  | [], p, q, hcode, _, hp, _, _, _, _, _, _ => by
    rw [caseLoop] at hcode
    subst hcode
    refine ⟨hp.refl, fun _ hk => hk, fun X _ ρ hρ => ⟨ρ, .refl, hρ, .inr ⟨Image.Runs.refl _ _, ?_⟩⟩⟩
    rw [caseValue]
  | (w, t) :: es, p, q, hcode, h, hp, ht, hregs, hnot, hX, hy, hynot => by
    obtain ⟨hw, hth⟩ := h (w, t) List.mem_cons_self
    have htest : Held p (pTest pX w) := by
      intro r hr
      obtain hr | ⟨a, ha, rfl⟩ := pTest_regs hr
      · exact hregs r (by simp [hr])
      · exact hX a ha
    -- the jump over the branch
    have hif := hw.pTest.ifFalse p.sqlite3ExprCachePush.makeLabel p.pVdbe.labels true hp.cachePush.makeLabel htest
    rw [caseLoop_cons] at hcode
    generalize sqlite3ExprIfFalse g p.sqlite3ExprCachePush.makeLabel (pTest pX w) p.pVdbe.labels true = p₂ at *
    -- the branch
    have hthen := hth.computes.code hif.grows.wf
      (Fresh.grows (p := p.sqlite3ExprCachePush.makeLabel) ⟨ht.pos, ht.held, ht.uncached⟩ hif.grows id)
      (fun r hr => hif.grows.held (hregs r (by simp [hr]))) fun hr => hnot (by simp [hr])
    simp only at hcode
    generalize sqlite3ExprCode g p₂ t target = p₃ at *
    have hgoto : Grows (· = target) p₃ (p₃.addOp (.goto (.label endLabel))) :=
      hthen.grows.wf.grows_code rfl (Program.extends_addOp _ _)
    have hg : Grows (· = target) p.sqlite3ExprCachePush.makeLabel (p₃.addOp (.goto (.label endLabel))) :=
      (hif.grows.mono fun _ hr => hr.elim).trans (hthen.grows.trans hgoto)
    have hown : Grows (· = target) p.sqlite3ExprCachePush
        ((p₃.addOp (.goto (.label endLabel))).resolveLabel p.pVdbe.labels) := hg.own_label
    obtain ⟨hgp, hcodep, hsub⟩ := cachePush_grows hown
    have hcomm : ((p₃.addOp (.goto (.label endLabel))).sqlite3ExprCachePop 1).resolveLabel p.pVdbe.labels =
        ((p₃.addOp (.goto (.label endLabel))).resolveLabel p.pVdbe.labels).sqlite3ExprCachePop 1 := rfl
    rw [hcomm] at hcode
    -- the others
    obtain ⟨hgl, hsubl,
      hrunl⟩ := caseLoop_runs pX target endLabel y hcode (fun a ha => h a (List.mem_cons_of_mem _ ha)) hgp.wf
      ⟨ht.pos, hgp.held ht.held, fun k hk => ht.uncached k (hsub k hk).2.1⟩
      (fun r hr => hgp.held (hregs r (by simp [hr]))) (fun hr => hnot (by simp [hr]))
      (fun a ha => hgp.held (hX a ha)) (fun r hr => hgp.held (hy r hr)) hynot
    refine ⟨hgp.trans hgl, fun k hk => (hsub k (hsubl k hk)).2.1, fun X hXq ρ hρ => ?_⟩
    have hX₅ := hXq.of_extends hgl.code
    rw [hcodep] at hX₅
    obtain ⟨hX₄, hnext⟩ := hX₅.own_label (p := p.sqlite3ExprCachePush.pVdbe) hg.code
    have hnext : X.address p.pVdbe.labels = (p₃.addOp (.goto (.label endLabel))).pVdbe.here := hnext
    have hX₃ := hX₄.of_extends hgoto.code
    obtain ⟨ρ₁, hf₁, hrun₁⟩ := hif.runs X (hX₃.of_extends hthen.grows.code) ρ hρ
    have hf : Frame p (· = target) ρ ρ₁ := fun r hr _ => hf₁ r hr id
    rw [caseValue_cons]
    by_cases hb : holds M g row ρ (pTest pX w) = some true
    · rw [if_pos hb]
      rw [hb, if_neg (by decide)] at hrun₁
      obtain ⟨ρ', hrun', hc', hf', hv'⟩ := hthen.runs X hX₃ ρ₁ hrun₁.2
      have hjump : X.Runs (M.exec row) (p₃.pVdbe.here, ρ') (X.resolve (.label endLabel),
        ρ') := Image.Runs.jump hX₄ rfl
      refine ⟨ρ', fun r hr hT => ?_, fun k hk => hc' k (hsub k (hsubl k hk)).1,
        .inl ⟨(hrun₁.1.trans hrun').trans hjump, ?_⟩⟩
      · exact (hf' r (hif.grows.held hr) hT).trans (hf r hr hT)
      · rw [hv']
        exact (congr t _ _ fun r hr => hf₁ r (hregs r (by simp [hr])) id).1
    · rw [if_neg hb]
      rw [if_pos (not3_getD_true hb), hnext] at hrun₁
      obtain ⟨ρ', hf', hc', hor⟩ := hrunl X hXq ρ₁ fun k hk => by
        obtain ⟨hk₃, -, hl⟩ := hsub k hk
        exact hrun₁.2 k ((hthen.grows.trans hgoto).old k hk₃ (hif.grows.level ▸ hl)) hl
      have hvalue : caseValue M g row ρ₁ (cacheX ρ₁ pX) es y = caseValue M g row ρ (cacheX ρ pX) es y := by
        have hx : cacheX ρ₁ pX = cacheX ρ pX := by
          obtain _ | ⟨r, x⟩ := pX
          · rfl
          · rw [cacheX, cacheX, Option.map_some, Option.map_some, hf₁ r (hX (r, x) rfl) id]
        rw [hx]
        exact caseValue_congr (fun e _ => congr e) (fun r hr => hf₁ r (hy r hr) id)
          (fun a _ => ⟨congr a.1, congr a.2⟩) fun r hr => hf₁ r (hregs r (by simp [hr])) id
      have helse : elseValue M g row ρ₁ y = elseValue M g row ρ y := by
        obtain _ | e := y
        · rw [elseValue, elseValue]
        · rw [elseValue, elseValue]
          exact (congr e _ _ fun r hr => hf₁ r (hy r hr) id).1
      rw [hvalue, helse] at hor
      refine ⟨ρ', hf.trans hgp hf', hc',
        hor.imp (fun ho => ⟨hrun₁.1.trans ho.1, ho.2⟩) fun ho => ⟨hrun₁.1.trans ho.1, ho.2⟩⟩

theorem codeElse_emits {y : Option (Expr V F)} {target : ℕ} (h : ∀ e ∈ y, Computes M g row e) (hp : p.WF)
    (ht : p.Fresh target) (hy : ∀ r ∈ regsOption y, ¬p.Avail r) (hnot : target ∉ regsOption y) :
    Emits M g row (· = target) p (codeElse g p y target) (fun ρ ρ' => ρ' target = elseValue M g row ρ y) ∧
      ∀ k, (codeElse g p y target).Cached k → p.Cached k := by
  obtain _ | e := y
  · simp only [codeElse, elseValue]
    refine ⟨(Emits.addOp hp ht _ (f := fun _ => M.null) fun ρ => rfl).post ?_, fun k hk => hk⟩
    rintro ρ _ - rfl
    exact Function.update_self _ _ _
  · have hem := (h e rfl).code (p := p.sqlite3ExprCachePush) hp.cachePush ⟨ht.pos, ht.held,
    ht.uncached⟩ hy hnot
    simp only [codeElse, elseValue]
    exact ⟨hem.pushPop, fun k hk => ((cachePush_grows hem.grows).2.2 k hk).2.1⟩

/-- The loop over the `WHEN` terms, and the `ELSE` term. -/
theorem case_runs (pX : Option (ℕ × Expr V F)) {target endLabel : ℕ} {es : List (Expr V F × Expr V F)}
    {y : Option (Expr V F)} (h : ∀ a ∈ es, Sound M g row a.1 ∧ Sound M g row a.2) (hys : ∀ e ∈ y,
      Computes M g row e)
    (hp : p.WF) (ht : p.Fresh target) (hregs : ∀ r ∈ regsPairs es, ¬p.Avail r) (hnot : target ∉ regsPairs es)
    (hX : ∀ a ∈ pX, ¬p.Avail a.1) (hy : ∀ r ∈ regsOption y, ¬p.Avail r) (hynot : target ∉ regsOption y)
    (hs : codeElse g (caseLoop g p pX es target endLabel) y target = s) :
    Grows (· = target) p s ∧ (∀ k, s.Cached k → k.iReg ≠ target) ∧
      ∀ X : Image (Op V C F), X.Contains s.pVdbe → X.address endLabel = s.pVdbe.here → ∀ ρ, CacheOK M g row p ρ →
        ∃ ρ', X.Runs (M.exec row) (p.pVdbe.here, ρ) (s.pVdbe.here, ρ') ∧ CacheOK M g row s ρ' ∧
          Frame p (· = target) ρ ρ' ∧ ρ' target = caseValue M g row ρ (cacheX ρ pX) es y := by
  obtain ⟨hg, hsub, hrun⟩ := caseLoop_runs pX target endLabel y rfl h hp ht hregs hnot hX hy hynot
  generalize caseLoop g p pX es target endLabel = q at *
  obtain ⟨hem, hsubs⟩ := codeElse_emits hys hg.wf
    ⟨ht.pos, hg.held ht.held, fun k hk => ht.uncached k (hsub k hk)⟩ (fun r hr => hg.held (hy r hr)) hynot
  rw [hs] at hem hsubs
  refine ⟨hg.trans hem.grows, fun k hk => ht.uncached k (hsub k (hsubs k hk)), fun X hXs hend ρ hρ => ?_⟩
  obtain ⟨ρ₁, hf₁, hc₁, ⟨hrun₁, hv⟩ | ⟨hrun₁, hv⟩⟩ := hrun X (hXs.of_extends hem.grows.code) ρ hρ
  · rw [hend] at hrun₁
    exact ⟨ρ₁, hrun₁, fun k hk => hc₁ k (hsubs k hk), hf₁, hv⟩
  · obtain ⟨ρ', hrun', hc', hf', hv'⟩ := hem.runs X hXs ρ₁ hc₁
    refine ⟨ρ', hrun₁.trans hrun', hc', hf₁.trans hg hf', ?_⟩
    rw [hv, hv']
    obtain _ | e := y
    · rw [elseValue, elseValue]
    · rw [elseValue, elseValue]
      exact (congr e _ _ fun r hr => hf₁ r (hy r hr) fun heq => hynot (heq ▸ hr)).1

theorem Computes.case {x : Option (Expr V F)} {es : List (Expr V F × Expr V F)} {y : Option (Expr V F)}
    (hx : ∀ e ∈ x, Computes M g row e) (h : ∀ a ∈ es, Sound M g row a.1 ∧ Sound M g row a.2)
    (hy : ∀ e ∈ y, Computes M g row e) : Computes M g row (.case x es y) := by
  intro p target hp ht hheld hnot
  have hesr : ∀ r ∈ regsPairs es, ¬p.Avail r := fun r hr => hheld r (by simp [hr])
  have hyr : ∀ r ∈ regsOption y, ¬p.Avail r := fun r hr => hheld r (by simp [hr])
  have hesn : target ∉ regsPairs es := fun hr => hnot (by simp [hr])
  have hyn : target ∉ regsOption y := fun hr => hnot (by simp [hr])
  have ht₀ : p.makeLabel.Fresh target := ⟨ht.pos, ht.held, ht.uncached⟩
  obtain _ | e := x
  · obtain ⟨hg, hu,
    hrun⟩ := case_runs (p := p.makeLabel) none h hy hp.makeLabel ht₀ hesr hesn nofun hyr hyn rfl
    simp only [sqlite3ExprCodeTarget, value]
    refine .of_emits ht ⟨hg.own_label, fun X hX ρ hρ => ?_⟩ fun _ => hu
    obtain ⟨hXs, hend⟩ := hX.own_label hg.code
    exact hrun X hXs hend ρ hρ
  · have hl := (hx e rfl).temp (p := p.makeLabel) hp.makeLabel fun r hr => hheld r (by simp [hr])
    simp only [sqlite3ExprCodeTarget, value]
    generalize sqlite3ExprCodeTemp g p.makeLabel e = t at *
    obtain ⟨hg, hu, hrun⟩ := case_runs (p := t.1) (some (t.2.1, e)) h hy hl.emits.grows.wf
      (ht₀.grows hl.emits.grows id) (fun r hr => hl.emits.grows.held (hesr r hr)) hesn
      (fun a ha => by obtain rfl := Option.mem_some_iff.mp ha; exact hl.held)
      (fun r hr => hl.emits.grows.held (hyr r hr)) hyn rfl
    have hg' := (hl.emits.grows.mono (U := (· = target)) fun _ hr => hr.elim).trans hg
    refine .of_emits ht ⟨hg'.own_label, fun X hX ρ hρ => ?_⟩ fun _ => hu
    obtain ⟨hXs, hend⟩ := hX.own_label hg'.code
    obtain ⟨ρ₁, hrun₁, hc₁, hf₁, hv₁⟩ := hl.emits.runs X (hXs.of_extends hg.code) ρ hρ
    obtain ⟨ρ', hrun', hc', hf', hv'⟩ := hrun X hXs hend ρ₁ hc₁
    have hf : Frame p (· = target) ρ ρ₁ := fun r hr _ => hf₁ r hr id
    refine ⟨ρ', hrun₁.trans hrun', hc',
      Frame.trans (p := p.makeLabel) (hl.emits.grows.mono fun _ hr => hr.elim) hf hf', ?_⟩
    rw [hv', cacheX, Option.map_some, hv₁]
    exact caseValue_congr (fun e _ => congr e) (fun r hr => hf₁ r (hyr r hr) id) (fun a _ => ⟨congr a.1, congr a.2⟩)
      fun r hr => hf₁ r (hesr r hr) id

/-! All expressions. -/

theorem computes_of_sub (e : Expr V F) (h : Settled M g row e)
    (ih : ∀ e' : Expr V F, e'.size < e.size → Settled M g row e' → Sound M g row e') : Computes M g row e := by
  have computes : ∀ e' : Expr V F, e'.size < e.size → Settled M g row e' → Computes M g row e' :=
    fun e' hlt h' => (ih e' hlt h').computes
  cases e with
  | null =>
    exact .constant M.null .null (fun p target => by simp only [sqlite3ExprCodeTarget]) (fun target ρ => rfl)
      fun ρ => by simp only [value]
  | integer n =>
    exact .constant (M.int n) (.integer n) (fun p target => by simp only [sqlite3ExprCodeTarget]) (fun target ρ => rfl)
      fun ρ => by simp only [value]
  | number v neg =>
    exact .constant v (.constant · v) (fun p target => by simp only [sqlite3ExprCodeTarget]) (fun target ρ => rfl)
      fun ρ => by simp only [value]
  | literal v =>
    exact .constant v (.constant · v) (fun p target => by simp only [sqlite3ExprCodeTarget]) (fun target ρ => rfl)
      fun ρ => by simp only [value]
  | «variable» i =>
    exact .constant (row.aVar i) (.variable i) (fun p target => by simp only [sqlite3ExprCodeTarget])
      (fun target ρ => rfl) fun ρ => by simp only [value]
  | column iTable iColumn => exact .column iTable iColumn
  | register r x => exact .register r x
  | compare op l r =>
    exact .compare op (computes l (by rw [Expr.size]; omega) h.1) (computes r (by rw [Expr.size]; omega) h.2)
  | «is» l r =>
    exact .is (computes l (by rw [Expr.size]; omega) h.1) (computes r (by rw [Expr.size]; omega) h.2)
  | isNot l r =>
    exact .isNot (computes l (by rw [Expr.size]; omega) h.1) (computes r (by rw [Expr.size]; omega) h.2)
  | and l r =>
    exact .and (computes l (by rw [Expr.size]; omega) h.1) (computes r (by rw [Expr.size]; omega) h.2)
  | or l r =>
    exact .or (computes l (by rw [Expr.size]; omega) h.1) (computes r (by rw [Expr.size]; omega) h.2)
  | binary op l r =>
    exact .binary op (computes l (by rw [Expr.size]; omega) h.2.1) (computes r (by rw [Expr.size]; omega) h.2.2) h.1
  | uminus l =>
    exact (computes l (by simp) h.2).uminus h.1
  | uplus l =>
    exact (computes l (by simp) h).uplus
  | bitNot l =>
    exact (computes l (by simp) h).bitNot
  | not l =>
    exact (computes l (by simp) h).not
  | isNull l =>
    exact (computes l (by simp) h).isNull
  | notNull l =>
    exact (computes l (by simp) h).notNull
  | between x y z =>
    exact .between (computes x (by rw [Expr.size]; omega) h.1) (computes y (by rw [Expr.size]; omega) h.2.1)
      (computes z (by rw [Expr.size]; omega) h.2.2)
  | coalesce e' es =>
    refine (computes e' (by rw [Expr.size]; omega) h.1).coalesce fun e' he' => computes e' ?_ (.of_mem h.2 he')
    have hlt := size_lt_of_mem he'
    rw [Expr.size]
    omega
  | function pDef es =>
    refine .function fun e' he' => computes e' ?_ (.of_mem h he')
    have hlt := size_lt_of_mem he'
    rw [Expr.size]
    omega
  | case x es y =>
    obtain ⟨hx, hes, hy⟩ := h
    refine .case (fun e' he' => computes e' ?_ ?_) (fun a ha => ?_) fun e' he' => computes e' ?_ ?_
    · cases he'
      rw [Expr.size, sizeOption]
      omega
    · cases he'
      rwa [SettledOption] at hx
    · have hlt := size_lt_of_pair ha
      obtain ⟨h1, h2⟩ := Settled.of_pair hes ha
      exact ⟨ih a.1 (by rw [Expr.size]; omega) h1, ih a.2 (by rw [Expr.size]; omega) h2⟩
    · cases he'
      rw [Expr.size, sizeOption]
      omega
    · cases he'
      rwa [SettledOption] at hy

theorem sound (e : Expr V F) (h : Settled M g row e) : Sound M g row e := by
  induction e using Expr.strongInduction with
  | h e ih =>
  have hc : Computes M g row e := computes_of_sub e h ih
  cases e with
  | compare op l r =>
    exact .compare op (ih l (by rw [Expr.size]; omega) h.1).computes (ih r (by rw [Expr.size]; omega) h.2).computes
  | «is» l r =>
    exact .is (ih l (by rw [Expr.size]; omega) h.1).computes (ih r (by rw [Expr.size]; omega) h.2).computes
  | isNot l r =>
    exact .isNot (ih l (by rw [Expr.size]; omega) h.1).computes (ih r (by rw [Expr.size]; omega) h.2).computes
  | and l r =>
    exact (ih l (by rw [Expr.size]; omega) h.1).and (ih r (by rw [Expr.size]; omega) h.2)
  | or l r =>
    exact (ih l (by rw [Expr.size]; omega) h.1).or (ih r (by rw [Expr.size]; omega) h.2)
  | not l =>
    exact (ih l (by simp) h).not
  | isNull l =>
    exact .isNull (ih l (by simp) h).computes
  | notNull l =>
    exact .notNull (ih l (by simp) h).computes
  | between x y z =>
    exact .between (ih x (by rw [Expr.size]; omega) h.1).computes (ih y (by rw [Expr.size]; omega) h.2.1).computes
      (ih z (by rw [Expr.size]; omega) h.2.2).computes
  | _ =>
    -- the `default` of the `switch`
    exact .of_value hc (fun p dest j => by simp only [sqlite3ExprIfTrue])
      (fun p dest j => by simp only [sqlite3ExprIfFalse]) fun ρ => by simp only [holds]

/-- The code of an expression puts its value into the target and keeps the other registers in use. -/
theorem sqlite3ExprCode_value (hp : p.WF) (e : Expr V F) (hs : Settled M g row e) {target : ℕ} (ht : p.Fresh target)
    (he : Held p e) (hnot : target ∉ e.regs) :
    Emits M g row (· = target) p (sqlite3ExprCode g p e target) fun ρ ρ' => ρ' target = value M g row ρ e :=
  (sound e hs).computes.code hp ht he hnot

/-- Null, integers, and texts that look like integers. -/
inductive Sample
  | null
  | int (n : ℤ)
  | text (n : ℤ)
  deriving DecidableEq

def Sample.toInt : Sample → ℤ
  | null => 0
  | int n | text n => n

/-- Values with `typeof()` as the only function. -/
def sampleScalars : Scalars Sample Unit Unit where
  null := .null
  int := .int
  isNull v := v = .null
  intValue := Sample.toInt
  isTrue v := v.toInt ≠ 0
  compare _ v w := v.toInt - w.toInt
  numeric
    | .text n => .int n
    | v => v
  binary op v w :=
    if v = .null ∨ w = .null then .null
    else if op = .plus then .int (v.toInt + w.toInt) else .int (v.toInt - w.toInt)
  bitNot v := v
  realAffinity v := v
  function
    | _, [.int _] => .int 1
    | _, [.text _] => .int 2
    | _, _ => .null
  isNull_null := rfl
  isNull_int _ := rfl
  intValue_int _ := rfl
  isTrue_int _ := rfl

def sampleSchema : Schema Sample Unit Unit :=
  ⟨fun _ => ⟨-1, fun _ => false⟩, fun _ _ => (), fun _ _ _ _ => rfl, fun _ => true⟩

/-- A row with 3, null and the text `'1'`; the text is not loaded for `typeof()`. -/
def sampleRow : Row sampleScalars where
  column _ j := if j = 0 then .int 3 else if j = 1 then .null else .text 1
  rowid _ := .null
  aVar _ := .null
  header _ _ j := if j = 0 then .int 3 else if j = 1 then .null else .text 0
  function_header _ _ j := by
    by_cases h0 : j = 0
    · simp [h0, sampleScalars]
    · by_cases h1 : j = 1 <;> simp [h0, h1, sampleScalars]

/-- `CASE a WHEN 5 THEN 1 ELSE COALESCE(b, (a+4)+typeof(c)) END` for that row. -/
theorem exprCode_value_case :
    let q := sqlite3ExprCode sampleSchema (Parse.zero _ _ _ 1 false) (.case (some (.column 0 0))
      [(.integer 5, .integer 1)] (some (.coalesce (.column 0 1)
        [.binary .plus (.binary .plus (.column 0 0) (.integer 4)) (.function () [.column 0 2])]))) 1
    ∃ ρ', (Image.ofProgram q.pVdbe).Runs (sampleScalars.exec sampleRow) (0, fun _ => .null) (q.pVdbe.here, ρ') ∧
      ρ' 1 = .int 9 := by
  intro q
  have hs : Settled sampleScalars sampleSchema sampleRow (.case (some (.column 0 0)) [(.integer 5, .integer 1)]
      (some (.coalesce (.column 0 1) [.binary .plus (.binary .plus (.column 0 0) (.integer 4))
        (.function () [.column 0 2])]))) := by
    simp [Settled, SettledOption, SettledPairs, SettledList, Keeps, Expr.isShared, value, columnValue, sampleScalars,
      sampleSchema, sampleRow]
  have h : Emits sampleScalars sampleSchema sampleRow (· = 1) _ q _ :=
    sqlite3ExprCode_value (Parse.zero_wf 1 false) _ hs (Parse.zero_fresh Nat.one_pos (Nat.le_refl 1)) (by simp [Held])
      (by simp)
  obtain ⟨ρ', hrun, -, -, hv⟩ := h.runs _ (Image.contains_ofProgram _) (fun _ => .null)
    fun k hk => absurd hk (Parse.zero_uncached 1 false k)
  refine ⟨ρ', hrun, hv.trans ?_⟩
  simp [value, valueList, caseValue, elseValue, coalesceValue, columnValue, Scalars.comparison, Scalars.operand,
    Binary.arithmetic, sampleScalars, sampleSchema, sampleRow, Cmp.res, Sample.toInt]

/-- The code of a condition jumps exactly if the condition is true, or false, or unknown where that is asked for. -/
theorem sqlite3ExprIf_jumps (hp : p.WF) (e : Expr V F) (hs : Settled M g row e) (he : Held p e) (dest : ℕ)
    (jumpIfNull : Bool) :
    Branches M g row p (sqlite3ExprIfTrue g p e dest jumpIfNull) dest (fun ρ => (holds M g row ρ e).getD jumpIfNull) ∧
      Branches M g row p (sqlite3ExprIfFalse g p e dest jumpIfNull) dest fun ρ =>
        (not3 (holds M g row ρ e)).getD jumpIfNull :=
  ⟨(sound e hs).ifTrue p dest jumpIfNull hp he, (sound e hs).ifFalse p dest jumpIfNull hp he⟩

/-- `a+1 BETWEEN 1 AND 5 AND b IS NULL` for that row. -/
theorem exprIf_jumps_between :
    let q := sqlite3ExprIfTrue sampleSchema (Parse.zero _ _ _ 0 false).makeLabel
      (.and (.between (.binary .plus (.column 0 0) (.integer 1)) (.integer 1) (.integer 5)) (.isNull (.column 0 1))) 0
      false
    ∃ ρ', (Image.ofProgram q.pVdbe).Runs (sampleScalars.exec sampleRow) (0, fun _ => .null)
      ((Image.ofProgram q.pVdbe).address 0, ρ') := by
  intro q
  have hs : Settled sampleScalars sampleSchema sampleRow (.and (.between (.binary .plus (.column 0 0) (.integer 1))
      (.integer 1) (.integer 5)) (.isNull (.column 0 1))) := by
    simp [Settled, Keeps, Expr.isShared, value, columnValue, sampleScalars, sampleSchema, sampleRow]
  have h : Branches sampleScalars sampleSchema sampleRow (Parse.zero _ _ _ 0 false).makeLabel q 0 _ :=
    (sqlite3ExprIf_jumps (Parse.zero_wf 0 false).makeLabel _ hs (by simp [Held]) 0 false).1
  obtain ⟨ρ', -, hrun⟩ := h.runs _ (Image.contains_ofProgram _) (fun _ => .null)
    fun k (hk : (Parse.zero Sample Unit Unit 0 false).Cached k) => absurd hk (Parse.zero_uncached 0 false k)
  refine ⟨ρ', ?_⟩
  rw [if_pos] at hrun
  · exact hrun.1
  · simp [holds, value, columnValue, Scalars.comparison, Scalars.operand, Binary.arithmetic, sampleScalars,
      sampleSchema, sampleRow, Cmp.res, and3, Sample.toInt]

/-! The two ways to code a condition. -/

section Agreement

variable (M : Scalars V C F) (g : Schema V C F) (row : Row M) (ρ : ℕ → V)

/-- The operands of `AND`, `OR` and `NOT` are as true for `OP_If` as for `OP_And`, and a `BETWEEN` compares as well
with its left operand in a register. -/
def Agrees : Expr V F → Prop
  | .and l r | .or l r => Agrees l ∧ Agrees r
  | .not l => Agrees l
  | .compare .. | .is .. | .isNot .. | .isNull _ | .notNull _ => True
  | .between x y z =>
    g.compareInfo (.register 0 x) y = g.compareInfo x y ∧ g.compareInfo (.register 0 x) z = g.compareInfo x z
  | e => M.condition (value M g row ρ e) = M.truth (value M g row ρ e)

variable {M g row ρ}

/-- What the code with jumps takes for true is what the code without takes for true. -/
theorem holds_eq_truth : ∀ {e : Expr V F}, Agrees M g row ρ e →
    holds M g row ρ e = M.truth (value M g row ρ e)
  | .and l r, h => by
    simp only [holds, value, Scalars.truth_ofTruth, holds_eq_truth h.1, holds_eq_truth h.2]
  | .or l r, h => by
    simp only [holds, value, Scalars.truth_ofTruth, holds_eq_truth h.1, holds_eq_truth h.2]
  | .not l, h => by
    simp only [holds, value, Scalars.truth_ofTruth, holds_eq_truth (e := l) h]
  | .compare .., _ | .is .., _ | .isNot .., _ | .isNull _, _ | .notNull _, _ => by
    simp only [holds, value, Scalars.truth_ofTruth]
  | .between x y z, h => by
    obtain ⟨hy, hz⟩ := h
    simp only [holds, value, Scalars.truth_ofTruth, hy, hz]
  | .null, h | .integer _, h | .number .., h | .literal _, h | .variable _, h | .column ..,
    h | .register .., h
  | .binary .., h | .uminus _, h | .uplus _, h | .bitNot _, h | .coalesce .., h | .function ..,
    h | .case .., h => by
    rw [holds]
    · exact h
    all_goals intros; simp_all

/-- The code of a condition jumps exactly if the code of its value leaves what is true, or false, or unknown where
that is asked for. -/
theorem sqlite3ExprIf_agrees (hp : p.WF) (e : Expr V F) (hs : Settled M g row e) (ha : Agrees M g row ρ e)
    (hρ : CacheOK M g row p ρ) {target : ℕ} (ht : p.Fresh target) (he : Held p e) (hnot : target ∉ e.regs) (dest : ℕ)
    (jumpIfNull : Bool) :
    let q := sqlite3ExprCode g p e target
    let t := sqlite3ExprIfTrue g p e dest jumpIfNull
    let f := sqlite3ExprIfFalse g p e dest jumpIfNull
    ∀ X Y Z : Image (Op V C F), X.Contains q.pVdbe → Y.Contains t.pVdbe → Z.Contains f.pVdbe → ∃ σ τ φ : ℕ → V,
      X.Runs (M.exec row) (p.pVdbe.here, ρ) (q.pVdbe.here, σ) ∧
      Y.Runs (M.exec row) (p.pVdbe.here, ρ)
        (if (M.truth (σ target)).getD jumpIfNull then Y.address dest else t.pVdbe.here, τ) ∧
      Z.Runs (M.exec row) (p.pVdbe.here, ρ)
        (if (not3 (M.truth (σ target))).getD jumpIfNull then Z.address dest else f.pVdbe.here, φ) := by
  intro q t f X Y Z hX hY hZ
  have hvalue := (sound e hs).computes.code hp ht he hnot
  obtain ⟨σ, hrun, -, -, hv⟩ := hvalue.runs X hX ρ hρ
  have htruth : holds M g row ρ e = M.truth (σ target) := (holds_eq_truth ha).trans (congrArg M.truth hv.symm)
  obtain ⟨τ, -, ht'⟩ := ((sound e hs).ifTrue p dest jumpIfNull hp he).runs Y hY ρ hρ
  obtain ⟨φ, -, hf'⟩ := ((sound e hs).ifFalse p dest jumpIfNull hp he).runs Z hZ ρ hρ
  rw [htruth] at ht' hf'
  refine ⟨σ, τ, φ, hrun, ?_, ?_⟩
  · split
    · rename_i hb
      rw [if_pos hb] at ht'
      exact ht'.1
    · rename_i hb
      rw [if_neg hb] at ht'
      exact ht'.1
  · split
    · rename_i hb
      rw [if_pos hb] at hf'
      exact hf'.1
    · rename_i hb
      rw [if_neg hb] at hf'
      exact hf'.1

end Agreement

/-- `a+1 AND NOT b BETWEEN 1 AND 5` for that row, which is unknown. -/
theorem exprIf_agrees_and :
    let p := (Parse.zero Sample Unit Unit 1 false).makeLabel
    let e : Expr Sample Unit := .and (.binary .plus (.column 0 0) (.integer 1))
      (.not (.between (.column 0 1) (.integer 1) (.integer 5)))
    let q := sqlite3ExprCode sampleSchema p e 1
    let t := sqlite3ExprIfTrue sampleSchema p e 0 true
    let f := sqlite3ExprIfFalse sampleSchema p e 0 true
    ∃ σ τ φ : ℕ → Sample,
      (Image.ofProgram q.pVdbe).Runs (sampleScalars.exec sampleRow) (0, fun _ => .null) (q.pVdbe.here, σ) ∧
      (Image.ofProgram t.pVdbe).Runs (sampleScalars.exec sampleRow) (0, fun _ => .null)
        (if (sampleScalars.truth (σ 1)).getD true then (Image.ofProgram t.pVdbe).address 0 else t.pVdbe.here, τ) ∧
      (Image.ofProgram f.pVdbe).Runs (sampleScalars.exec sampleRow) (0, fun _ => .null)
        (if (not3 (sampleScalars.truth (σ 1))).getD true then (Image.ofProgram f.pVdbe).address 0
          else f.pVdbe.here, φ) := by
  intro p e q t f
  have hs : Settled sampleScalars sampleSchema sampleRow e := by
    simp [e, Settled, Keeps, Expr.isShared, value, columnValue, sampleScalars, sampleSchema, sampleRow]
  have ha : Agrees sampleScalars sampleSchema sampleRow (fun _ => .null) e := by
    refine ⟨?_, rfl, rfl⟩
    simp [Agrees, Scalars.condition, Scalars.truth, sampleScalars]
  have hf : p.Fresh 1 := by
    have h : (Parse.zero Sample Unit Unit 1 false).Fresh 1 := Parse.zero_fresh Nat.one_pos (Nat.le_refl 1)
    exact ⟨h.pos, h.held, h.uncached⟩
  exact sqlite3ExprIf_agrees (Parse.zero_wf 1 false).makeLabel e hs ha
    (fun k (hk : (Parse.zero Sample Unit Unit 1 false).Cached k) => absurd hk (Parse.zero_uncached 1 false k)) hf
    (by simp [e, Held]) (by simp [e]) 0 true _ _ _ (Image.contains_ofProgram _) (Image.contains_ofProgram _)
    (Image.contains_ofProgram _)

end Sqlite.ExprCode
