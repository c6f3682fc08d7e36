import Sqlite.ExprCode.Model

/-! What expressions mean: their values, and the truth of conditions in the logic with three values. -/
namespace Sqlite.ExprCode

/-! The logic with three values; `none` is unknown. -/

def and3 : Option Bool → Option Bool → Option Bool
  | some false, _ => some false
  | _, some false => some false
  | some true, some true => some true
  | _, _ => none

def or3 : Option Bool → Option Bool → Option Bool
  | some true, _ => some true
  | _, some true => some true
  | some false, some false => some false
  | _, _ => none

theorem and3_comm (a b : Option Bool) : and3 a b = and3 b a := by
  obtain _ | _ | _ := a <;> obtain _ | _ | _ := b <;> rfl

def not3 : Option Bool → Option Bool := Option.map (!·)

theorem not3_getD_true {a : Option Bool} (h : a ≠ some true) : (not3 a).getD true = true := by
  obtain _ | _ | _ := a
  · rfl
  · rfl
  · exact absurd rfl h

namespace Scalars

variable {V C F : Type} (M : Scalars V C F)

/-- The truth of an operand of `AND`, `OR` and `NOT`. -/
def truth (v : V) : Option Bool := if M.isNull v then none else some (decide (M.intValue v ≠ 0))

/-- The truth of a condition. -/
def condition (v : V) : Option Bool := if M.isNull v then none else some (M.isTrue v)

@[simp] theorem truth_ofTruth (b : Option Bool) : M.truth (M.ofTruth b) = b := by
  obtain _ | _ | _ := b
  · simp [truth, ofTruth, M.isNull_null]
  · simp [truth, ofTruth, M.isNull_int, M.intValue_int]
  · simp [truth, ofTruth, M.isNull_int, M.intValue_int]

theorem logic_eq (v : V) : M.logic v = (M.truth v).elim 2 (fun b => if b then 1 else 0) := by
  rw [logic, truth]
  split
  · rfl
  · rw [Option.elim_some]
    exact if_congr decide_eq_true_iff.symm rfl rfl

/-- The table of `OP_And`. -/
theorem ofLogic_and (v w : V) :
    M.ofLogic (and_logic.getD (M.logic v * 3 + M.logic w) 0) = M.ofTruth (and3 (M.truth w) (M.truth v)) := by
  rw [logic_eq, logic_eq]
  obtain _ | _ | _ := M.truth v <;> obtain _ | _ | _ := M.truth w <;> rfl

/-- The table of `OP_Or`. -/
theorem ofLogic_or (v w : V) :
    M.ofLogic (or_logic.getD (M.logic v * 3 + M.logic w) 0) = M.ofTruth (or3 (M.truth w) (M.truth v)) := by
  rw [logic_eq, logic_eq]
  obtain _ | _ | _ := M.truth v <;> obtain _ | _ | _ := M.truth w <;> rfl

theorem not_eq (v : V) : M.not v = M.ofTruth (not3 (M.truth v)) := by
  rw [not, truth]
  split
  · rfl
  · by_cases h : M.intValue v = 0
    · simp [h, not3, ofTruth]
    · simp [h, not3, ofTruth]

end Scalars

/-- The expression is false exactly if the opposite comparison is true. -/
theorem Cmp.res_opposite (op : Cmp) (n : ℤ) : op.opposite.res n = !op.res n := by
  rw [Bool.eq_iff_iff]
  cases op <;> simp [opposite, res]

theorem Scalars.comparison_opposite {V C F : Type} (M : Scalars V C F) (op : Cmp) (c : C)
    (nullEq : Bool) (v w : V) :
    M.comparison op.opposite c nullEq v w = not3 (M.comparison op c nullEq v w) := by
  simp only [comparison, Cmp.res_opposite]
  split
  · split <;> rfl
  · rfl

theorem Scalars.comparison_nullEq {V C F : Type} (M : Scalars V C F) (op : Cmp) (c : C) (v w : V)
    (a b : Bool) :
    (M.comparison op c true v w).getD a = (M.comparison op c true v w).getD b := by
  simp only [comparison]
  split <;> rfl

/-! Values of expressions, with the registers that they mention. -/

section Value

variable {V C F : Type} (M : Scalars V C F) (g : Schema V C F) (row : Row M)

def columnValue (iTable : ℕ) (iColumn : ℤ) : V :=
  let v := if iColumn < 0 ∨ iColumn = (g.pTab iTable).iPKey then row.rowid iTable else row.column iTable iColumn
  if 0 ≤ iColumn ∧ (g.pTab iTable).isReal iColumn then M.realAffinity v else v

mutual

def value (aMem : ℕ → V) : Expr V F → V
  | .null => M.null
  | .integer iValue => M.int iValue
  | .number v _ => v
  | .literal v => v
  | .variable iColumn => row.aVar iColumn
  | .column iTable iColumn => columnValue M g row iTable iColumn
  | .register iTable _ => aMem iTable
  | .compare op l r => M.ofTruth (M.comparison op (g.compareInfo l r) false (value aMem l) (value aMem r))
  | .is l r => M.ofTruth (M.comparison .eq (g.compareInfo l r) true (value aMem l) (value aMem r))
  | .isNot l r => M.ofTruth (M.comparison .ne (g.compareInfo l r) true (value aMem l) (value aMem r))
  | .and l r => M.ofTruth (and3 (M.truth (value aMem l)) (M.truth (value aMem r)))
  | .or l r => M.ofTruth (or3 (M.truth (value aMem l)) (M.truth (value aMem r)))
  | .binary op l r => M.binary op (M.operand op (value aMem l)) (M.operand op (value aMem r))
  | .uminus (.integer iValue) => M.int (-iValue)
  | .uminus (.number _ neg) => neg
  | .uminus l => M.binary .minus (M.operand .minus (M.int 0)) (M.operand .minus (value aMem l))
  | .uplus l => value aMem l
  | .bitNot l => M.bitNot (value aMem l)
  | .not l => M.ofTruth (not3 (M.truth (value aMem l)))
  | .isNull l => M.ofTruth (some (M.isNull (value aMem l)))
  | .notNull l => M.ofTruth (some (!M.isNull (value aMem l)))
  | .between x l r => M.ofTruth (and3 (M.comparison .ge (g.compareInfo x l) false (value aMem x) (value aMem l))
      (M.comparison .le (g.compareInfo x r) false (value aMem x) (value aMem r)))
  | .coalesce e es => coalesceValue aMem (value aMem e) es
  | .function pDef es => M.function pDef (valueList aMem es)
  | .case none es y => caseValue aMem none es y
  | .case (some x) es y => caseValue aMem (some (x, value aMem x)) es y
  termination_by e => 3 * e.size
  decreasing_by all_goals ((try simp only [Expr.size, sizeOption]); omega)

/-- The truth of a condition, as the code with jumps takes it: of an expression that is no condition itself by
`OP_If`, and of the comparisons of a `BETWEEN` with the left operand in a register. -/
def holds (aMem : ℕ → V) : Expr V F → Option Bool
  | .compare op l r => M.comparison op (g.compareInfo l r) false (value aMem l) (value aMem r)
  | .is l r => M.comparison .eq (g.compareInfo l r) true (value aMem l) (value aMem r)
  | .isNot l r => M.comparison .ne (g.compareInfo l r) true (value aMem l) (value aMem r)
  | .and l r => and3 (holds aMem l) (holds aMem r)
  | .or l r => or3 (holds aMem l) (holds aMem r)
  | .not l => not3 (holds aMem l)
  | .isNull l => some (M.isNull (value aMem l))
  | .notNull l => some (!M.isNull (value aMem l))
  | .between x l r =>
    and3 (M.comparison .ge (g.compareInfo (.register 0 x) l) false (value aMem x) (value aMem l))
      (M.comparison .le (g.compareInfo (.register 0 x) r) false (value aMem x) (value aMem r))
  | e => M.condition (value aMem e)
  termination_by e => 3 * e.size + 1
  decreasing_by all_goals ((try simp only [Expr.size]); omega)

/-- The first of the values that is not null, or the last. -/
def coalesceValue (aMem : ℕ → V) (v : V) : List (Expr V F) → V
  | [] => v
  | e :: es => if M.isNull v then coalesceValue aMem (value aMem e) es else v
  termination_by es => 3 * sizeList es
  decreasing_by all_goals (simp only [sizeList]; omega)

def valueList (aMem : ℕ → V) : List (Expr V F) → List V
  | [] => []
  | e :: es => value aMem e :: valueList aMem es
  termination_by es => 3 * sizeList es
  decreasing_by all_goals (simp only [sizeList]; omega)

/-- The value behind the first `WHEN` that is true, or else that behind `ELSE`. -/
def caseValue (aMem : ℕ → V) (x : Option (Expr V F × V)) (es : List (Expr V F × Expr V F))
    (y : Option (Expr V F)) : V :=
  match es with
  | [] => elseValue aMem y
  | (w, t) :: es =>
    let test := match x with
      | none => holds aMem w
      | some (x, v) => M.comparison .eq (g.compareInfo (.register 0 x) w) false v (value aMem w)
    if test = some true then value aMem t else caseValue aMem x es y
  termination_by 3 * (sizePairs es + sizeOption y) + 2
  decreasing_by all_goals (simp only [sizePairs]; omega)

def elseValue (aMem : ℕ → V) : Option (Expr V F) → V
  | none => M.null
  | some y => value aMem y
  termination_by y => 3 * sizeOption y + 1
  decreasing_by all_goals (simp only [sizeOption]; omega)

end

end Value

/-! Arithmetic leaves numeric affinity in the registers of its operands. -/

section Settled

variable {V C F : Type}

/-- Whether the value may be in a register that others read: that of a column or a register, also behind unary plus. -/
def Expr.isShared : Expr V F → Bool
  | .column .. | .register .. => true
  | .uplus e | .coalesce e [] => e.isShared
  | _ => false

variable (M : Scalars V C F) (g : Schema V C F) (row : Row M)

/-- A value that others read has numeric affinity already. -/
def Keeps (e : Expr V F) : Prop :=
  e.isShared = true → ∀ aMem : ℕ → V, M.numeric (value M g row aMem e) = value M g row aMem e

mutual

/-- Arithmetic does not change what others read. -/
def Settled : Expr V F → Prop
  | .binary op l r => (op.arithmetic = true → Keeps M g row l ∧ Keeps M g row r) ∧ Settled l ∧ Settled r
  | .uminus l => Keeps M g row l ∧ Settled l
  | .compare _ l r | .is l r | .isNot l r | .and l r | .or l r => Settled l ∧ Settled r
  | .uplus l | .bitNot l | .not l | .isNull l | .notNull l => Settled l
  | .between x l r => Settled x ∧ Settled l ∧ Settled r
  | .coalesce e es => Settled e ∧ SettledList es
  | .function _ es => SettledList es
  | .case x es y => SettledOption x ∧ SettledPairs es ∧ SettledOption y
  | _ => True

def SettledList : List (Expr V F) → Prop
  | [] => True
  | e :: es => Settled e ∧ SettledList es

def SettledPairs : List (Expr V F × Expr V F) → Prop
  | [] => True
  | (w, t) :: es => Settled w ∧ Settled t ∧ SettledPairs es

def SettledOption : Option (Expr V F) → Prop
  | none => True
  | some e => Settled e

end

variable {M g row}

theorem Settled.of_mem : ∀ {es : List (Expr V F)} {e : Expr V F}, SettledList M g row es → e ∈ es → Settled M g row e
  | e₀ :: es, e, h, he => by
    rw [SettledList] at h
    obtain rfl | he := List.mem_cons.mp he
    · exact h.1
    · exact Settled.of_mem h.2 he

theorem Settled.of_pair : ∀ {es : List (Expr V F × Expr V F)} {a : Expr V F × Expr V F}, SettledPairs M g row es →
    a ∈ es → Settled M g row a.1 ∧ Settled M g row a.2
  | (w, t) :: es, a, h, ha => by
    rw [SettledPairs] at h
    obtain rfl | ha := List.mem_cons.mp ha
    · exact ⟨h.1, h.2.1⟩
    · exact Settled.of_pair h.2.2 ha

end Settled

/-! The registers that an expression reads. -/

section Registers

variable {V F : Type}

mutual

@[simp] def Expr.regs : Expr V F → List ℕ
  | .register iTable _ => [iTable]
  | .compare _ l r | .is l r | .isNot l r | .and l r | .or l r | .binary _ l r => l.regs ++ r.regs
  | .uminus l | .uplus l | .bitNot l | .not l | .isNull l | .notNull l => l.regs
  | .between x l r => x.regs ++ (l.regs ++ r.regs)
  | .coalesce e es => e.regs ++ regsList es
  | .function _ es => regsList es
  | .case x es y => regsOption x ++ (regsPairs es ++ regsOption y)
  | _ => []

@[simp] def regsList : List (Expr V F) → List ℕ
  | [] => []
  | e :: es => e.regs ++ regsList es

@[simp] def regsPairs : List (Expr V F × Expr V F) → List ℕ
  | [] => []
  | (w, t) :: es => w.regs ++ (t.regs ++ regsPairs es)

@[simp] def regsOption : Option (Expr V F) → List ℕ
  | none => []
  | some e => e.regs

end

end Registers

/-! An induction over the size of expressions reaches the members of lists. -/

section Induction

variable {V F : Type}

theorem Expr.strongInduction {P : Expr V F → Prop}
    (h : ∀ e, (∀ e' : Expr V F, e'.size < e.size → P e') → P e) :
    ∀ e, P e := fun e => (measure Expr.size).wf.induction e h

theorem size_lt_of_mem : ∀ {es : List (Expr V F)} {e : Expr V F}, e ∈ es → e.size < sizeList es + 1
  | e₀ :: es, e, he => by
    rw [sizeList]
    obtain rfl | he := List.mem_cons.mp he
    · omega
    · have ih := size_lt_of_mem he
      omega

theorem size_lt_of_pair : ∀ {es : List (Expr V F × Expr V F)} {a : Expr V F × Expr V F}, a ∈ es →
    a.1.size < sizePairs es + 1 ∧ a.2.size < sizePairs es + 1
  | (w, t) :: es, a, ha => by
    rw [sizePairs]
    obtain rfl | ha := List.mem_cons.mp ha
    · exact ⟨by show w.size < _; omega, by show t.size < _; omega⟩
    · have ih := size_lt_of_pair ha
      omega

end Induction

/-! Values depend only on the registers that are read. -/

section Congr

variable {V C F : Type} (M : Scalars V C F) (g : Schema V C F) (row : Row M)

def Congr (e : Expr V F) : Prop :=
  ∀ ρ ρ' : ℕ → V, (∀ r ∈ e.regs, ρ' r = ρ r) → value M g row ρ' e = value M g row ρ e ∧
    holds M g row ρ' e = holds M g row ρ e

variable {M g row} {ρ ρ' : ℕ → V}

theorem coalesceValue_congr : ∀ {es : List (Expr V F)}, (∀ e ∈ es, Congr M g row e) →
    (∀ r ∈ regsList es, ρ' r = ρ r) → ∀ v, coalesceValue M g row ρ' v es = coalesceValue M g row ρ v es
  | [], _, _, v => by rw [coalesceValue, coalesceValue]
  | e :: es, h, hr, v => by
    rw [coalesceValue, coalesceValue, (h e List.mem_cons_self ρ ρ' fun r hm => hr r (by simp [hm])).1,
      coalesceValue_congr (fun e' he' => h e' (List.mem_cons_of_mem e he')) fun r hm => hr r (by simp [hm])]

theorem valueList_congr : ∀ {es : List (Expr V F)}, (∀ e ∈ es, Congr M g row e) →
    (∀ r ∈ regsList es, ρ' r = ρ r) → valueList M g row ρ' es = valueList M g row ρ es
  | [], _, _ => by rw [valueList, valueList]
  | e :: es, h, hr => by
    rw [valueList, valueList, (h e List.mem_cons_self ρ ρ' fun r hm => hr r (by simp [hm])).1,
      valueList_congr (fun e' he' => h e' (List.mem_cons_of_mem e he')) fun r hm => hr r (by simp [hm])]

theorem caseValue_congr {x : Option (Expr V F × V)} {y : Option (Expr V F)} (hy : ∀ e ∈ y, Congr M g row e)
    (hyr : ∀ r ∈ regsOption y, ρ' r = ρ r) : ∀ {es : List (Expr V F × Expr V F)},
    (∀ a ∈ es, Congr M g row a.1 ∧ Congr M g row a.2) → (∀ r ∈ regsPairs es, ρ' r = ρ r) →
    caseValue M g row ρ' x es y = caseValue M g row ρ x es y
  | [], _, _ => by
    rw [caseValue, caseValue]
    obtain _ | e := y
    · rw [elseValue, elseValue]
    · rw [elseValue, elseValue, (hy e rfl ρ ρ' hyr).1]
  | (w, t) :: es, h, hr => by
    obtain ⟨hw, ht⟩ := h (w, t) List.mem_cons_self
    obtain ⟨hwv, hwh⟩ := hw ρ ρ' fun r hm => hr r (by simp [hm])
    have ih := caseValue_congr hy hyr (x := x) (fun a ha => h a (List.mem_cons_of_mem _ ha))
      fun r hm => hr r (by simp [hm])
    have htv := (ht ρ ρ' fun r hm => hr r (by simp [hm])).1
    obtain _ | ⟨x, v⟩ := x
    · rw [caseValue, caseValue, hwh, htv, ih]
    · rw [caseValue, caseValue, hwv, htv, ih]

theorem congr (e : Expr V F) : Congr M g row e := by
  induction e using Expr.strongInduction with
  | h e ih =>
  intro ρ ρ' h
  have sub : ∀ e' : Expr V F, e'.size < e.size → (∀ r ∈ e'.regs, r ∈ e.regs) →
      value M g row ρ' e' = value M g row ρ e' ∧ holds M g row ρ' e' = holds M g row ρ e' :=
    fun e' hlt hsub => ih e' hlt ρ ρ' fun r hr => h r (hsub r hr)
  have hleaf : value M g row ρ' e = value M g row ρ e → (∀ ρ₁,
    holds M g row ρ₁ e = M.condition (value M g row ρ₁ e)) →
      value M g row ρ' e = value M g row ρ e ∧ holds M g row ρ' e = holds M g row ρ e :=
    fun hv hh => ⟨hv, by rw [hh, hh, hv]⟩
  cases e with
  | null | integer | number | literal | «variable» | column =>
    exact hleaf (by simp only [value]) fun ρ₁ => by simp only [holds]
  | register iTable =>
    exact hleaf (by simpa only [value] using h iTable (by simp)) fun ρ₁ => by simp only [holds]
  | compare _ l r | «is» l r | isNot l r | and l r | or l r =>
    have hl := sub l (by rw [Expr.size]; omega) (fun r hr => by simp [hr])
    have hr := sub r (by rw [Expr.size]; omega) (fun r hr => by simp [hr])
    simp only [value, holds, hl, hr, and_self]
  | binary _ l r =>
    have hl := sub l (by rw [Expr.size]; omega) (fun r hr => by simp [hr])
    have hr := sub r (by rw [Expr.size]; omega) (fun r hr => by simp [hr])
    exact hleaf (by simp only [value, hl, hr]) fun ρ₁ => by simp only [holds]
  | not l | isNull l | notNull l =>
    have hl := sub l (by simp) (by simp)
    simp only [value, holds, hl, and_self]
  | uplus l | bitNot l =>
    have hl := sub l (by simp) (by simp)
    exact hleaf (by simp only [value, hl]) fun ρ₁ => by simp only [holds]
  | uminus l =>
    have hl := sub l (by simp) (by simp)
    refine hleaf ?_ fun ρ₁ => by simp only [holds]
    cases l with
    | integer | number => simp only [value]
    | _ => simp only [value, hl]
  | between x l r =>
    have hx := sub x (by rw [Expr.size]; omega) (fun r hr => by simp [hr])
    have hl := sub l (by rw [Expr.size]; omega) (fun r hr => by simp [hr])
    have hr := sub r (by rw [Expr.size]; omega) (fun r hr => by simp [hr])
    simp only [value, holds, hx, hl, hr, and_self]
  | coalesce e es =>
    have he := sub e (by rw [Expr.size]; omega) (fun r hr => by simp [hr])
    refine hleaf ?_ fun ρ₁ => by simp only [holds]
    rw [value, value, he.1, coalesceValue_congr (fun e' he' => ih e' ?_) fun r hr => h r (by simp [hr])]
    have hlt := size_lt_of_mem he'
    rw [Expr.size]
    omega
  | function _ es =>
    refine hleaf ?_ fun ρ₁ => by simp only [holds]
    rw [value, value, valueList_congr (fun e' he' => ih e' ?_) fun r hr => h r (by simp [hr])]
    have hlt := size_lt_of_mem he'
    rw [Expr.size]
    omega
  | case x es y =>
    refine hleaf ?_ fun ρ₁ => by simp only [holds]
    have hy : ∀ e ∈ y, Congr M g row e := by
      rintro e rfl
      exact ih e (by rw [Expr.size, sizeOption]; omega)
    have hes : ∀ a ∈ es, Congr M g row a.1 ∧ Congr M g row a.2 := by
      intro a ha
      obtain ⟨h1, h2⟩ := size_lt_of_pair ha
      exact ⟨ih a.1 (by rw [Expr.size]; omega), ih a.2 (by rw [Expr.size]; omega)⟩
    have hc := fun x => caseValue_congr (x := x) hy (fun r hr => h r (by simp [hr])) hes fun r hr => h r (by simp [hr])
    obtain _ | x := x
    · rw [value, value, hc]
    · have hx := sub x (by rw [Expr.size, sizeOption]; omega) (fun r hr => by simp [hr])
      rw [value, value, hx.1, hc]

end Congr

end Sqlite.ExprCode
