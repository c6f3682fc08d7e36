import Mathlib.Data.List.Basic
import Mathlib.Data.Nat.Basic
import Mathlib.Logic.Relation

/-! Programs that are built instruction by instruction, with labels for the targets of jumps, and runs of the
programs that they end up in. -/
namespace Sqlite.Foundation

/-- A target: an address, or a label. -/
inductive Dest
  | addr (a : ℕ)
  | label (j : ℕ)
  deriving DecidableEq

/-- The instructions and the labels of a program, with the addresses of the labels that have one. -/
structure Program (Op : Type*) where
  aOp : List Op
  aLabel : List (Option ℕ)

variable {Op σ : Type*}

namespace Program

def addOp (p : Program Op) (op : Op) : Program Op := { p with aOp := p.aOp ++ [op] }

/-- The address of the next instruction. -/
def here (p : Program Op) : ℕ := p.aOp.length

/-- The next label is `p.labels`. -/
def labels (p : Program Op) : ℕ := p.aLabel.length

def makeLabel (p : Program Op) : Program Op := { p with aLabel := p.aLabel ++ [none] }

def resolve (p : Program Op) (j : ℕ) : Program Op := { p with aLabel := p.aLabel.set j (some p.here) }

@[simp] theorem here_addOp (p : Program Op) (op : Op) : (p.addOp op).here = p.here + 1 := by simp [addOp, here]

@[simp] theorem labels_makeLabel (p : Program Op) : p.makeLabel.labels = p.labels + 1 := by
  simp [makeLabel, labels]

@[simp] theorem labels_resolve (p : Program Op) (j : ℕ) : (p.resolve j).labels = p.labels := by
  simp [resolve, labels]

/-- `q` is `p` with more instructions and labels behind it; labels that have an address keep it, and of the labels
of `p` no others get one. -/
structure Extends (p q : Program Op) : Prop where
  code : p.aOp <+: q.aOp
  old : ∀ j < p.labels, q.aLabel[j]? = p.aLabel[j]?
  labels : p.labels ≤ q.labels

theorem Extends.refl (p : Program Op) : Extends p p := ⟨List.prefix_refl _, fun _ _ => rfl, Nat.le_refl _⟩

theorem Extends.trans {p q r : Program Op} (h : Extends p q) (h' : Extends q r) : Extends p r where
  code := h.code.trans h'.code
  old j hj := (h'.old j (Nat.lt_of_lt_of_le hj h.labels)).trans (h.old j hj)
  labels := Nat.le_trans h.labels h'.labels

theorem extends_addOp (p : Program Op) (op : Op) : Extends p (p.addOp op) :=
  ⟨List.prefix_append _ _, fun _ _ => rfl, Nat.le_refl _⟩

theorem extends_makeLabel (p : Program Op) : Extends p p.makeLabel where
  code := List.prefix_refl _
  old j hj := List.getElem?_append_left hj
  labels := by rw [labels_makeLabel]; exact Nat.le_succ _

/-- A label that is younger than `p` may get an address. -/
theorem Extends.resolve {p q : Program Op} (h : Extends p q) {j : ℕ} (hj : p.labels ≤ j) :
    Extends p (q.resolve j) where
  code := h.code
  old i hi := by rw [Program.resolve, List.getElem?_set_ne (by omega)]; exact h.old i hi
  labels := by rw [labels_resolve]; exact h.labels

/-- A label for code and behind it. -/
theorem Extends.own_label {p q : Program Op} (h : Extends p.makeLabel q) : Extends p (q.resolve p.labels) :=
  ((extends_makeLabel p).trans h).resolve (Nat.le_refl _)

end Program

/-- A complete program, with the addresses of all labels. -/
structure Image (Op : Type*) where
  code : List Op
  address : ℕ → ℕ

namespace Image

def resolve (X : Image Op) : Dest → ℕ
  | .addr a => a
  | .label j => X.address j

/-- `p` is the beginning of the image. -/
structure Contains (X : Image Op) (p : Program Op) : Prop where
  code : p.aOp <+: X.code
  address : ∀ j a, p.aLabel[j]? = some (some a) → X.address j = a

variable {X : Image Op} {p q : Program Op}

theorem Contains.of_extends (h : X.Contains q) (he : p.Extends q) : X.Contains p where
  code := he.code.trans h.code
  address j a hj := by
    have hlt : j < p.labels := by
      obtain ⟨hlt, -⟩ := List.getElem?_eq_some_iff.mp hj
      exact hlt
    exact h.address j a ((he.old j hlt).trans hj)

theorem Contains.at {op : Op} (h : X.Contains (p.addOp op)) : X.code[p.here]? = some op := by
  obtain ⟨rest, hrest⟩ := h.code
  rw [← hrest, Program.addOp, Program.here]
  simp

theorem Contains.resolved {j : ℕ} (h : X.Contains (p.resolve j)) (hj : j < p.labels) : X.address j = p.here :=
  h.address j p.here (by rw [Program.resolve]; exact List.getElem?_set_self hj)

/-- The label gets its address only now. -/
theorem Contains.of_resolve {j : ℕ} (h : X.Contains (p.resolve j)) (hj : p.aLabel[j]? = some none) :
    X.Contains p where
  code := h.code
  address i a hi := by
    have hne : j ≠ i := by
      rintro rfl
      rw [hj] at hi
      cases hi
    exact h.address i a (by rw [Program.resolve]; exact (List.getElem?_set_ne hne).trans hi)

theorem Contains.own_label (he : Program.Extends p.makeLabel q) (h : X.Contains (q.resolve p.labels)) :
    X.Contains q ∧ X.address p.labels = q.here := by
  have hlt : p.labels < p.makeLabel.labels := by rw [Program.labels_makeLabel]; exact Nat.lt_succ_self _
  have hnone : q.aLabel[p.labels]? = some none := by
    rw [he.old p.labels hlt, Program.makeLabel, Program.labels]
    exact List.getElem?_concat_length
  exact ⟨h.of_resolve hnone, h.resolved (Nat.lt_of_lt_of_le hlt he.labels)⟩

/-- The addresses come from the labels. -/
def ofProgram (p : Program Op) : Image Op := ⟨p.aOp, fun j => (p.aLabel[j]?.getD none).getD 0⟩

theorem contains_ofProgram (p : Program Op) : (ofProgram p).Contains p where
  code := List.prefix_refl _
  address j a hj := by simp [ofProgram, hj]

/-! Runs. An instruction changes the state and says where to go on, if not behind it. -/

variable (X) (exec : Op → σ → Option Dest × σ)

def Step (s t : ℕ × σ) : Prop :=
  ∃ op, X.code[s.1]? = some op ∧
    t = (((exec op s.2).1.map X.resolve).getD (s.1 + 1), (exec op s.2).2)

def Runs : ℕ × σ → ℕ × σ → Prop := Relation.ReflTransGen (X.Step exec)

variable {exec}

theorem Runs.refl (s : ℕ × σ) : X.Runs exec s s := Relation.ReflTransGen.refl

variable {X} {s t u : ℕ × σ}

theorem Runs.trans (h : X.Runs exec s t) (h' : X.Runs exec t u) : X.Runs exec s u :=
  Relation.ReflTransGen.trans h h'

/-- One instruction that goes on behind itself. -/
theorem Runs.next {op : Op} {ρ ρ' : σ} (h : X.Contains (p.addOp op)) (hx : exec op ρ = (none, ρ')) :
    X.Runs exec (p.here, ρ) ((p.addOp op).here, ρ') :=
  .single ⟨op, h.at, by rw [Program.here_addOp, hx]; rfl⟩

/-- One instruction that jumps. -/
theorem Runs.jump {op : Op} {d : Dest} {ρ ρ' : σ} (h : X.Contains (p.addOp op))
    (hx : exec op ρ = (some d, ρ')) :
    X.Runs exec (p.here, ρ) (X.resolve d, ρ') :=
  .single ⟨op, h.at, by rw [hx]; rfl⟩

end Image

end Sqlite.Foundation
