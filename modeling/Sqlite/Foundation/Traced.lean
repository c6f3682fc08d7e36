import Mathlib.Data.Option.Basic

/-! Computations that list the operations they carry out, up to their end or to where they stop. -/
namespace Sqlite.Foundation

universe u v

/-- The operations, and the result; `none` is a computation that stops without one. -/
structure Traced (ε : Type u) (α : Type v) where
  trace : List ε
  result : Option α

namespace Traced
variable {ε : Type u} {α β : Type v} {I J : ε → Prop} {P Q : α → Prop} {R : β → Prop}

def stop : Traced ε α := ⟨[], none⟩

def tell (e : ε) : Traced ε PUnit := ⟨[e], some ⟨⟩⟩

def lift (o : Option α) : Traced ε α := ⟨[], o⟩

instance : Monad (Traced ε) where
  pure a := ⟨[], some a⟩
  bind t f := ⟨t.trace ++ (t.result.elim [] fun a => (f a).trace), t.result.bind fun a => (f a).result⟩

@[simp] theorem result_pure (a : α) : (pure a : Traced ε α).result = some a := rfl

@[simp] theorem result_lift (o : Option α) : (lift o : Traced ε α).result = o := rfl

@[simp] theorem result_tell (e : ε) : (tell e : Traced ε PUnit.{v + 1}).result = some ⟨⟩ := rfl

@[simp] theorem result_bind (t : Traced ε α) (f : α → Traced ε β) :
    (t >>= f).result = t.result.bind fun a => (f a).result := rfl

theorem trace_bind (t : Traced ε α) (f : α → Traced ε β) :
    (t >>= f).trace = t.trace ++ (t.result.elim [] fun a => (f a).trace) := rfl

@[simp] theorem trace_pure (a : α) : (pure a : Traced ε α).trace = [] := rfl

@[simp] theorem trace_bind_pure (t : Traced ε α) (f : α → β) : (t >>= fun a => pure (f a)).trace = t.trace := by
  rw [trace_bind]
  cases t.result <;> simp

@[simp] theorem result_map (t : Traced ε α) (f : α → β) : (f <$> t).result = t.result.map f := by
  cases h : t.result <;> simp [Functor.map, h]

/-- Every operation meets `I`, and the result, when there is one, meets `P`. -/
structure Keeps (I : ε → Prop) (P : α → Prop) (t : Traced ε α) : Prop where
  operations : ∀ e ∈ t.trace, I e
  result : ∀ a, t.result = some a → P a

theorem Keeps.mono {t : Traced ε α} (h : Keeps I P t) (hP : ∀ a, P a → Q a) : Keeps I Q t :=
  ⟨h.operations, fun a ha => hP a (h.result a ha)⟩

theorem keeps_pure {a : α} (h : P a) : Keeps I P (pure a : Traced ε α) :=
  ⟨fun _ he => absurd he List.not_mem_nil, fun _ ha => Option.some.inj ha ▸ h⟩

theorem keeps_stop : Keeps I P (stop : Traced ε α) :=
  ⟨fun _ he => absurd he List.not_mem_nil, fun _ ha => absurd ha (Option.some_ne_none _).symm⟩

theorem keeps_lift {o : Option α} (h : ∀ a, o = some a → P a) : Keeps I P (lift o : Traced ε α) :=
  ⟨fun _ he => absurd he List.not_mem_nil, h⟩

theorem Keeps.bind {t : Traced ε α} {f : α → Traced ε β} (h : Keeps I P t)
    (hf : ∀ a, P a → Keeps I R (f a)) : Keeps I R (t >>= f) := by
  cases hr : t.result with
  | none =>
    refine ⟨fun e he => ?_, fun b hb => ?_⟩
    · rw [trace_bind, hr, Option.elim_none, List.append_nil] at he
      exact h.operations e he
    · rw [result_bind, hr, Option.bind_none] at hb
      cases hb
  | some a =>
    have hfa := hf a (h.result a hr)
    refine ⟨fun e he => ?_, fun b hb => ?_⟩
    · rw [trace_bind, hr, Option.elim_some] at he
      rcases List.mem_append.mp he with he | he
      · exact h.operations e he
      · exact hfa.operations e he
    · rw [result_bind, hr, Option.bind_some] at hb
      exact hfa.result b hb

theorem Keeps.map {t : Traced ε α} {f : α → β} (h : Keeps I P t) (hf : ∀ a, P a → R (f a)) :
    Keeps I R (f <$> t) :=
  h.bind fun a ha => keeps_pure (hf a ha)

theorem keeps_tell {e : ε} (he : I e) {f : PUnit → Traced ε β} (hf : Keeps I R (f ⟨⟩)) :
    Keeps I R (tell e >>= f) :=
  Keeps.bind (P := fun _ => True) ⟨fun _ he' => List.mem_singleton.mp he' ▸ he, fun _ _ => trivial⟩
    fun _ _ => hf

end Traced

end Sqlite.Foundation
