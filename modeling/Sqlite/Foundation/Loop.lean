import Mathlib.Data.Finset.Card
import Mathlib.Data.Nat.Basic
import Mathlib.Logic.Function.Iterate
import Mathlib.Order.Interval.Finset.Nat

/-! Fuel-bounded loops with an early exit, and their total-correctness rule. -/
namespace Sqlite.Foundation


section

variable {σ ρ : Type*}

/-- Run `body` until it leaves the loop with a result; `none` means that the fuel ran out. -/
def loop (body : σ → σ ⊕ ρ) : ℕ → σ → Option ρ
  | 0, _ => none
  | n + 1, s =>
    match body s with
    | .inl s' => loop body n s'
    | .inr r => some r

/-- An invariant whose rank every round lowers gives termination and the exit condition. -/
theorem loop_total {f : σ → σ ⊕ ρ} (I : ℕ → σ → Prop) (Q : ρ → Prop)
    (hc : ∀ n s s', I n s → f s = .inl s' → ∃ n' < n, I n' s')
    (hd : ∀ n s r, I n s → f s = .inr r → Q r) :
    ∀ (fuel n : ℕ) (s : σ), I n s → n < fuel → ∃ r, loop f fuel s = some r ∧ Q r := by
  intro fuel
  induction fuel with
  | zero => intro n s _ hn; exact absurd hn (Nat.not_lt_zero n)
  | succ fuel ih =>
    intro n s hI hn
    cases hb : f s with
    | inl s' =>
      obtain ⟨n', hlt, hI'⟩ := hc n s s' hI hb
      obtain ⟨r, hr, hq⟩ := ih n' s' hI' (Nat.lt_of_lt_of_le hlt (Nat.le_of_lt_succ hn))
      exact ⟨r, by simp only [loop, hb, hr], hq⟩
    | inr r => exact ⟨r, by simp only [loop, hb], hd n s r hI hb⟩

/-- The states at the beginning of each round. -/
def visits (body : σ → σ ⊕ ρ) : ℕ → σ → List σ
  | 0, _ => []
  | n + 1, s =>
    s :: match body s with
    | .inl s' => visits body n s'
    | .inr _ => []

theorem forall_visits {f : σ → σ ⊕ ρ} {I : σ → Prop} (hc : ∀ s s', I s → f s = .inl s' → I s')
    {n : ℕ} {s : σ} (hs : I s) : ∀ v ∈ visits f n s, I v := by
  induction n generalizing s with
  | zero => simp [visits]
  | succ n ih =>
    intro v hv
    rw [visits] at hv
    rcases List.mem_cons.mp hv with rfl | hv
    · exact hs
    · cases hb : f s with
      | inl s' =>
        simp only [hb] at hv
        exact ih (hc s s' hs hb) v hv
      | inr r => simp [hb] at hv

/-- The round that leaves the loop is one of them. -/
theorem exists_last_visit {f : σ → σ ⊕ ρ} {n : ℕ} {s : σ} {r : ρ} (h : loop f n s = some r) :
    ∃ v ∈ visits f n s, f v = .inr r := by
  induction n generalizing s with
  | zero => simp [loop] at h
  | succ n ih =>
    rw [loop] at h
    rw [visits]
    cases hb : f s with
    | inl s' =>
      simp only [hb] at h
      obtain ⟨v, hv, hr⟩ := ih h
      exact ⟨v, List.mem_cons_of_mem _ hv, hr⟩
    | inr r' =>
      simp only [hb, Option.some.injEq] at h
      exact ⟨s, List.mem_cons_self, h ▸ hb⟩

end

/-! Iterating a function until an element meets a condition. -/

variable {α : Type*} {f : α → α} {x : α} {stop : α → Prop}

/-- Where all elements before the first that stops are among those of a finite set, it comes before
an element can come twice. -/
theorem exists_iterate_le (S : Finset α) (hS : ∀ y, ¬ stop y → y ∈ S)
    (h : ∃ i, stop (f^[i] x)) : ∃ i ≤ S.card, stop (f^[i] x) := by
  classical
  refine ⟨Nat.find h, ?_, Nat.find_spec h⟩
  by_contra hlt
  have hmaps : ∀ i ∈ Finset.range (Nat.find h), f^[i] x ∈ S :=
    fun i hi => hS _ (Nat.find_min h (Finset.mem_range.mp hi))
  obtain ⟨a, ha, b, hb, hab, heq⟩ := Finset.exists_ne_map_eq_of_card_lt_of_maps_to
    (by rw [Finset.card_range]; omega) hmaps
  rw [Finset.mem_range] at ha hb
  -- the later of the two can be left out
  have hshort {a b : ℕ} (hab : a < b) (hb : b < Nat.find h) (heq : f^[a] x = f^[b] x) : False := by
    have hstop : stop (f^[Nat.find h - b + a] x) := by
      rw [Function.iterate_add_apply, heq, ← Function.iterate_add_apply, Nat.sub_add_cancel hb.le]
      exact Nat.find_spec h
    exact Nat.find_min h (by omega) hstop
  rcases lt_or_gt_of_ne hab with hlt | hlt
  · exact hshort hlt hb heq
  · exact hshort hlt ha heq.symm

end Sqlite.Foundation
