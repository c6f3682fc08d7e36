import Sqlite.Printf.Sound

/-! The conversions of numbers: the conditions under which their arguments are converted without an error. -/
namespace Sqlite.Printf

open Numeric (ch)

variable {α β : Type} {grants : ℤ → Bool} {s : Spec} {args rest : List Arg} {z : List UInt8} {x : ℤ}

theorem safe_bind {x : Except Stop α} {f : α → Except Stop β} :
    Safe (x >>= f) ↔ Safe x ∧ ∀ a, x = .ok a → Safe (f a) := by
  cases x with
  | ok a => simp
  | error e => cases e <;> simp

/-- Part of a conversion behind its argument. -/
theorem Does.then_ok {P S : Prop} {Q : α → Prop} {R : β → Prop} {y : Except Stop α} {f : α → Except Stop β}
    (h : Does P S Q y) (hf : ∀ a, Q a → ∃ b, f a = .ok b ∧ R b) : Does P S R (y >>= f) := by
  refine ⟨fun hP hsafe => h.error hP (safe_bind.mp hsafe).1, fun hP hS => ?_, fun hP hS => ?_⟩
  · rw [h.returned hP hS]
    rfl
  · obtain ⟨a, rfl, hQ⟩ := h.ok hP hS
    exact hf a hQ

theorem Does.mono {P P' S S' : Prop} {Q Q' : α → Prop} {y : Except Stop α} (h : Does P S Q y) (hP : P' ↔ P)
    (hS : S' ↔ S) (hQ : ∀ a, Q a → Q' a) : Does P' S' Q' y where
  error hn := h.error (hP.not.mp hn)
  returned hp hn := h.returned (hP.mp hp) (hS.not.mp hn)
  ok hp hs := by
    obtain ⟨a, ha, hQa⟩ := h.ok (hP.mp hp) (hS.mp hs)
    exact ⟨a, ha, hQ a hQa⟩

theorem does_ok {Q : α → Prop} {a : α} (h : Q a) : Does True True Q (.ok a : Except Stop α) :=
  ⟨fun hn => absurd trivial hn, fun _ hn => absurd trivial hn, fun _ _ => ⟨a, rfl, h⟩⟩

theorem va_cases {γ : Type} (get : Arg → Option γ) (args : List Arg) :
    (∃ a rest, va get args = .ok (a, rest)) ∨ va get args = .error .returned := by
  cases args with
  | nil => exact .inr rfl
  | cons a args =>
    cases h : get a with
    | none => exact .inr (by rw [va, h]; rfl)
    | some y => exact .inl ⟨y, args, by rw [va, h]; rfl⟩

/-- What a conversion needs of its width, its precision and its argument. -/
def ConvertFits (grants : ℤ → Bool) (s : Spec) (args : List Arg) : Prop :=
  match s.info.type with
  | .etPOINTER | .etORDINAL | .etRADIX => ∀ v u rest, integerArg s args = .ok ((v, u), rest) →
      radixPrecision s (prefixOf s v).length + 10 < 2 ^ 31
  | .etFLOAT | .etEXP | .etGENERIC => ∀ v rest, va Arg.asReal args = .ok (some v, rest) →
      v.exp ≤ 350 → FloatFits grants s v

/-- There is an argument and the block. -/
def Goes (grants : ℤ → Bool) (s : Spec) (args : List Arg) : Prop :=
  match s.info.type with
  | .etPOINTER | .etORDINAL | .etRADIX => ∃ rest v u, integerArg s args = .ok ((v, u), rest) ∧
      Served grants (radixNeed s v)
  | .etFLOAT | .etEXP | .etGENERIC => ∃ rest v, va Arg.asReal args = .ok (v, rest) ∧
      Served grants (v.bind (floatNeed s))

/-- A conversion that reads an argument. -/
theorem does_va {γ : Type} {get : Arg → Option γ} {f : γ × List Arg → Except Stop α} {P S : γ → Prop} {Q : α → Prop}
    (h : ∀ a rest, va get args = .ok (a, rest) → Does (P a) (S a) Q (f (a, rest))) :
    Does (∀ a rest, va get args = .ok (a, rest) → P a) (∃ rest a, va get args = .ok (a, rest) ∧ S a) Q
      (va get args >>= f) := by
  rcases va_cases get args with ⟨a, rest, ha⟩ | he
  · rw [ha, ok_bind]
    refine (h a rest ha).mono ?_ ?_ fun _ hQ => hQ
    · exact ⟨fun hP => hP a rest rfl, fun hP a' rest' h' => by cases h'; exact hP⟩
    · exact ⟨fun ⟨rest', a', h', hS⟩ => by cases h'; exact hS, fun hS => ⟨rest, a, rfl, hS⟩⟩
  · rw [he]
    refine ⟨fun hP => absurd (fun a rest h' => by cases h') hP, fun _ _ => rfl, fun _ hS => ?_⟩
    obtain ⟨_, _, h', _⟩ := hS
    cases h'

theorem base_of_radix {info : Info} (h : info ∈ fmtinfo)
    (hx : info.type = .etPOINTER ∨ info.type = .etORDINAL ∨ info.type = .etRADIX) : 8 ≤ info.base := by
  have hall : ∀ i ∈ fmtinfo, (i.type = .etPOINTER ∨ i.type = .etORDINAL ∨ i.type = .etRADIX) →
    8 ≤ i.base := by
    decide
  exact hall info h hx

theorem convert_radix (hs : s.Wide)
    (hx : s.info.type = .etPOINTER ∨ s.info.type = .etORDINAL ∨ s.info.type = .etRADIX) :
    Does (∀ v u rest, integerArg s args = .ok ((v, u), rest) →
      radixPrecision s (prefixOf s v).length + 10 < 2 ^ 31)
      (∃ rest v u, integerArg s args = .ok ((v, u), rest) ∧ Served grants (radixNeed s v))
      (fun r => r.1.Inside) (radixCase grants s args) := by
  have hdoes : Does _ _ _ (radixCase grants s args) := does_va
    (P := fun a => radixPrecision s (prefixOf s a.1).length + 10 < 2 ^ 31)
    (S := fun a => Served grants (radixNeed s a.1)) (Q := fun r => r.1.Inside) fun a rest ha => by
      have hd : Does _ _ _ (radixCase grants s args) := radixCase_does hs (base_of_radix hs.info hx) (v := a.1) ha
      unfold radixCase at hd
      rw [ha, ok_bind] at hd
      exact hd.mono Iff.rfl Iff.rfl fun _ h => h.1
  refine hdoes.mono ?_ ?_ fun _ h => h
  · exact ⟨fun h a rest ha => h a.1 a.2 rest ha, fun h v u rest ha => h (v, u) rest ha⟩
  · exact ⟨fun ⟨rest, v, u, ha, hS⟩ => ⟨rest, (v, u), ha, hS⟩, fun ⟨rest, a, ha, hS⟩ => ⟨rest, a.1, a.2, ha, hS⟩⟩

theorem convert_float (hs : s.Wide) (v : Option Real)
    (hx : s.info.type = .etFLOAT ∨ s.info.type = .etEXP ∨ s.info.type = .etGENERIC) :
    Does (∀ r, v = some r → r.exp ≤ 350 → FloatFits grants s r) (Served grants (v.bind (floatNeed s)))
      Item.Inside (v.elim (.ok (constant [ch 'N', ch 'a', ch 'N'] s.width)) (floatCase grants s)) := by
  cases v with
  | none =>
    have hi : (constant [ch 'N', ch 'a', ch 'N'] s.width).Inside := constant_inside _ (by simp) hs
    exact (does_ok hi).mono (by simp) (by simp [Served]) fun _ h => h
  | some v =>
    refine (floatCase_does hs hx).mono ?_ Iff.rfl fun _ h => h.1
    exact ⟨fun h => h v rfl, fun h r hr => by cases hr; exact h⟩

theorem convert_does (hs : s.Wide) (args : List Arg) :
    Does (ConvertFits grants s args) (Goes grants s args) (fun r => r.1.Inside) (convert grants s args) := by
  unfold ConvertFits Goes convert
  cases htype : s.info.type with
  | etPOINTER | etORDINAL | etRADIX => exact convert_radix hs (by simp [htype])
  | etFLOAT | etEXP | etGENERIC =>
    have hx : s.info.type = .etFLOAT ∨ s.info.type = .etEXP ∨ s.info.type = .etGENERIC := by simp [htype]
    refine Does.mono (does_va fun v rest _ => (convert_float hs v hx).then_ok fun item hi => ⟨_, rfl, hi⟩) ?_ Iff.rfl
      fun _ h => h
    exact ⟨fun h v rest hv r hr => h r rest (hr ▸ hv), fun h v rest hv => h (some v) rest hv v rfl⟩

theorem Does.safe_iff {P S : Prop} {Q : α → Prop} {y : Except Stop α} (h : Does P S Q y) : Safe y ↔ P := by
  refine ⟨fun hy => by_contra fun hP => h.error hP hy, fun hP => ?_⟩
  by_cases hS : S
  · obtain ⟨a, rfl, -⟩ := h.ok hP hS
    exact safe_ok a
  · rw [h.returned hP hS]
    exact safe_returned

/-- For every conversion of a number, all arguments and whatever blocks the heap has: no `int` overflows and nothing
outside of a block is accessed if and only if the conversion has what it needs. -/
theorem conversion_iff (grants : ℤ → Bool) (s : Spec) (hs : s.Wide) (args : List Arg) :
    Safe (conversion grants s args) ↔ ConvertFits grants s args := by
  have hd : Does _ _ _ (conversion grants s args) := (convert_does hs args).then_ok (R := fun _ => True) fun r hi => by
    obtain ⟨w, hw⟩ := output_ok s.flags hi
    refine ⟨(w, r.2), ?_, trivial⟩
    dsimp only
    rw [hw]
    rfl
  exact hd.safe_iff

/-- `%0100f` with a number below `1e-300` gets a buffer of 70 bytes. -/
def tiny : Spec where
  flags := { zeropad := true }
  width := 100
  precision := -1
  long := false
  info := ⟨ch 'f', 0, 1, .etFLOAT, 0, 0⟩

theorem conversion_iff_tiny : let v : Real := ⟨false, -301, false, fun _ => 5, by decide⟩
    tiny.Wide ∧ ¬ConvertFits (fun _ => true) tiny [.real (some v)] ∧
      ¬Safe (conversion (fun _ => true) tiny [.real (some v)]) := by
  intro v
  have hs : tiny.Wide := ⟨by decide, by decide, by simp [tiny, fmtinfo]⟩
  have hneed : floatNeed tiny v = none := by decide
  have hfits : ¬ConvertFits (fun _ => true) tiny [.real (some v)] := fun h => by
    have hf : FloatFits (fun _ => true) tiny v := h v [] rfl (by decide)
    have hw : tiny.width < blockSize tiny v :=
      (hf.fraction rfl (by decide) fun n hn => by rw [hneed] at hn; cases hn).width (by decide)
    revert hw
    decide
  exact ⟨hs, hfits, fun h => hfits ((conversion_iff _ tiny hs _).mp h)⟩

end Sqlite.Printf
