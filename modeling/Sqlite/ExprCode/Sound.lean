import Sqlite.ExprCode.Registers
import Sqlite.ExprCode.Value

/-! The code of an expression leaves its value in the register that the generator says, and nothing changes in the
registers that others use. -/
namespace Sqlite.ExprCode

open Foundation (Dest Image Program)
open Parse

variable {V C F : Type}

def NoReg (_ : ℕ) : Prop := False

/-- Registers in use, except those of `T`, keep their values. -/
def Frame (p : Parse V C F) (T : ℕ → Prop) (ρ ρ' : ℕ → V) : Prop := ∀ r, ¬p.Avail r → ¬T r → ρ' r = ρ r

/-- The expression reads only registers in use. -/
def Held (p : Parse V C F) (e : Expr V F) : Prop := ∀ r ∈ e.regs, ¬p.Avail r

section Spec

variable (M : Scalars V C F) (g : Schema V C F) (row : Row M)

/-- The entries below a level hold their columns. -/
def CacheBelow (p : Parse V C F) (ℓ : ℕ) (ρ : ℕ → V) : Prop :=
  ∀ k, p.Cached k → k.iLevel < ℓ → ρ k.iReg = columnValue M g row k.iTable k.iColumn

def CacheOK (p : Parse V C F) (ρ : ℕ → V) : Prop :=
  ∀ k, p.Cached k → ρ k.iReg = columnValue M g row k.iTable k.iColumn

/-- The code between `p` and `q` runs to its end, with a relation between the registers before and after. -/
structure Emits (T : ℕ → Prop) (p q : Parse V C F) (Post : (ℕ → V) → (ℕ → V) → Prop) : Prop where
  grows : Grows T p q
  runs : ∀ X : Image (Op V C F), X.Contains q.pVdbe → ∀ ρ, CacheOK M g row p ρ →
    ∃ ρ', X.Runs (M.exec row) (p.pVdbe.here, ρ) (q.pVdbe.here, ρ') ∧ CacheOK M g row q ρ' ∧
      Frame p T ρ ρ' ∧ Post ρ ρ'

/-- What `sqlite3ExprCodeTarget` does: the target is written only if the value goes there, and what is not shared
goes there. -/
structure Puts (shared : Bool) (p : Parse V C F) (target : ℕ) (t : Parse V C F × ℕ) (v : (ℕ → V) → V) :
    Prop where
  emits : Emits M g row (fun x => x = target ∧ t.2 = target) p t.1 fun ρ ρ' => ρ' t.2 = v ρ
  held : ¬t.1.Avail t.2
  own : shared = false → t.2 = target ∧ ∀ k, t.1.Cached k → k.iReg ≠ target

/-- What `sqlite3ExprCodeTemp` does. -/
structure Loads (shared : Bool) (p : Parse V C F) (t : Parse V C F × ℕ × ℕ) (v : (ℕ → V) → V) : Prop where
  emits : Emits M g row NoReg p t.1 fun ρ ρ' => ρ' t.2.1 = v ρ
  held : ¬t.1.Avail t.2.1
  freed : Freed p t.1 t.2.2
  own : shared = false → p.Avail t.2.1 ∧ t.1.Fresh t.2.1

def Computes (e : Expr V F) : Prop :=
  ∀ (p : Parse V C F) (target : ℕ), p.WF → p.Fresh target → Held p e → target ∉ e.regs →
    Puts M g row e.isShared p target (sqlite3ExprCodeTarget g p e target) (value M g row · e)

end Spec

variable {M : Scalars V C F} {g : Schema V C F} {row : Row M} {p q s : Parse V C F} {T U : ℕ → Prop}
  {P Q R : (ℕ → V) → (ℕ → V) → Prop} {ρ ρ' ρ₁ : ℕ → V}

theorem Frame.refl : Frame p T ρ ρ := fun _ _ _ => rfl

theorem Frame.trans (hg : Grows T p q) (h : Frame p T ρ ρ₁) (h' : Frame q T ρ₁ ρ') : Frame p T ρ ρ' :=
  fun r hr hT => (h' r (hg.held hr) hT).trans (h r hr hT)

theorem Held.grows {e : Expr V F} (h : Held p e) (hg : Grows T p q) : Held q e := fun r hr => hg.held (h r hr)

theorem value_frame {e : Expr V F} (h : Held p e) (hf : Frame p T ρ ρ') (hT : ∀ r ∈ e.regs, ¬T r) :
    value M g row ρ' e = value M g row ρ e := (congr e ρ ρ' fun r hr => hf r (h r hr) (hT r hr)).1

theorem holds_frame {e : Expr V F} (h : Held p e) (hf : Frame p T ρ ρ') (hT : ∀ r ∈ e.regs, ¬T r) :
    holds M g row ρ' e = holds M g row ρ e := (congr e ρ ρ' fun r hr => hf r (h r hr) (hT r hr)).2

theorem value_update {e : Expr V F} {r : ℕ} (h : r ∉ e.regs) (ρ : ℕ → V) (v : V) :
    value M g row (Function.update ρ r v) e = value M g row ρ e := by
  refine (congr e _ _ fun r' hr' => ?_).1
  have hne : r' ≠ r := fun heq => h (heq ▸ hr')
  exact Function.update_of_ne hne _ _

namespace Emits

theorem trans (h : Emits M g row T p q P) (h' : Emits M g row T q s Q)
    (hR : ∀ ρ ρ₁ ρ', Frame p T ρ ρ₁ → P ρ ρ₁ → Frame q T ρ₁ ρ' → Q ρ₁ ρ' →
      R ρ ρ') : Emits M g row T p s R where
  grows := h.grows.trans h'.grows
  runs X hX ρ hρ := by
    obtain ⟨ρ₁, h1, hc1, hf1, hP⟩ := h.runs X (hX.of_extends h'.grows.code) ρ hρ
    obtain ⟨ρ', h2, hc2, hf2, hQ⟩ := h'.runs X hX ρ₁ hc1
    exact ⟨ρ', h1.trans h2, hc2, hf1.trans h.grows hf2, hR ρ ρ₁ ρ' hf1 hP hf2 hQ⟩

theorem mono (h : Emits M g row T p q P) (hT : ∀ r, T r → p.Avail r ∨ U r)
    (hP : ∀ ρ ρ', Frame p T ρ ρ' → P ρ ρ' → R ρ ρ') : Emits M g row U p q R where
  grows := h.grows.mono hT
  runs X hX ρ hρ := by
    obtain ⟨ρ', h1, hc, hf, hp⟩ := h.runs X hX ρ hρ
    refine ⟨ρ', h1, hc, fun r hr hU => hf r hr fun hTr => ?_, hP ρ ρ' hf hp⟩
    exact (hT r hTr).elim hr hU

theorem post (h : Emits M g row T p q P) (hP : ∀ ρ ρ', Frame p T ρ ρ' → P ρ ρ' → R ρ ρ') :
    Emits M g row T p q R :=
  h.mono (fun _ hr => .inr hr) hP

theorem of_quiet (h : Quiet p q) : Emits M g row T p q fun ρ ρ' => ρ' = ρ where
  grows := h.grows
  runs X _ ρ hρ := ⟨ρ, by rw [h.code]; exact Image.Runs.refl _ _, fun k hk => hρ k (h.sub k hk), .refl, rfl⟩

theorem release {r : ℕ} (h : Emits M g row T p q P) (hr : Freed p q r) :
    Emits M g row T p (q.sqlite3ReleaseTempReg r) P where
  grows := h.grows.release hr
  runs X hX ρ hρ := by
    rw [releaseTempReg_code] at hX ⊢
    obtain ⟨ρ', h1, hc, hf, hp⟩ := h.runs X hX ρ hρ
    exact ⟨ρ', h1, fun k hk => hc k (releaseTempReg_cached q r ▸ hk), hf, hp⟩

theorem releaseAll : ∀ {q : Parse V C F} (rs : List ℕ), Emits M g row T p q P → FreedAll p q rs →
    Emits M g row T p (rs.foldl sqlite3ReleaseTempReg q) P
  | _, [], h, _ => h
  | _, r :: rs, h, hr => (h.release (hr.freed r List.mem_cons_self)).releaseAll rs hr.release

/-- One instruction that writes a register. -/
theorem addOp (hp : p.WF) {t : ℕ} (ht : p.Fresh t) (op : Op V C F) {f : (ℕ → V) → V}
    (hx : ∀ ρ, M.exec row op ρ = (none, Function.update ρ t (f ρ))) :
    Emits M g row (· = t) p (p.addOp op) fun ρ ρ' => ρ' = Function.update ρ t (f ρ) where
  grows := hp.grows_code rfl (Program.extends_addOp _ _)
  runs X hX ρ hρ := by
    refine ⟨Function.update ρ t (f ρ), Image.Runs.next hX (hx ρ), fun k hk => ?_, fun r _ hr => ?_, rfl⟩
    · rw [Function.update_of_ne (ht.uncached k hk)]
      exact hρ k hk
    · exact Function.update_of_ne hr _ _

end Emits

/-! Temporary registers. -/

theorem Computes.temp {e : Expr V F} (h : Computes M g row e) (hp : p.WF) (he : Held p e) :
    Loads M g row e.isShared p (sqlite3ExprCodeTemp g p e) (value M g row · e) := by
  have hq := getTempReg_quiet hp
  have ha := getTempReg_avail p
  have hf := getTempReg_fresh hp
  have ht := h p.sqlite3GetTempReg.1 p.sqlite3GetTempReg.2 hq.wf hf (he.grows hq.grows (T := NoReg))
    fun hm => he _ hm ha
  simp only [sqlite3ExprCodeTemp]
  generalize p.sqlite3GetTempReg = t at *
  generalize sqlite3ExprCodeTarget g t.1 e t.2 = u at *
  have hem : Emits M g row NoReg p u.1 fun ρ ρ' => ρ' u.2 = value M g row ρ e := by
    refine ((Emits.of_quiet hq).trans ht.emits ?_).mono (fun r hr => .inl (hr.1 ▸ ha)) fun _ _ _ hv => hv
    rintro ρ _ ρ' - rfl - hv
    exact hv
  have hfreed : Freed p u.1 t.2 := .inr ⟨hf.pos, ha, ht.emits.grows.held hf.held⟩
  split
  · rename_i heq
    refine ⟨hem, ht.held, hfreed, fun hs => ?_⟩
    rw [heq]
    exact ⟨ha, hf.pos, ht.emits.grows.held hf.held, (ht.own hs).2⟩
  · rename_i hne
    exact ⟨hem.release hfreed, fun hav => (releaseTempReg_avail hav).elim ht.held hne, .inl rfl,
      fun hs => absurd (ht.own hs).1 hne⟩

/-- The code between `p` and `q` leaves values in registers that stay in use; the registers of `rs` may be released
behind it. -/
structure Holding (M : Scalars V C F) (g : Schema V C F) (row : Row M) (p q : Parse V C F)
    (vs : List (ℕ × ((ℕ → V) → V))) (rs : List ℕ) : Prop where
  emits : Emits M g row NoReg p q fun ρ ρ' => ∀ x ∈ vs, ρ' x.1 = x.2 ρ
  held : ∀ x ∈ vs, ¬q.Avail x.1
  freed : FreedAll p q rs

namespace Holding

variable {vs : List (ℕ × ((ℕ → V) → V))} {rs : List ℕ}

theorem nil (M : Scalars V C F) (g : Schema V C F) (row : Row M) (hp : p.WF) : Holding M g row p p [] [] :=
  ⟨(Emits.of_quiet hp.quiet).post fun _ _ _ _ => by simp, by simp, ⟨by simp, .nil⟩⟩

theorem load {e : Expr V F} (h : Holding M g row p q vs rs) (hl : Computes M g row e) (he : Held p e) :
    Holding M g row p (sqlite3ExprCodeTemp g q e).1 (((sqlite3ExprCodeTemp g q e).2.1, (value M g row · e)) :: vs)
      ((sqlite3ExprCodeTemp g q e).2.2 :: rs) := by
  have ht := hl.temp h.emits.grows.wf (he.grows h.emits.grows)
  refine ⟨h.emits.trans ht.emits fun ρ ρ₁ ρ' hf hP hf' hQ => ?_, ?_,
    h.freed.cons h.emits.grows ht.emits.grows ht.freed⟩
  · refine List.forall_mem_cons.mpr ⟨hQ.trans (value_frame he hf fun _ _ => id), fun x hx => ?_⟩
    exact (hf' x.1 (h.held x hx) id).trans (hP x hx)
  · exact List.forall_mem_cons.mpr ⟨ht.held, fun x hx => ht.emits.grows.held (h.held x hx)⟩

/-- A new temporary register. -/
theorem get (h : Holding M g row p q vs rs) :
    Holding M g row p q.sqlite3GetTempReg.1 vs (q.sqlite3GetTempReg.2 :: rs) ∧
      q.sqlite3GetTempReg.1.Fresh q.sqlite3GetTempReg.2 ∧ ∀ x ∈ vs, x.1 ≠ q.sqlite3GetTempReg.2 := by
  have hq := getTempReg_quiet h.emits.grows.wf
  have ha := getTempReg_avail q
  have hf := getTempReg_fresh h.emits.grows.wf
  refine ⟨⟨h.emits.trans (.of_quiet hq) fun ρ ρ₁ ρ' _ hP _ hQ => hQ ▸ hP, fun x hx hav => h.held x hx (hq.avail _ hav),
    h.freed.cons h.emits.grows (U := NoReg) hq.grows (.inr ⟨hf.pos, ha, hf.held⟩)⟩, hf, fun x hx heq => ?_⟩
  exact h.held x hx (heq ▸ ha)

/-- A value that is computed to such a register; others may be lost. -/
theorem store (h : Holding M g row p q vs rs) {r : ℕ} (hr : r ∈ rs) (hf : q.Fresh r)
    (vs' : List (ℕ × ((ℕ → V) → V))) (hvs : ∀ x ∈ vs', x ∈ vs) (hne : ∀ x ∈ vs', x.1 ≠ r)
    (op : Op V C F) {f v : (ℕ → V) → V} (hx : ∀ ρ, M.exec row op ρ = (none, Function.update ρ r (f ρ)))
    (hv : ∀ ρ ρ', (∀ x ∈ vs, ρ' x.1 = x.2 ρ) → f ρ' = v ρ) :
    Holding M g row p (q.addOp op) ((r, v) :: vs') rs := by
  have hop : Emits M g row (· = r) q (q.addOp op) fun ρ ρ' => ρ' = Function.update ρ r (f ρ) :=
    .addOp h.emits.grows.wf hf op hx
  have ha : p.Avail r := by
    obtain h0 | h0 := h.freed.freed r hr
    · exact absurd h0 (Nat.ne_of_gt hf.pos)
    · exact h0.2.1
  refine ⟨?_,
    List.forall_mem_cons.mpr ⟨hop.grows.held hf.held, fun x hx => hop.grows.held (h.held x (hvs x hx))⟩,
    h.freed.grows hop.grows⟩
  refine ((h.emits.mono (U := (· = r)) (fun _ hr => hr.elim) fun _ _ _ hP => hP).trans hop ?_).mono (fun x hx => ?_)
    fun _ _ _ hP => hP
  · rintro ρ ρ₁ _ - hP - rfl
    refine List.forall_mem_cons.mpr ⟨(Function.update_self _ _ _).trans (hv ρ ρ₁ hP), fun x hx => ?_⟩
    rw [Function.update_of_ne (hne x hx)]
    exact hP x (hvs x hx)
  · exact .inl (hx ▸ ha)

theorem release {r : ℕ} (h : Holding M g row p q vs (r :: rs)) (hne : ∀ x ∈ vs, x.1 = r → r = 0) :
    Holding M g row p (q.sqlite3ReleaseTempReg r) vs rs where
  emits := h.emits.release (h.freed.freed r List.mem_cons_self)
  held x hx ha := by
    obtain ha' | heq := releaseTempReg_avail ha
    · exact h.held x hx ha'
    · rw [sqlite3ReleaseTempReg, if_neg fun hc => hc.1 (hne x hx heq)] at ha
      exact h.held x hx ha
  freed := h.freed.release

/-- What a further operand releases is no register that holds a value. -/
theorem ne_load {shared : Bool} {t : Parse V C F × ℕ × ℕ} {v : (ℕ → V) → V} (h : Holding M g row p q vs rs)
    (ht : Loads M g row shared q t v) :
    ∀ x ∈ vs, x.1 = t.2.2 → t.2.2 = 0 := by
  intro x hx heq
  obtain h0 | h0 := ht.freed
  · exact h0
  · exact absurd (heq ▸ h0.2.1) (h.held x hx)

theorem sub (vs' : List (ℕ × ((ℕ → V) → V))) (rs' : List ℕ) (h : Holding M g row p q vs rs)
    (hvs : ∀ x ∈ vs', x ∈ vs)
    (hrs : rs.Perm rs') : Holding M g row p q vs' rs' :=
  ⟨h.emits.post fun _ _ _ hP x hx => hP x (hvs x hx), fun x hx => h.held x (hvs x hx), h.freed.perm hrs⟩

end Holding

/-! Expressions with one instruction behind the operands. -/

theorem Puts.of_emits {shared : Bool} {target : ℕ} {v : (ℕ → V) → V} (ht : p.Fresh target)
    (h : Emits M g row (· = target) p q fun ρ ρ' => ρ' target = v ρ)
    (hu : shared = false → ∀ k, q.Cached k → k.iReg ≠ target) : Puts M g row shared p target (q, target) v :=
  ⟨h.mono (fun _ hr => .inr ⟨hr, rfl⟩) fun _ _ _ hv => hv, h.grows.held ht.held, fun hs => ⟨rfl, hu hs⟩⟩

/-- One instruction without operands in registers. -/
theorem Puts.addOp {shared : Bool} (hp : p.WF) {target : ℕ} (ht : p.Fresh target) {op : Op V C F} {v : (ℕ → V) → V}
    (hx : ∀ ρ, M.exec row op ρ = (none, Function.update ρ target (v ρ))) :
    Puts M g row shared p target (p.addOp op, target) v := by
  refine .of_emits ht ((Emits.addOp hp ht op hx).post ?_) fun _ => (ht.addOp hp op).uncached
  rintro ρ _ - rfl
  exact Function.update_self _ _ _

/-- The last instruction writes the target, and besides only registers that nothing else is in; then the temporary
registers are released. -/
theorem Holding.last {vs : List (ℕ × ((ℕ → V) → V))} {rs : List ℕ} (h : Holding M g row p q vs rs) {shared : Bool}
    {target : ℕ} (ht : p.Fresh target) (op : Op V C F) {v : (ℕ → V) → V}
    (hx : ∀ ρ ρ', (∀ x ∈ vs, ρ' x.1 = x.2 ρ) → ∃ σ : ℕ → V,
      M.exec row op ρ' = (none, Function.update σ target (v ρ)) ∧
      ∀ r, σ r = ρ' r ∨ p.Avail r ∧ q.Fresh r) :
    Puts M g row shared p target (rs.foldl sqlite3ReleaseTempReg (q.addOp op), target) v := by
  have hop : Grows (· = target) q (q.addOp op) := h.emits.grows.wf.grows_code rfl (Program.extends_addOp _ _)
  have hg : Grows (· = target) p q := h.emits.grows.mono fun _ hr => hr.elim
  have hq : q.Fresh target := ht.grows h.emits.grows id
  have hem : Emits M g row (· = target) p (q.addOp op) fun ρ ρ' => ρ' target = v ρ := by
    refine ⟨hg.trans hop, fun X hX ρ hρ => ?_⟩
    obtain ⟨ρ', hrun, hc, hf, hP⟩ := h.emits.runs X (hX.of_extends hop.code) ρ hρ
    obtain ⟨σ, hexec, hσ⟩ := hx ρ ρ' hP
    refine ⟨_, hrun.trans (Image.Runs.next hX hexec), fun k hk => ?_, fun r hr hne => ?_, Function.update_self _ _ _⟩
    · rw [Function.update_of_ne (hq.uncached k hk)]
      obtain heq | ⟨-, hfr⟩ := hσ k.iReg
      · exact heq.trans (hc k hk)
      · exact absurd rfl (hfr.uncached k hk)
    · rw [Function.update_of_ne hne]
      obtain heq | ⟨hav, -⟩ := hσ r
      · exact heq.trans (hf r hr id)
      · exact absurd hav hr
  have hall : FreedAll p (q.addOp op) rs := h.freed.grows hop
  refine .of_emits ht (.releaseAll rs hem hall) fun _ k hk => ?_
  exact (hq.addOp hg.wf op).uncached k (releaseAll_cached rs (q.addOp op) ▸ hk)

/-- The last instruction writes only the target. -/
theorem Holding.finish {vs : List (ℕ × ((ℕ → V) → V))} {rs : List ℕ} (h : Holding M g row p q vs rs)
    {shared : Bool} {target : ℕ}
    (ht : p.Fresh target) (op : Op V C F) {f v : (ℕ → V) → V}
    (hx : ∀ ρ, M.exec row op ρ = (none, Function.update ρ target (f ρ)))
    (hv : ∀ ρ ρ', (∀ x ∈ vs, ρ' x.1 = x.2 ρ) → f ρ' = v ρ) :
    Puts M g row shared p target (rs.foldl sqlite3ReleaseTempReg (q.addOp op), target) v :=
  h.last ht op fun ρ ρ' hP => ⟨ρ', hv ρ ρ' hP ▸ hx ρ', fun _ => .inl rfl⟩

/-- A register whose value numeric affinity does not change, or that nothing else is in. -/
def Harmless (M : Scalars V C F) (p q : Parse V C F) (op : Binary) (r : ℕ) (v : (ℕ → V) → V) : Prop :=
  (∀ ρ, M.operand op (v ρ) = v ρ) ∨ p.Avail r ∧ q.Fresh r

/-- An instruction with two operands that may give them numeric affinity. -/
theorem Holding.binary {vs : List (ℕ × ((ℕ → V) → V))} {rs : List ℕ} (h : Holding M g row p q vs rs) {shared : Bool}
    {target : ℕ} (ht : p.Fresh target) (op : Binary) {r₁ r₂ : ℕ} {v₁ v₂ : (ℕ → V) → V} (h₁ : (r₁, v₁) ∈ vs)
    (h₂ : (r₂, v₂) ∈ vs) (hr₁ : Harmless M p q op r₁ v₁) (hr₂ : Harmless M p q op r₂ v₂)
    (hne : r₁ = r₂ → ∀ ρ, M.operand op (v₂ ρ) = v₂ ρ) :
    Puts M g row shared p target (rs.foldl sqlite3ReleaseTempReg (q.addOp (.binary op r₂ r₁ target)), target)
      fun ρ => M.binary op (M.operand op (v₁ ρ)) (M.operand op (v₂ ρ)) := by
  refine h.last ht _ fun ρ ρ' hP => ?_
  have e₁ : ρ' r₁ = v₁ ρ := hP _ h₁
  have e₂ : ρ' r₂ = v₂ ρ := hP _ h₂
  refine ⟨Function.update (Function.update ρ' r₂ (M.operand op (v₂ ρ))) r₁ (M.operand op (v₁ ρ)), ?_, fun r => ?_⟩
  · by_cases heq : r₁ = r₂
    · subst heq
      have e : v₁ ρ = v₂ ρ := e₁.symm.trans e₂
      simp only [Scalars.exec, Function.update_self, e₂, e, hne rfl]
    · have heq' : r₂ ≠ r₁ := fun h => heq h.symm
      simp only [Scalars.exec, Function.update_self, Function.update_of_ne heq, Function.update_of_ne heq', e₁, e₂]
  · by_cases hr : r = r₁
    · subst hr
      rw [Function.update_self]
      exact hr₁.imp_left fun hk => (hk ρ).trans e₁.symm
    · rw [Function.update_of_ne hr]
      by_cases hr : r = r₂
      · subst hr
        rw [Function.update_self]
        exact hr₂.imp_left fun hk => (hk ρ).trans e₂.symm
      · exact .inl (Function.update_of_ne hr _ _)

/-- Two operands, whose registers are released the first first. -/
theorem Computes.operands {l r : Expr V F} (hl : Computes M g row l) (hr : Computes M g row r) (hp : p.WF)
    (hhl : Held p l) (hhr : Held p r) :
    let t₁ := sqlite3ExprCodeTemp g p l
    let t₂ := sqlite3ExprCodeTemp g t₁.1 r
    Holding M g row p t₂.1 [(t₂.2.1, (value M g row · r)), (t₁.2.1, (value M g row · l))] [t₁.2.2, t₂.2.2] :=
  (((Holding.nil M g row hp).load hl hhl).load hr hhr).sub _ _ (fun _ hx => hx) (.swap _ _ _)

/-- An expression with two operands that is coded as one instruction behind them. -/
theorem Computes.of_operands {e l r : Expr V F} (hl : Computes M g row l) (hr : Computes M g row r)
    (hregs : e.regs = l.regs ++ r.regs) (op : ℕ → ℕ → ℕ → Op V C F) {f : V → V → V}
    (hcode : ∀ p target, sqlite3ExprCodeTarget g p e target =
      let t₁ := sqlite3ExprCodeTemp g p l
      let t₂ := sqlite3ExprCodeTemp g t₁.1 r
      (((t₂.1.addOp (op t₁.2.1 t₂.2.1 target)).sqlite3ReleaseTempReg t₁.2.2).sqlite3ReleaseTempReg t₂.2.2, target))
    (hx : ∀ r₁ r₂ target ρ,
      M.exec row (op r₁ r₂ target) ρ = (none, Function.update ρ target (f (ρ r₁) (ρ r₂))))
    (hv : ∀ ρ, value M g row ρ e = f (value M g row ρ l) (value M g row ρ r)) : Computes M g row e := by
  intro p target hp ht he _
  have h := hl.operands hr hp (fun x hx => he x (by simp [hregs, hx])) fun x hx => he x (by simp [hregs, hx])
  rw [hcode]
  refine h.finish ht _ (hx _ _ target) fun ρ ρ' hP => ?_
  obtain ⟨h2, h1⟩ := by simpa using hP
  rw [hv, h1, h2]

/-- The same with one operand. -/
theorem Computes.of_operand {e l : Expr V F} (hl : Computes M g row l) (hregs : e.regs = l.regs)
    (op : ℕ → ℕ → Op V C F) {f : V → V}
    (hcode : ∀ p target, sqlite3ExprCodeTarget g p e target =
      let t := sqlite3ExprCodeTemp g p l
      ((t.1.addOp (op t.2.1 target)).sqlite3ReleaseTempReg t.2.2, target))
    (hx : ∀ r target ρ, M.exec row (op r target) ρ = (none, Function.update ρ target (f (ρ r))))
    (hv : ∀ ρ, value M g row ρ e = f (value M g row ρ l)) : Computes M g row e := by
  intro p target hp ht he _
  have h := (Holding.nil M g row hp).load hl (fun x hx => he x (by rwa [hregs]))
  rw [hcode]
  refine h.finish ht _ (hx _ target) fun ρ ρ' hP => ?_
  have h1 : ρ' _ = _ := hP _ List.mem_cons_self
  rw [hv, h1]

theorem Puts.congr {shared : Bool} {target : ℕ} {t : Parse V C F × ℕ} {v v' : (ℕ → V) → V}
    (h : Puts M g row shared p target t v) (hv : ∀ ρ, v ρ = v' ρ) : Puts M g row shared p target t v' :=
  ⟨h.emits.post fun ρ _ _ hP => hP.trans (hv ρ), h.held, h.own⟩

theorem Computes.compare {l r : Expr V F} (op : Cmp) (hl : Computes M g row l) (hr : Computes M g row r) :
    Computes M g row (.compare op l r) :=
  hl.of_operands hr rfl (fun r₁ r₂ target => .compare op r₂ (.store target) r₁ (g.compareInfo l r) false)
    (f := fun v w => M.ofTruth (M.comparison op (g.compareInfo l r) false v w))
    (fun p target => by simp only [sqlite3ExprCodeTarget, codeCompare]) (fun r₁ r₂ target ρ => rfl)
    fun ρ => by simp only [value]

theorem Computes.is {l r : Expr V F} (hl : Computes M g row l) (hr : Computes M g row r) :
    Computes M g row (.is l r) :=
  hl.of_operands hr rfl (fun r₁ r₂ target => .compare .eq r₂ (.store target) r₁ (g.compareInfo l r) true)
    (f := fun v w => M.ofTruth (M.comparison .eq (g.compareInfo l r) true v w))
    (fun p target => by simp only [sqlite3ExprCodeTarget, codeCompare]) (fun r₁ r₂ target ρ => rfl)
    fun ρ => by simp only [value]

theorem Computes.isNot {l r : Expr V F} (hl : Computes M g row l) (hr : Computes M g row r) :
    Computes M g row (.isNot l r) :=
  hl.of_operands hr rfl (fun r₁ r₂ target => .compare .ne r₂ (.store target) r₁ (g.compareInfo l r) true)
    (f := fun v w => M.ofTruth (M.comparison .ne (g.compareInfo l r) true v w))
    (fun p target => by simp only [sqlite3ExprCodeTarget, codeCompare]) (fun r₁ r₂ target ρ => rfl)
    fun ρ => by simp only [value]

theorem Computes.and {l r : Expr V F} (hl : Computes M g row l) (hr : Computes M g row r) :
    Computes M g row (.and l r) :=
  hl.of_operands hr rfl (fun r₁ r₂ target => .and r₂ r₁ target)
    (f := fun v w => M.ofTruth (and3 (M.truth v) (M.truth w)))
    (fun p target => by simp only [sqlite3ExprCodeTarget])
    (fun r₁ r₂ target ρ => by rw [Scalars.exec, M.ofLogic_and]) fun ρ => by simp only [value]

theorem Computes.or {l r : Expr V F} (hl : Computes M g row l) (hr : Computes M g row r) :
    Computes M g row (.or l r) :=
  hl.of_operands hr rfl (fun r₁ r₂ target => .or r₂ r₁ target)
    (f := fun v w => M.ofTruth (or3 (M.truth v) (M.truth w)))
    (fun p target => by simp only [sqlite3ExprCodeTarget])
    (fun r₁ r₂ target ρ => by rw [Scalars.exec, M.ofLogic_or]) fun ρ => by simp only [value]

/-- An operand of arithmetic. -/
theorem Loads.harmless {e : Expr V F} {t : Parse V C F × ℕ × ℕ} (h : Loads M g row e.isShared p t (value M g row · e))
    (op : Binary) (hk : op.arithmetic = true → Keeps M g row e) :
    Harmless M p t.1 op t.2.1 (value M g row · e) ∧
      (¬p.Avail t.2.1 → ∀ ρ, M.operand op (value M g row ρ e) = value M g row ρ e) := by
  have key : e.isShared = true → ∀ ρ, M.operand op (value M g row ρ e) = value M g row ρ e := by
    intro hs ρ
    rw [Scalars.operand]
    split
    · rename_i ha
      exact hk ha hs ρ
    · rfl
  cases hs : e.isShared with
  | true => exact ⟨.inl (key hs), fun _ => key hs⟩
  | false =>
    obtain ⟨hav, hf⟩ := h.own hs
    exact ⟨.inr ⟨hav, hf⟩, fun hn => absurd hav hn⟩

theorem Harmless.grows {op : Binary} {r : ℕ} {v : (ℕ → V) → V} (h : Harmless M p q op r v) (hg : Grows NoReg q s) :
    Harmless M p s op r v := h.imp_right fun hr => ⟨hr.1, hr.2.grows hg id⟩

theorem Harmless.after {op : Binary} {r : ℕ} {v : (ℕ → V) → V} (h : Harmless M q s op r v) (hg : Grows NoReg p q) :
    Harmless M p s op r v := h.imp_right fun hr => ⟨hg.avail r hr.1, hr.2⟩

theorem Computes.binary {l r : Expr V F} (op : Binary) (hl : Computes M g row l) (hr : Computes M g row r)
    (hk : op.arithmetic = true → Keeps M g row l ∧ Keeps M g row r) : Computes M g row (.binary op l r) := by
  intro p target hp ht he _
  have hhl : Held p l := fun x hx => he x (by simp [hx])
  have hhr : Held p r := fun x hx => he x (by simp [hx])
  have h : Holding M g row p (sqlite3ExprCodeTemp g (sqlite3ExprCodeTemp g p l).1 r).1 _ _ :=
    hl.operands hr hp hhl hhr
  have h1 := hl.temp hp hhl
  have h2 := hr.temp h1.emits.grows.wf (hhr.grows h1.emits.grows)
  simp only [sqlite3ExprCodeTarget, value]
  generalize sqlite3ExprCodeTemp g p l = t₁ at *
  generalize sqlite3ExprCodeTemp g t₁.1 r = t₂ at *
  have hl1 := (h1.harmless op fun ha => (hk ha).1).1
  obtain ⟨hr2, hne⟩ := h2.harmless op fun ha => (hk ha).2
  exact h.binary ht op (List.mem_cons_of_mem _ List.mem_cons_self) List.mem_cons_self (hl1.grows h2.emits.grows)
    (hr2.after h1.emits.grows) fun heq => hne fun hav => h1.held (heq ▸ hav)

theorem Computes.bitNot {l : Expr V F} (hl : Computes M g row l) : Computes M g row (.bitNot l) :=
  hl.of_operand rfl (fun r target => .bitNot r target) (f := M.bitNot)
    (fun p target => by simp only [sqlite3ExprCodeTarget]) (fun r target ρ => rfl) fun ρ => by simp only [value]

theorem Computes.not {l : Expr V F} (hl : Computes M g row l) : Computes M g row (.not l) :=
  hl.of_operand rfl (fun r target => .not r target) (f := fun v => M.ofTruth (not3 (M.truth v)))
    (fun p target => by simp only [sqlite3ExprCodeTarget]) (fun r target ρ => by rw [Scalars.exec, M.not_eq])
    fun ρ => by simp only [value]

theorem Computes.uplus {l : Expr V F} (hl : Computes M g row l) : Computes M g row (.uplus l) := by
  intro p target hp ht he hnot
  simp only [sqlite3ExprCodeTarget, value]
  exact hl p target hp ht he hnot

theorem Computes.uminus {l : Expr V F} (hl : Computes M g row l) (hk : Keeps M g row l) :
    Computes M g row (.uminus l) := by
  intro p target hp ht he _
  -- 0 goes to a register of its own, as if it were the left operand of a subtraction
  obtain ⟨h, hfresh, hne⟩ := (Holding.nil M g row hp).get
  have hav := getTempReg_avail p
  have h1 := h.store List.mem_cons_self hfresh [] (fun _ hx => hx) hne (.integer 0 p.sqlite3GetTempReg.2)
    (f := fun _ => M.int 0) (v := fun _ => M.int 0) (fun ρ => rfl) fun _ _ _ => rfl
  have hf1 := hfresh.addOp h.emits.grows.wf (.integer 0 p.sqlite3GetTempReg.2)
  have h2 := h1.load hl he
  have hload := hl.temp h1.emits.grows.wf (Held.grows he h1.emits.grows)
  obtain ⟨hr2, hne2⟩ := hload.harmless .minus fun _ => hk
  have general : Puts M g row false p target _ _ := (h2.sub _ _ (fun _ hx => hx) (.swap _ _ _)).binary ht .minus
    (List.mem_cons_of_mem _ List.mem_cons_self) List.mem_cons_self (.inr ⟨hav, hf1.grows hload.emits.grows id⟩)
    (hr2.after h1.emits.grows) fun heq => hne2 fun ha => hf1.held (heq ▸ ha)
  cases l with
  | integer | number =>
    simp only [sqlite3ExprCodeTarget, value]
    exact .addOp hp ht fun ρ => rfl
  | _ =>
    simp only [sqlite3ExprCodeTarget]
    exact general.congr fun ρ => by simp only [value]

theorem Computes.constant {e : Expr V F} (v : V) (op : ℕ → Op V C F)
    (hcode : ∀ (p : Parse V C F) target, sqlite3ExprCodeTarget g p e target = (p.addOp (op target), target))
    (hx : ∀ target ρ, M.exec row (op target) ρ = (none, Function.update ρ target v))
    (hv : ∀ ρ, value M g row ρ e = v) : Computes M g row e := by
  intro p target hp ht _ _
  rw [hcode]
  exact (Puts.addOp hp ht (hx target)).congr fun ρ => (hv ρ).symm

theorem Computes.register (r : ℕ) (e : Expr V F) : Computes M g row (.register r e) := by
  intro p target hp ht he hnot
  simp only [sqlite3ExprCodeTarget]
  refine ⟨(Emits.of_quiet hp.quiet).post ?_, he r (by simp), fun hshared => by cases hshared⟩
  rintro ρ _ - rfl
  simp only [value]

/-! Columns. -/

/-- What may be read for a value: that value, or at `P5` something that the function does not tell from it. -/
def ReadAs (M : Scalars V C F) : Option F → V → V → Prop
  | none, v, w => v = w
  | some pDef, v, w => M.function pDef [v] = M.function pDef [w]

theorem ReadAs.refl (M : Scalars V C F) (p5 : Option F) (v : V) : ReadAs M p5 v v := by
  cases p5 <;> rfl

theorem ReadAs.function {pDef : F} {b : Bool} {v w : V} (h : ReadAs M (if b then some pDef else none) v w) :
    M.function pDef [v] = M.function pDef [w] := by
  cases b with
  | true => exact h
  | false =>
    obtain rfl : v = w := h
    rfl

theorem Emits.readColumn (M : Scalars V C F) (g : Schema V C F) (row : Row M) (hp : p.WF) {r : ℕ}
    (hr : p.Fresh r) (iTable : ℕ) (iCol : ℤ) (p5 : Option F) :
    Emits M g row (· = r) p (p.readColumn (g.pTab iTable) iTable iCol r p5)
        (fun _ ρ' => ReadAs M p5 (ρ' r)
          (if iCol < 0 ∨ iCol = (g.pTab iTable).iPKey then row.rowid iTable else row.column iTable iCol)) ∧
      (p.readColumn (g.pTab iTable) iTable iCol r p5).Fresh r := by
  rw [Parse.readColumn]
  split
  · refine ⟨(Emits.addOp hp hr _ (f := fun _ => row.rowid iTable) fun ρ => rfl).post ?_, hr.addOp hp _⟩
    rintro ρ _ - rfl
    rw [Function.update_self]
    exact .refl M p5 _
  · cases p5 with
    | none =>
      refine ⟨(Emits.addOp hp hr _ (f := fun _ => row.column iTable iCol) fun ρ => rfl).post ?_, hr.addOp hp _⟩
      rintro ρ _ - rfl
      exact Function.update_self _ _ _
    | some pDef =>
      refine ⟨(Emits.addOp hp hr _ (f := fun _ => row.header pDef iTable iCol) fun ρ => rfl).post ?_, hr.addOp hp _⟩
      rintro ρ _ - rfl
      rw [Function.update_self]
      exact row.function_header pDef iTable iCol

theorem Emits.columnOfTable (M : Scalars V C F) (g : Schema V C F) (row : Row M) (hp : p.WF) {r : ℕ}
    (hr : p.Fresh r) (iTable : ℕ) (iCol : ℤ) (p5 : Option F) :
    Emits M g row (· = r) p (p.sqlite3ExprCodeGetColumnOfTable (g.pTab iTable) iTable iCol r p5)
        (fun _ ρ' => ReadAs M p5 (ρ' r) (columnValue M g row iTable iCol)) ∧
      (p.sqlite3ExprCodeGetColumnOfTable (g.pTab iTable) iTable iCol r p5).Fresh r := by
  rw [sqlite3ExprCodeGetColumnOfTable]
  simp only [columnValue]
  split
  · obtain ⟨hread, hfresh⟩ := Emits.readColumn M g row hp hr iTable iCol none
    refine ⟨hread.trans (Emits.addOp hread.grows.wf hfresh _ (f := fun ρ => M.realAffinity (ρ r)) fun ρ => rfl) ?_,
      hfresh.addOp hread.grows.wf _⟩
    rintro ρ ρ₁ _ - (hv : ρ₁ r = _) - rfl
    rw [Function.update_self, hv]
    exact .refl M p5 _
  · exact Emits.readColumn M g row hp hr iTable iCol p5

/-- A column, from the cache or not. -/
theorem Emits.getColumn (M : Scalars V C F) (g : Schema V C F) (row : Row M) (hp : p.WF) {target : ℕ}
    (ht : p.Fresh target) (iTable : ℕ) (iColumn : ℤ) (p5 : Option F) :
    let t := p.sqlite3ExprCodeGetColumn (g.pTab iTable) iColumn iTable target p5
    Emits M g row (fun x => x = target ∧ t.2 = target) p t.1
        (fun _ ρ' => ReadAs M p5 (ρ' t.2) (columnValue M g row iTable iColumn)) ∧ ¬t.1.Avail t.2 := by
  simp only [sqlite3ExprCodeGetColumn]
  split
  · rename_i used heq
    obtain ⟨hq, hheld, e, he, hf, hreg⟩ := useEntry_quiet hp (fun e he => (of_decide_eq_true he).1) heq
    obtain ⟨h0, htab, hcol⟩ := of_decide_eq_true hf
    refine ⟨⟨hq.grows, fun X hX ρ hρ => ?_⟩, hheld⟩
    obtain ⟨ρ', hrun, hc, hfr,
      rfl⟩ := (Emits.of_quiet (T := fun x => x = target ∧ used.2 = target) hq).runs X hX ρ hρ
    refine ⟨ρ', hrun, hc, hfr, ?_⟩
    have hv := hρ e.entry (cached_entry he h0)
    rw [← hreg, ← htab, ← hcol]
    exact hv ▸ .refl M p5 _
  · obtain ⟨hread, hfresh⟩ := Emits.columnOfTable M g row hp ht iTable iColumn p5
    cases p5 with
    | some pDef =>
      exact ⟨hread.mono (fun _ hr => .inr ⟨hr, rfl⟩) fun _ _ _ hv => hv, hfresh.held⟩
    | none =>
      obtain ⟨hg, hcode, hcached⟩ := cacheStore_grows hread.grows.wf iTable iColumn hfresh
      have hem : Emits M g row (· = target) p
          ((p.sqlite3ExprCodeGetColumnOfTable (g.pTab iTable) iTable iColumn target none).sqlite3ExprCacheStore iTable
            iColumn target) fun _ ρ' => ρ' target = columnValue M g row iTable iColumn := by
        refine ⟨hread.grows.trans hg, fun X hX ρ hρ => ?_⟩
        rw [hcode] at hX ⊢
        obtain ⟨ρ', hrun, hc, hf, hv⟩ := hread.runs X hX ρ hρ
        refine ⟨ρ', hrun, fun k hk => ?_, hf, hv⟩
        obtain hk | ⟨htab, hcol, hreg⟩ := hcached k hk
        · exact hc k hk
        · rw [htab, hcol, hreg]
          exact hv
      exact ⟨hem.mono (fun _ hr => .inr ⟨hr, rfl⟩) fun _ _ _ hv => hv, hem.grows.held ht.held⟩

theorem Computes.column (iTable : ℕ) (iColumn : ℤ) : Computes M g row (.column iTable iColumn) := by
  intro p target hp ht _ _
  simp only [sqlite3ExprCodeTarget, value]
  obtain ⟨hem, hheld⟩ := Emits.getColumn M g row hp ht iTable iColumn none
  exact ⟨hem, hheld, fun hshared => by cases hshared⟩

/-! A value in a given register. -/

theorem exprCode_eq {e : Expr V F} (he : ∀ r of, e ≠ .register r of) (target : ℕ) :
    sqlite3ExprCode g p e target =
      let t := sqlite3ExprCodeTarget g p e target
      if t.2 ≠ target then t.1.addOp (.sCopy t.2 target) else t.1 := by
  rw [sqlite3ExprCode]
  exact he

/-- A value goes to the target if it is in another register. -/
theorem Emits.move {target : ℕ} (ht : p.Fresh target) {t : Parse V C F × ℕ} {Q : (ℕ → V) → V → Prop}
    (h : Emits M g row (fun x => x = target ∧ t.2 = target) p t.1 fun ρ ρ' => Q ρ (ρ' t.2)) (op : Op V C F)
    (hx : ∀ ρ, M.exec row op ρ = (none, Function.update ρ target (ρ t.2))) :
    Emits M g row (· = target) p (if t.2 ≠ target then t.1.addOp op else t.1) fun ρ ρ' => Q ρ (ρ' target) := by
  split
  · rename_i hne
    have hem : Emits M g row (· = target) p t.1 fun ρ ρ' => Q ρ (ρ' t.2) :=
      h.mono (fun _ hr => absurd hr.2 hne) fun _ _ _ hv => hv
    have hft : t.1.Fresh target := ht.grows h.grows fun hr => hne hr.2
    refine hem.trans (Emits.addOp hem.grows.wf hft _ (f := fun ρ => ρ t.2) hx) ?_
    rintro ρ ρ₁ _ - hv - rfl
    rwa [Function.update_self]
  · rename_i heq
    have heq : t.2 = target := not_not.mp heq
    rw [heq] at h
    exact h.mono (fun _ hr => .inr hr.1) fun _ _ _ hv => hv

theorem Computes.code {e : Expr V F} (h : Computes M g row e) (hp : p.WF) {target : ℕ} (ht : p.Fresh target)
    (he : Held p e) (hnot : target ∉ e.regs) :
    Emits M g row (· = target) p (sqlite3ExprCode g p e target) fun ρ ρ' => ρ' target = value M g row ρ e := by
  by_cases hreg : ∃ r of, e = .register r of
  · obtain ⟨r, of, rfl⟩ := hreg
    simp only [sqlite3ExprCode, value]
    refine (Emits.addOp hp ht _ (f := fun ρ => ρ r) fun ρ => rfl).post ?_
    rintro ρ _ - rfl
    exact Function.update_self _ _ _
  · rw [exprCode_eq fun r of heq => hreg ⟨r, of, heq⟩]
    exact (h p target hp ht he hnot).emits.move (Q := fun ρ v => v = value M g row ρ e) ht _ fun ρ => rfl

theorem Computes.code_own {e : Expr V F} (h : Computes M g row e) (hp : p.WF) {target : ℕ} (ht : p.Fresh target)
    (he : Held p e) (hnot : target ∉ e.regs) (hs : e.isShared = false) :
    ∀ k, (sqlite3ExprCode g p e target).Cached k → k.iReg ≠ target := by
  have hreg : ∀ r of, e ≠ .register r of := by
    rintro r of rfl
    cases hs
  obtain ⟨heq, hown⟩ := (h p target hp ht he hnot).own hs
  rw [exprCode_eq hreg]
  simp only [heq, ne_eq, not_true_eq_false, if_false]
  exact hown

/-! Tests for null. -/

/-- The target counts down from 1 unless the instruction in front jumps over that. -/
theorem Emits.skip (g : Schema V C F) (hp : p.WF) {target : ℕ} (ht : p.Fresh target) {op : Op V C F}
    {b : (ℕ → V) → Bool}
    (hx : ∀ ρ, M.exec row op ρ = (if b ρ then some (.addr (p.pVdbe.here + 2)) else none, ρ)) :
    Emits M g row (· = target) p ((p.addOp op).addOp (.addImm target (-1))) fun ρ ρ' =>
      ρ target = M.int 1 → ρ' target = M.ofTruth (some (b ρ)) := by
  have hop : Emits M g row (· = target) (p.addOp op) ((p.addOp op).addOp (.addImm target (-1)))
      fun ρ ρ' => ρ' = Function.update ρ target (M.int (M.intValue (ρ target) + -1)) :=
    .addOp (hp.addOp op) (ht.addOp hp op) _ fun ρ => rfl
  have hg : Grows (· = target) p (p.addOp op) := hp.grows_code rfl (Program.extends_addOp _ _)
  refine ⟨hg.trans hop.grows, fun X hX ρ hρ => ?_⟩
  have hX₁ := hX.of_extends hop.grows.code
  specialize hx ρ
  cases hb : b ρ with
  | true =>
    rw [hb, if_pos rfl] at hx
    have hhere : ((p.addOp op).addOp (.addImm target (-1))).pVdbe.here = p.pVdbe.here + 2 := by simp [Parse.addOp]
    rw [hhere]
    exact ⟨ρ, Image.Runs.jump hX₁ hx, hρ, .refl, fun h1 => h1.trans rfl⟩
  | false =>
    rw [hb, if_neg Bool.false_ne_true] at hx
    obtain ⟨ρ', h1, hc, hf, rfl⟩ := hop.runs X hX ρ hρ
    refine ⟨_, (Image.Runs.next hX₁ hx).trans h1, hc, hf, fun h1 => ?_⟩
    rw [Function.update_self, h1, M.intValue_int]
    rfl

/-- `IS NULL` and `NOT NULL`. -/
theorem Puts.test {shared shared' : Bool} (hp : p.WF) {target : ℕ} (ht : p.Fresh target)
    {t : Parse V C F × ℕ × ℕ} {v : (ℕ → V) → V}
    {op : Op V C F} {b : V → Bool} (h : Loads M g row shared (p.addOp (.integer 1 target)) t v)
    (hx : ∀ ρ, M.exec row op ρ = (if b (ρ t.2.1) then some (.addr (t.1.pVdbe.here + 2)) else none, ρ))
    (hv : ∀ ρ, v (Function.update ρ target (M.int 1)) = v ρ) :
    Puts M g row shared' p target
      (((t.1.addOp op).addOp (.addImm target (-1))).sqlite3ReleaseTempReg t.2.2, target)
      fun ρ => M.ofTruth (some (b (v ρ))) := by
  have h1 : Emits M g row (· = target) p (p.addOp (.integer 1 target)) fun ρ ρ' =>
      ρ' = Function.update ρ target (M.int 1) := .addOp hp ht _ fun ρ => rfl
  have ht₁ := ht.addOp hp (.integer 1 target)
  have hskip := Emits.skip g h.emits.grows.wf (ht₁.grows h.emits.grows id) hx
  have h2 := (h.emits.mono (U := (· = target)) (fun _ hr => hr.elim) fun ρ ρ' hf hP => And.intro hP
    (hf target ht₁.held id)).trans hskip (R := fun ρ ρ' => ρ target = M.int 1 →
      ρ' target = M.ofTruth (some (b (v ρ))))
    fun ρ ρ₁ ρ' _ hP _ hQ h1 => by rw [hQ (hP.2.trans h1), hP.1]
  refine .of_emits ht (.release (h1.trans h2 ?_) ?_) fun _ k hk => ?_
  · rintro ρ ρ₁ ρ' - rfl - hQ
    rw [hQ (Function.update_self _ _ _), hv]
  · exact (hskip.grows.freed h.freed).grows h1.grows
  · rw [releaseTempReg_cached] at hk
    exact (ht₁.grows h.emits.grows id).uncached k hk

theorem Computes.isNull {l : Expr V F} (hl : Computes M g row l) : Computes M g row (.isNull l) := by
  intro p target hp ht he hnot
  have h := hl.temp (hp.addOp (.integer 1 target))
    (he.grows (T := NoReg) (hp.grows_code rfl (Program.extends_addOp _ _)))
  have hnot : target ∉ l.regs := by simpa using hnot
  simp only [sqlite3ExprCodeTarget, value]
  exact Puts.test hp ht h (fun ρ => rfl) fun ρ => value_update hnot _ _

theorem Computes.notNull {l : Expr V F} (hl : Computes M g row l) : Computes M g row (.notNull l) := by
  intro p target hp ht he hnot
  have h := hl.temp (hp.addOp (.integer 1 target))
    (he.grows (T := NoReg) (hp.grows_code rfl (Program.extends_addOp _ _)))
  have hnot : target ∉ l.regs := by simpa using hnot
  simp only [sqlite3ExprCodeTarget, value]
  refine Puts.test hp ht h (b := fun v => !M.isNull v) (fun ρ => ?_) fun ρ => value_update hnot _ _
  rw [Scalars.exec]
  cases M.isNull (ρ (sqlite3ExprCodeTemp g (p.addOp (.integer 1 target)) l).2.1) <;> rfl


theorem Computes.between {x y z : Expr V F} (hx : Computes M g row x) (hy : Computes M g row y)
    (hz : Computes M g row z) : Computes M g row (.between x y z) := by
  intro p target hp ht he _
  have hhx : Held p x := fun r hr => he r (by simp [hr])
  have hhy : Held p y := fun r hr => he r (by simp [hr])
  have hhz : Held p z := fun r hr => he r (by simp [hr])
  have h1 := (Holding.nil M g row hp).load hx hhx
  have h2 := h1.load hy hhy
  have hne2 := h1.ne_load (hy.temp h1.emits.grows.wf (hhy.grows h1.emits.grows))
  simp only [sqlite3ExprCodeTarget, codeCompare, value]
  generalize sqlite3ExprCodeTemp g p x = t₁ at *
  generalize sqlite3ExprCodeTemp g t₁.1 y = t₂ at *
  -- the two registers for the results
  obtain ⟨h3, hf3, hne3⟩ := h2.get
  obtain ⟨h4, hf4, hne4⟩ := h3.get
  have hf34 := hf3.grows (getTempReg_quiet h3.emits.grows.wf).grows (T := NoReg) id
  have hne34 : t₂.1.sqlite3GetTempReg.2 ≠ t₂.1.sqlite3GetTempReg.1.sqlite3GetTempReg.2 :=
    fun heq => hf3.held (heq ▸ getTempReg_avail _)
  generalize t₂.1.sqlite3GetTempReg = t₃ at *
  generalize t₃.1.sqlite3GetTempReg = t₄ at *
  have hpos3 := (List.pairwise_cons.mp h3.freed.ne).1 t₂.2.2 (by simp)
  have hpos4 : t₄.2 ≠ t₂.2.2 := fun heq =>
    Nat.ne_of_gt hf4.pos (heq.trans ((List.pairwise_cons.mp h4.freed.ne).1 t₂.2.2 (by simp) heq))
  simp only [List.forall_mem_cons, List.not_mem_nil, false_implies, implies_true, and_true] at hne2 hne3 hne4
  -- x>=y
  have h5 := h4.store (r := t₃.2) (by simp) hf34 [(t₁.2.1, (value M g row · x))] (by simp) (by simpa using hne3.2)
    (.compare .ge t₂.2.1 (.store t₃.2) t₁.2.1 (g.compareInfo x y) false)
    (f := fun ρ => M.ofTruth (M.comparison .ge (g.compareInfo x y) false (ρ t₁.2.1) (ρ t₂.2.1)))
    (v := fun ρ => M.ofTruth (M.comparison .ge (g.compareInfo x y) false (value M g row ρ x) (value M g row ρ y)))
    (fun ρ => rfl) fun ρ ρ' hP => by
      obtain ⟨hy, hx⟩ := by simpa using hP
      rw [hx, hy]
  have hf5 := (hf4.addOp h4.emits.grows.wf (.compare .ge t₂.2.1 (.store t₃.2) t₁.2.1 (g.compareInfo x y) false)).release
    hpos4
  have h6 := (h5.sub _ [t₂.2.2, t₄.2, t₃.2, t₁.2.2] (fun _ hx => hx)
    (@List.perm_middle _ _ [t₄.2, t₃.2] _)).release
    (by simpa using ⟨hpos3, hne2⟩)
  generalize (t₄.1.addOp (.compare .ge t₂.2.1 (.store t₃.2) t₁.2.1 (g.compareInfo x y) false)).sqlite3ReleaseTempReg
    t₂.2.2 = p₆ at *
  -- x<=z
  have h7 := h6.load hz hhz
  have hf7 := hf5.grows (hz.temp h6.emits.grows.wf (hhz.grows h6.emits.grows)).emits.grows id
  generalize sqlite3ExprCodeTemp g p₆ z = t₇ at *
  have h8 := h7.store (r := t₄.2) (by simp) hf7 [(t₃.2, fun ρ => M.ofTruth
      (M.comparison .ge (g.compareInfo x y) false (value M g row ρ x) (value M g row ρ y)))] (by simp)
    (by simpa using hne34) (.compare .le t₇.2.1 (.store t₄.2) t₁.2.1 (g.compareInfo x z) false)
    (f := fun ρ => M.ofTruth (M.comparison .le (g.compareInfo x z) false (ρ t₁.2.1) (ρ t₇.2.1)))
    (v := fun ρ => M.ofTruth (M.comparison .le (g.compareInfo x z) false (value M g row ρ x) (value M g row ρ z)))
    (fun ρ => rfl) fun ρ ρ' hP => by
      obtain ⟨hz, -, hx⟩ := by simpa using hP
      rw [hx, hz]
  have hperm : [t₇.2.2, t₄.2, t₃.2, t₁.2.2].Perm [t₃.2, t₄.2, t₁.2.2, t₇.2.2] :=
    (@List.perm_append_comm _ [t₇.2.2] [t₄.2, t₃.2, t₁.2.2]).trans (.swap _ _ _)
  refine (h8.sub _ _ (fun _ hx => hx) hperm).finish ht (.and t₃.2 t₄.2 target)
    (f := fun ρ => M.ofTruth (and3 (M.truth (ρ t₄.2)) (M.truth (ρ t₃.2)))) (fun ρ => ?_) fun ρ ρ' hP => ?_
  · rw [Scalars.exec, M.ofLogic_and]
  · obtain ⟨hle, hge⟩ := by simpa using hP
    rw [hle, hge, M.truth_ofTruth, M.truth_ofTruth, and3_comm]

/-! Code whose entries of the cache go again. -/

theorem Emits.pushPop (h : Emits M g row T p.sqlite3ExprCachePush q P) :
    Emits M g row T p (q.sqlite3ExprCachePop 1) P := by
  obtain ⟨hg, hcode, hsub⟩ := cachePush_grows h.grows
  refine ⟨hg, fun X hX ρ hρ => ?_⟩
  rw [hcode] at hX ⊢
  obtain ⟨ρ', hrun, hc, hf, hP⟩ := h.runs X hX ρ hρ
  exact ⟨ρ', hrun, fun k hk => hc k (hsub k hk).1, hf, hP⟩

/-- One argument of `COALESCE` behind the first. -/
theorem coalesce_step {e : Expr V F} (h : Computes M g row e) (hp : p.WF) {target : ℕ} (hpos : 0 < target)
    (hheld : ¬p.Avail target) (he : Held p e) (hnot : target ∉ e.regs) (d : Dest) :
    let p₁ := (p.addOp (.notNull target d)).sqlite3ExprCacheRemove target 1
    let q := (sqlite3ExprCode g p₁.sqlite3ExprCachePush e target).sqlite3ExprCachePop 1
    Emits M g row (· = target) p₁ q (fun ρ ρ' => ρ' target = value M g row ρ e) ∧
      Quiet (p.addOp (.notNull target d)) p₁ ∧
      ∀ k, q.Cached k → p.Cached k ∧ k.iReg ≠ target := by
  intro p₁ q
  have hq := cacheRemove_quiet (hp.addOp (.notNull target d)) target 1
  have hfresh : p₁.Fresh target := by
    refine ⟨hpos, fun ha => hheld (hq.avail target ha), fun k hk heq => ?_⟩
    exact cacheRemove_uncached (hp.addOp _) hk ⟨Nat.le_of_eq heq.symm, heq ▸ Nat.lt_succ_self _⟩
  have hhe : Held p₁ e := fun r hr ha => he r hr (hq.avail r ha)
  have hem := h.code (p := p₁.sqlite3ExprCachePush) hq.wf.cachePush ⟨hfresh.pos, hfresh.held,
    hfresh.uncached⟩ hhe hnot
  refine ⟨hem.pushPop, hq, fun k hk => ?_⟩
  have hk' : p₁.Cached k := ((cachePush_grows hem.grows).2.2 k hk).2.1
  exact ⟨hq.sub k hk', hfresh.uncached k hk'⟩

theorem coalesceLoop_runs {target : ℕ} (hpos : 0 < target) (endCoalesce : ℕ) : ∀ {es : List (Expr V F)}
    {p q : Parse V C F},
    coalesceLoop g p es target endCoalesce = q → (∀ e ∈ es, Computes M g row e) → p.WF → ¬p.Avail target →
    (∀ r ∈ regsList es, ¬p.Avail r) → target ∉ regsList es →
    Grows (· = target) p q ∧ (∀ k, q.Cached k → p.Cached k ∧ (es ≠ [] → k.iReg ≠ target)) ∧
      ∀ X : Image (Op V C F), X.Contains q.pVdbe → X.address endCoalesce = q.pVdbe.here →
      ∀ ρ, CacheOK M g row p ρ → ∃ ρ', X.Runs (M.exec row) (p.pVdbe.here, ρ) (q.pVdbe.here, ρ') ∧
        CacheOK M g row q ρ' ∧ Frame p (· = target) ρ ρ' ∧ ρ' target = coalesceValue M g row ρ (ρ target) es
  | [], p, q, hcode, _, hp, _, _, _ => by
    rw [coalesceLoop] at hcode
    subst hcode
    simp only [coalesceValue]
    exact ⟨hp.refl, fun _ hk => ⟨hk, fun hne => absurd rfl hne⟩,
      fun X _ _ ρ hρ => ⟨ρ, Image.Runs.refl _ _, hρ, .refl, rfl⟩⟩
  | e :: es, p, q, hcode, h, hp, hheld, hregs, hnot => by
    obtain ⟨hem, hq,
      hsub⟩ := coalesce_step (h e List.mem_cons_self) hp hpos hheld (fun r hr => hregs r (by simp [hr]))
      (fun hr => hnot (by simp [hr])) (.label endCoalesce)
    have hg₀ : Grows (· = target) p (p.addOp (.notNull target (.label endCoalesce))) :=
      hp.grows_code rfl (Program.extends_addOp _ _)
    rw [coalesceLoop] at hcode
    generalize (p.addOp (.notNull target (.label endCoalesce))).sqlite3ExprCacheRemove target 1 = p₁ at *
    generalize (sqlite3ExprCode g p₁.sqlite3ExprCachePush e target).sqlite3ExprCachePop 1 = p₂ at *
    have hg₁ := hg₀.trans hq.grows
    have hg := hg₁.trans hem.grows
    obtain ⟨hgl, hsubl,
      hrunl⟩ := coalesceLoop_runs hpos endCoalesce hcode (fun e' he' => h e' (List.mem_cons_of_mem e he'))
      hem.grows.wf (hg.held hheld) (fun r hr => hg.held (hregs r (by simp [hr]))) fun hr => hnot (by simp [hr])
    have hsubs : ∀ k, q.Cached k → p.Cached k ∧ k.iReg ≠ target := fun k hk => hsub k (hsubl k hk).1
    refine ⟨hg.trans hgl, fun k hk => ⟨(hsubs k hk).1, fun _ => (hsubs k hk).2⟩, fun X hX hend ρ hρ => ?_⟩
    have hX₂ := hX.of_extends hgl.code
    have hX₁ := hX₂.of_extends hem.grows.code
    rw [hq.code] at hX₁
    rw [coalesceValue]
    by_cases hn : M.isNull (ρ target) = true
    · rw [if_pos hn]
      have hrun : X.Runs (M.exec row) (p.pVdbe.here, ρ) (_,
        ρ) := Image.Runs.next hX₁ (by rw [Scalars.exec, if_pos hn])
      obtain ⟨ρ₁, hrun₁, hc₁, hf₁, hv₁⟩ := hem.runs X hX₂ ρ fun k hk => hρ k (hq.sub k hk)
      obtain ⟨ρ', hrun', hc', hf', hv'⟩ := hrunl X hX hend ρ₁ hc₁
      rw [hq.code] at hrun₁
      have hf : Frame p (· = target) ρ ρ₁ := Frame.refl.trans hg₁ hf₁
      refine ⟨ρ', (hrun.trans hrun₁).trans hrun', hc', hf.trans hg hf', ?_⟩
      rw [hv', hv₁]
      refine coalesceValue_congr (fun e' _ => congr e') (fun r hr => hf r (hregs r (by simp [hr])) fun heq => ?_) _
      exact hnot (by simp [← heq, hr])
    · rw [if_neg hn]
      have hrun : X.Runs (M.exec row) (p.pVdbe.here, ρ) (X.resolve (.label endCoalesce), ρ) :=
        Image.Runs.jump hX₁ (by rw [Scalars.exec, if_neg hn])
      rw [Image.resolve, hend] at hrun
      exact ⟨ρ, hrun, fun k hk => hρ k (hsubs k hk).1, .refl, rfl⟩

theorem Computes.coalesce {e : Expr V F} {es : List (Expr V F)} (he : Computes M g row e)
    (hes : ∀ e' ∈ es, Computes M g row e') : Computes M g row (.coalesce e es) := by
  intro p target hp ht hheld hnot
  have hf : p.makeLabel.Fresh target := ⟨ht.pos, ht.held, ht.uncached⟩
  have hhe : Held p.makeLabel e := fun r hr => hheld r (by simp [hr])
  have h1 := he.code hp.makeLabel hf hhe fun hr => hnot (by simp [hr])
  have hown := he.code_own hp.makeLabel hf hhe fun hr => hnot (by simp [hr])
  simp only [sqlite3ExprCodeTarget, value]
  generalize sqlite3ExprCode g p.makeLabel e target = p₁ at *
  obtain ⟨hg, hsub, hrun⟩ := coalesceLoop_runs ht.pos p.pVdbe.labels rfl hes h1.grows.wf
    (h1.grows.held ht.held) (fun r hr => h1.grows.held (hheld r (by simp [hr]))) fun hr => hnot (by simp [hr])
  generalize coalesceLoop g p₁ es target p.pVdbe.labels = p₂ at *
  have hgl := h1.grows.trans hg
  have hu : (Expr.coalesce e es).isShared = false → ∀ k, p₂.Cached k → k.iReg ≠ target := by
    intro hs k hk
    obtain _ | ⟨e', es⟩ := es
    · exact hown hs k (hsub k hk).1
    · exact (hsub k hk).2 (List.cons_ne_nil _ _)
  refine .of_emits ht ⟨hgl.own_label, fun X hX ρ hρ => ?_⟩ hu
  obtain ⟨hX₂, hend⟩ := hX.own_label hgl.code
  obtain ⟨ρ₁, hrun₁, hc₁, hf₁, hv₁⟩ := h1.runs X (hX₂.of_extends hg.code) ρ hρ
  obtain ⟨ρ', hrun', hc', hf', hv'⟩ := hrun X hX₂ hend ρ₁ hc₁
  refine ⟨ρ', hrun₁.trans hrun', hc', Frame.trans (p := p.makeLabel) h1.grows hf₁ hf', ?_⟩
  rw [hv', hv₁]
  refine coalesceValue_congr (fun e' _ => congr e') (fun r hr => hf₁ r (hheld r (by simp [hr])) fun heq => ?_) _
  exact hnot (by simp [← heq, hr])

/-! Functions. -/

/-- Values in a range of registers, one behind the other. -/
theorem exprList_emits : ∀ (es : List (Expr V F)) (p : Parse V C F)
    (target : ℕ), (∀ e ∈ es, Computes M g row e) → p.WF →
    (∀ i < es.length, p.Fresh (target + i)) → (∀ r ∈ regsList es, ¬p.Avail r) →
    (∀ i < es.length, target + i ∉ regsList es) →
    Emits M g row (fun r => target ≤ r ∧ r < target + es.length) p (sqlite3ExprCodeExprList g p es target)
      fun ρ ρ' => (List.range es.length).map (fun i => ρ' (target + i)) = valueList M g row ρ es
  | [], p, target, _, hp, _, _, _ => by
    simp only [sqlite3ExprCodeExprList, valueList]
    exact (Emits.of_quiet hp.quiet).post fun _ _ _ _ => rfl
  | e :: es, p, target, h, hp, hf, hregs, hnot => by
    have hlen : 0 < (e :: es).length := Nat.succ_pos _
    have ht : p.Fresh target := hf 0 hlen
    have hputs := h e List.mem_cons_self p target hp ht (fun r hr => hregs r (by simp [hr]))
      fun hr => hnot 0 hlen (by simp [hr])
    simp only [sqlite3ExprCodeExprList, valueList]
    generalize sqlite3ExprCodeTarget g p e target = t at *
    have hhead := hputs.emits.move (Q := fun ρ v => v = value M g row ρ e) ht (.copy t.2 target) fun ρ => rfl
    generalize (if t.2 ≠ target then t.1.addOp (.copy t.2 target) else t.1) = p₁ at *
    have ih := exprList_emits es p₁ (target + 1) (fun e' he' => h e' (List.mem_cons_of_mem e he'))
      hhead.grows.wf (fun i hi => ?_) (fun r hr => hhead.grows.held (hregs r (by simp [hr]))) fun i hi hr => ?_
    · refine (hhead.mono (U := fun r => target ≤ r ∧ r < target + (e :: es).length) (fun r hr => .inr ?_)
        fun _ _ hfr hP => And.intro hfr hP).trans
        (ih.mono (U := fun r => target ≤ r ∧ r < target + (e :: es).length) (fun r hr => .inr ?_)
          fun _ _ hfr hP => And.intro hfr hP) ?_
      · subst hr
        exact ⟨Nat.le_refl _, Nat.lt_add_of_pos_right hlen⟩
      · rw [List.length_cons]
        exact ⟨by omega, by omega⟩
      · rintro ρ ρ₁ ρ' - ⟨hf₁, hv⟩ - ⟨hf', hvs⟩
        have hkeep : ρ' target = ρ₁ target := hf' target (hhead.grows.held ht.held) fun hr => by omega
        have htail : valueList M g row ρ₁ es = valueList M g row ρ es := by
          refine valueList_congr (fun e' _ => congr e') fun r hr => hf₁ r (hregs r (by simp [hr])) fun heq => ?_
          exact hnot 0 hlen (by simp [heq ▸ hr])
        rw [List.length_cons, List.range_succ_eq_map, List.map_cons, List.map_map, Nat.add_zero, hkeep,
          hv, ← htail, ← hvs]
        refine congrArg _ (List.map_congr_left fun i _ => ?_)
        rw [Function.comp_apply, Nat.succ_eq_add_one, Nat.add_right_comm, Nat.add_assoc]
    · have hfi := hf (i + 1) (Nat.succ_lt_succ hi)
      have hre : target + 1 + i = target + (i + 1) := by omega
      rw [hre]
      exact hfi.grows hhead.grows fun heq => by omega
    · refine hnot (i + 1) (Nat.succ_lt_succ hi) ?_
      have hre : target + (i + 1) = target + 1 + i := by omega
      rw [hre]
      simp [hr]

/-- The arguments of a function; the function may not tell them from what is in the registers. -/
theorem arguments_emits (pDef : F) {es : List (Expr V F)} (hp : p.WF) (target : ℕ) (h : ∀ e ∈ es, Computes M g row e)
    (hf : ∀ i < es.length, p.Fresh (target + i)) (hregs : ∀ r ∈ regsList es, ¬p.Avail r)
    (hnot : ∀ i < es.length, target + i ∉ regsList es) :
    Emits M g row (fun r => target ≤ r ∧ r < target + es.length) p (codeArguments g p pDef es target)
      fun ρ ρ' => M.function pDef ((List.range es.length).map fun i => ρ' (target + i)) =
        M.function pDef (valueList M g row ρ es) := by
  by_cases hc : ∃ iTable iColumn, es = [.column iTable iColumn]
  · obtain ⟨iTable, iColumn, rfl⟩ := hc
    have ht : p.Fresh target := hf 0 Nat.one_pos
    have hem := (Emits.getColumn M g row hp ht iTable iColumn (if g.op2 pDef then some pDef else none)).1.move
      (Q := fun _ v => ReadAs M _ v (columnValue M g row iTable iColumn)) ht (.copy _ target) fun ρ => rfl
    simp only [codeArguments, valueList, value]
    refine hem.mono (fun r hr => .inr ⟨hr.ge, by rw [hr]; exact Nat.lt_succ_self _⟩) fun ρ ρ' _ hv => ?_
    exact ReadAs.function hv
  · have hcode : codeArguments g p pDef es target = sqlite3ExprCodeExprList g p es target := by
      rw [codeArguments]
      exact fun iTable iColumn heq => hc ⟨iTable, iColumn, heq⟩
    rw [hcode]
    exact (exprList_emits es p target h hp hf hregs hnot).post fun ρ ρ' _ hP => by rw [hP]

theorem Computes.function {pDef : F} {es : List (Expr V F)} (h : ∀ e ∈ es, Computes M g row e) :
    Computes M g row (.function pDef es) := by
  intro p target hp ht hheld hnot
  obtain _ | ⟨e, es⟩ := es
  · simp only [sqlite3ExprCodeTarget, value, valueList]
    exact .addOp hp ht fun ρ => rfl
  · have hlen : (e :: es).length = es.length + 1 := rfl
    have hq := getTempRange_quiet hp (es.length + 1)
    have hav := fun i (hi : i < es.length + 1) => getTempRange_avail p hi
    have hfr := fun i (hi : i < es.length + 1) => getTempRange_fresh hp hi
    simp only [sqlite3ExprCodeTarget, value]
    generalize p.sqlite3GetTempRange (es.length + 1) = t at *
    have hargs := arguments_emits (p := t.1.sqlite3ExprCachePush) pDef hq.wf.cachePush t.2 h
      (fun i hi => ⟨(hfr i hi).pos, (hfr i hi).held, (hfr i hi).uncached⟩) (fun r hr ha => hheld r hr (hq.avail r ha))
      fun i hi hr => hheld _ hr (hav i hi)
    have h3 := hargs.pushPop
    generalize (codeArguments g t.1.sqlite3ExprCachePush pDef (e :: es) t.2).sqlite3ExprCachePop 1 = p₃ at *
    have h4 : Emits M g row NoReg p p₃ fun ρ ρ' =>
        M.function pDef ((List.range (es.length + 1)).map fun i => ρ' (t.2 + i)) =
          M.function pDef (valueList M g row ρ (e :: es)) := by
      refine ((Emits.of_quiet hq).trans h3 ?_).mono (fun r hr => .inl ?_) fun _ _ _ hP => hP
      · rintro ρ _ ρ' - rfl - hP
        exact hP
      · have hr' := hav (r - t.2) (by omega)
        rwa [Nat.add_sub_cancel' hr.1] at hr'
    have hop : Emits M g row (· = target) p₃ (p₃.addOp (.function t.2 target pDef (es.length + 1))) fun ρ ρ' =>
        ρ' = Function.update ρ target (M.function pDef ((List.range (es.length + 1)).map fun i => ρ (t.2 + i))) :=
      .addOp h4.grows.wf (ht.grows h4.grows id) _ fun ρ => rfl
    have h5 := (h4.mono (U := (· = target)) (fun _ hr => hr.elim) fun _ _ _ hP => hP).trans hop
      (R := fun ρ ρ' => ρ' target = M.function pDef (valueList M g row ρ (e :: es))) (by
        rintro ρ ρ₁ _ - hP - rfl
        rw [Function.update_self, hP])
    have hheldR : ∀ i < es.length + 1, p.Avail (t.2 + i) ∧
        ¬(p₃.addOp (.function t.2 target pDef (es.length + 1))).Avail (t.2 + i) := fun i hi =>
      ⟨hav i hi, hop.grows.held (h3.grows.held (hfr i hi).held)⟩
    have hpos : 0 < t.2 := (hfr 0 (Nat.succ_pos _)).pos
    obtain ⟨-, hcode, -, -, hsub⟩ := releaseTempRange_spec h5.grows.wf hpos fun i hi => (hheldR i hi).2
    have hu := ((ht.grows h4.grows id).addOp h4.grows.wf
      (.function t.2 target pDef (es.length + 1))).uncached
    refine .of_emits ht ⟨h5.grows.releaseRange hpos hheldR, fun X hX ρ hρ => ?_⟩ fun _ k hk => hu k (hsub k hk)
    rw [hcode] at hX ⊢
    obtain ⟨ρ', hrun, hc, hf, hP⟩ := h5.runs X hX ρ hρ
    exact ⟨ρ', hrun, fun k hk => hc k (hsub k hk), hf, hP⟩

end Sqlite.ExprCode
