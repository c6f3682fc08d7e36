import Mathlib.Data.List.TakeWhile

/-! Loops that read a list from its front, some elements at a time. -/
namespace Sqlite.Foundation

variable {α σ : Type}

/-- While the first element meets the condition, it goes into the state and `incr` elements are
passed over. -/
def scan (cond : σ → α → Bool) (body : σ → α → σ) (incr : ℕ) : List α → σ → List α × σ
  | [], s => ([], s)
  | b :: t, s =>
    if cond s b then scan cond body incr (t.drop (incr - 1)) (body s b) else (b :: t, s)
termination_by z => z.length
decreasing_by
  simp only [List.length_drop, List.length_cons]
  omega

/-- `while( cond ) body`, for at most `n` tests of the condition. -/
def whileLoop (cond : σ → Bool) (body : σ → σ) : ℕ → σ → Option σ
  | 0, _ => none
  | n + 1, s => if cond s then whileLoop cond body n (body s) else some s

/-- Every element that a loop with steps of `incr` meets. -/
def sample (incr : ℕ) : List α → List α
  | [] => []
  | b :: t => b :: sample incr (t.drop (incr - 1))
termination_by z => z.length
decreasing_by
  simp only [List.length_drop, List.length_cons]
  omega

variable {cond : σ → α → Bool} {body : σ → α → σ} {incr : ℕ} {z t : List α} {b : α} {s : σ}

theorem scan_nil : scan cond body incr [] s = ([], s) := by
  rw [scan]

theorem scan_cons : scan cond body incr (b :: t) s =
    if cond s b then scan cond body incr (t.drop (incr - 1)) (body s b) else (b :: t, s) := by
  rw [scan]

theorem sample_nil : sample incr ([] : List α) = [] := by
  rw [sample]

theorem sample_cons : sample incr (b :: t) = b :: sample incr (t.drop (incr - 1)) := by
  rw [sample]

theorem sample_eq_nil : sample incr z = [] ↔ z = [] := by
  cases z with
  | nil => simp [sample_nil]
  | cons b t => simp [sample_cons]

theorem head?_sample : (sample incr z).head? = z.head? := by
  cases z with
  | nil => rw [sample_nil]
  | cons b t =>
    rw [sample_cons]
    rfl

theorem tail_sample (h : 0 < incr) : (sample incr z).tail = sample incr (z.drop incr) := by
  cases z with
  | nil => simp [sample_nil]
  | cons b t =>
    obtain ⟨k, rfl⟩ : ∃ k, incr = k + 1 := ⟨incr - 1, by omega⟩
    rw [sample_cons, List.tail_cons, List.drop_succ_cons]
    rfl

theorem length_sample_le (incr : ℕ) (z : List α) : (sample incr z).length ≤ z.length := by
  induction z using sample.induct incr with
  | case1 => rw [sample_nil]
  | case2 b t ih =>
    rw [sample_cons, List.length_cons, List.length_cons]
    rw [List.length_drop] at ih
    omega

theorem getElem?_sample (h : 0 < incr) (i : ℕ) : (sample incr z)[i]? = z[i * incr]? := by
  induction i generalizing z with
  | zero =>
    rw [← List.head?_eq_getElem?, head?_sample, Nat.zero_mul, List.head?_eq_getElem?]
  | succ i ih =>
    rw [← List.getElem?_tail, tail_sample h, ih, List.getElem?_drop, Nat.succ_mul, Nat.add_comm]

/-- A loop with steps of `incr` is one over the elements that it meets. -/
theorem sample_scan : scan cond body 1 (sample incr z) s =
    (sample incr (scan cond body incr z s).1, (scan cond body incr z s).2) := by
  induction z, s using scan.induct cond body incr with
  | case1 s => simp [scan_nil, sample_nil]
  | case2 b t s hc ih =>
    rw [sample_cons, scan_cons, scan_cons, if_pos hc, if_pos hc]
    exact ih
  | case3 b t s hc =>
    rw [sample_cons, scan_cons, scan_cons, if_neg hc, if_neg hc, sample_cons]

/-- Two loops whose states correspond. -/
theorem scan_map {τ : Type} {cond' : τ → α → Bool} {body' : τ → α → τ} (f : σ → τ)
    (hc : ∀ s b, cond' (f s) b = cond s b) (hb : ∀ s b, body' (f s) b = f (body s b)) :
    scan cond' body' incr z (f s) = ((scan cond body incr z s).1, f (scan cond body incr z s).2) := by
  induction z, s using scan.induct cond body incr with
  | case1 s => rw [scan_nil, scan_nil]
  | case2 b t s h ih =>
    rw [scan_cons, scan_cons, hc, if_pos h, if_pos h, hb]
    exact ih
  | case3 b t s h => rw [scan_cons, scan_cons, hc, if_neg h, if_neg h]

/-- A loop whose condition is about the element alone. -/
theorem scan_eq {p : α → Bool} (hp : ∀ s b, cond s b = p b) :
    scan cond body 1 z s = (z.dropWhile p, (z.takeWhile p).foldl body s) := by
  induction z generalizing s with
  | nil => simp [scan_nil]
  | cons b t ih =>
    rw [scan_cons, hp]
    by_cases hb : p b = true
    · rw [if_pos hb, List.dropWhile_cons_of_pos hb, List.takeWhile_cons_of_pos hb]
      exact ih
    · rw [if_neg hb, List.dropWhile_cons_of_neg hb, List.takeWhile_cons_of_neg hb]
      rfl

/-- Elements that meet a condition are passed over up to one that does not. -/
theorem dropWhile_append_of {p : α → Bool} {l r : List α} (hl : ∀ b ∈ l, p b = true)
    (hr : ∀ b ∈ r.head?, p b = false) : (l ++ r).dropWhile p = r ∧ (l ++ r).takeWhile p = l := by
  induction l with
  | nil =>
    cases r with
    | nil => exact ⟨rfl, rfl⟩
    | cons b t => simp [hr b rfl]
  | cons b l ih =>
    obtain ⟨h1, h2⟩ := ih fun x hx => hl x (List.mem_cons_of_mem _ hx)
    have hb := hl b List.mem_cons_self
    rw [List.cons_append, List.dropWhile_cons_of_pos hb, List.takeWhile_cons_of_pos hb, h2]
    exact ⟨h1, rfl⟩

theorem head?_dropWhile_not {p : α → Bool} : ∀ b ∈ (z.dropWhile p).head?, p b = false := by
  induction z with
  | nil => simp
  | cons b t ih =>
    by_cases hb : p b = true
    · rw [List.dropWhile_cons_of_pos hb]
      exact ih
    · rw [List.dropWhile_cons_of_neg hb]
      simpa using hb

section
variable (p : α → Prop) [DecidablePred p]

/-- The elements that meet a condition, up to the first that does not. -/
theorem span_split (z : List α) : ∃ l r, z = l ++ r ∧ (∀ b ∈ l, p b) ∧ ∀ b ∈ r.head?, ¬ p b := by
  let q : α → Bool := fun b => p b
  refine ⟨z.takeWhile q, z.dropWhile q, List.takeWhile_append_dropWhile.symm, fun b hb => ?_,
    fun b hb => ?_⟩
  · have hq : q b = true := List.mem_takeWhile_imp hb
    exact of_decide_eq_true hq
  · have hq : q b = false := head?_dropWhile_not b hb
    exact of_decide_eq_false hq

theorem span_unique {l r l' r' : List α} (h : l ++ r = l' ++ r') (hl : ∀ b ∈ l, p b)
    (hr : ∀ b ∈ r.head?, ¬ p b) (hl' : ∀ b ∈ l', p b) (hr' : ∀ b ∈ r'.head?, ¬ p b) :
    l = l' ∧ r = r' := by
  obtain ⟨hd1, ht1⟩ := dropWhile_append_of (p := fun b => decide (p b))
    (fun b hb => decide_eq_true (hl b hb)) fun b hb => decide_eq_false (hr b hb)
  obtain ⟨hd2, ht2⟩ := dropWhile_append_of (p := fun b => decide (p b))
    (fun b hb => decide_eq_true (hl' b hb)) fun b hb => decide_eq_false (hr' b hb)
  rw [h] at hd1 ht1
  exact ⟨ht1.symm.trans ht2, hd1.symm.trans hd2⟩

end

/-- A loop that makes a measure smaller ends. -/
theorem whileLoop_spec {cond : σ → Bool} {body : σ → σ} {I : σ → Prop} (μ : σ → ℕ) {s : σ} {n : ℕ}
    (h : I s) (hstep : ∀ s, I s → cond s = true → I (body s) ∧ μ (body s) < μ s) (hn : μ s < n) :
    ∃ s', whileLoop cond body n s = some s' ∧ I s' ∧ cond s' = false := by
  induction n generalizing s with
  | zero => omega
  | succ n ih =>
    rw [whileLoop]
    by_cases hc : cond s = true
    · obtain ⟨hI, hlt⟩ := hstep s h hc
      rw [if_pos hc]
      exact ih hI (by omega)
    · rw [if_neg hc]
      exact ⟨s, rfl, h, Bool.not_eq_true _ ▸ hc⟩

end Sqlite.Foundation
