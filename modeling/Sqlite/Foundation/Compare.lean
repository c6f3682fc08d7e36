import Mathlib.Algebra.Order.Group.Int
import Mathlib.Data.Set.Basic
import Mathlib.Tactic.SplitIfs

/-! Three-way comparisons: the sign of an integer says how two values are ordered. -/
namespace Sqlite.Foundation

variable {α β : Type*}

/-- Swapping the values swaps the sign. -/
def Antisymm (c : α → α → ℤ) : Prop := ∀ x y, 0 < c x y ↔ c y x < 0

/-- Among some values, "not greater" is transitive. -/
def TransOn (c : α → α → ℤ) (p : α → Prop) : Prop :=
  ∀ x y z, p x → p y → p z → c x y ≤ 0 → c y z ≤ 0 → c x z ≤ 0

/-- The sign of a difference. -/
def threeWay [LT α] [DecidableLT α] (x y : α) : ℤ := if x < y then -1 else if y < x then 1 else 0

/-- Values by their ranks, and within a rank by another comparison. -/
def byRank (rank : α → ℕ) (c : α → α → ℤ) (x y : α) : ℤ :=
  if rank x < rank y then -1 else if rank y < rank x then 1 else c x y

/-- The first comparison that is not zero, of the members of two lists from position `i` on. -/
def firstNonzero (c : ℕ → α → α → ℤ) : ℕ → List α → List α → ℤ
  | i, x :: xs, y :: ys => if c i x y ≠ 0 then c i x y else firstNonzero c (i + 1) xs ys
  | _, _, _ => 0

theorem Antisymm.eq_zero {c : α → α → ℤ} (h : Antisymm c) {x y : α} (hxy : c x y = 0) :
    c y x = 0 := by
  have h1 := h x y
  have h2 := h y x
  omega

theorem Antisymm.neg {c : α → α → ℤ} (h : Antisymm c) : Antisymm fun x y => -c x y := by
  intro x y
  have hyx := h y x
  dsimp only
  omega

theorem Antisymm.comap {c : α → α → ℤ} (h : Antisymm c) (f : β → α) :
    Antisymm fun x y => c (f x) (f y) := fun x y => h (f x) (f y)

theorem TransOn.mono {c : α → α → ℤ} {p q : α → Prop} (h : TransOn c p) (hq : ∀ x, q x → p x) :
    TransOn c q :=
  fun x y z hx hy hz => h x y z (hq x hx) (hq y hy) (hq z hz)

theorem TransOn.neg {c : α → α → ℤ} {p : α → Prop} (h : TransOn c p) (hc : Antisymm c) :
    TransOn (fun x y => -c x y) p := by
  intro x y z hx hy hz hxy hyz
  dsimp only at hxy hyz ⊢
  have hyx := hc y x
  have hzy := hc z y
  have hzx := hc z x
  have hle := h z y x hz hy hx (by omega) (by omega)
  omega

theorem TransOn.comap {c : α → α → ℤ} {p : α → Prop} (h : TransOn c p) (f : β → α) :
    TransOn (fun x y => c (f x) (f y)) fun x => p (f x) :=
  fun x y z => h (f x) (f y) (f z)

/-- Between two equal values everything is equal. -/
theorem TransOn.squeeze {c : α → α → ℤ} {p : α → Prop} (h : TransOn c p) (hc : Antisymm c)
    {x y z : α} (hx : p x) (hy : p y) (hz : p z) (hxy : c x y ≤ 0) (hyz : c y z ≤ 0)
    (hxz : c x z = 0) : c x y = 0 ∧ c y z = 0 := by
  have hzx := hc.eq_zero hxz
  have hyx := h y z x hy hz hx hyz hzx.le
  have hzy := h z x y hz hx hy hzx.le hxy
  have h1 := hc x y
  have h2 := hc y x
  have h3 := hc y z
  have h4 := hc z y
  omega

theorem antisymm_threeWay [LinearOrder α] : Antisymm (threeWay : α → α → ℤ) := by
  intro x y
  unfold threeWay
  rcases lt_trichotomy x y with h | rfl | h
  · simp [h, h.asymm]
  · simp
  · simp [h, h.asymm]

theorem threeWay_nonpos [LinearOrder α] {x y : α} : threeWay x y ≤ 0 ↔ x ≤ y := by
  unfold threeWay
  rcases lt_trichotomy x y with h | rfl | h
  · simp [h, h.le]
  · simp
  · simp [h, h.asymm]

theorem antisymm_byRank {rank : α → ℕ} {c : α → α → ℤ} (h : Antisymm c) :
    Antisymm (byRank rank c) := by
  intro x y
  have hxy := h x y
  unfold byRank
  split_ifs <;> omega

/-- It is enough that the values of each rank are ordered. -/
theorem transOn_byRank {rank : α → ℕ} {c : α → α → ℤ} {p : α → Prop}
    (h : ∀ n, TransOn c fun x => rank x = n ∧ p x) : TransOn (byRank rank c) p := by
  intro x y z hx hy hz hxy hyz
  unfold byRank at *
  by_cases hsame : rank x = rank y ∧ rank y = rank z
  · have hle := h (rank x) x y z ⟨rfl, hx⟩ ⟨hsame.1.symm, hy⟩ ⟨by omega, hz⟩
    split_ifs at * <;> omega
  · split_ifs at * <;> omega

theorem antisymm_firstNonzero {c : ℕ → α → α → ℤ} (h : ∀ i, Antisymm (c i)) (i : ℕ) :
    Antisymm (firstNonzero c i) := by
  intro xs ys
  induction xs generalizing i ys with
  | nil => cases ys <;> simp [firstNonzero]
  | cons x xs ih =>
    cases ys with
    | nil => simp [firstNonzero]
    | cons y ys =>
      have hxy := h i x y
      have hyx := h i y x
      have htail := ih (i + 1) ys
      unfold firstNonzero
      split_ifs <;> omega

/-- Lists of one length are ordered where the members at each position are. -/
theorem transOn_firstNonzero {c : ℕ → α → α → ℤ} (h : ∀ i, Antisymm (c i)) {n i : ℕ}
    {p : List α → Prop} (hlen : ∀ xs, p xs → xs.length = n)
    (ht : ∀ k, TransOn (c (i + k)) fun x => ∃ xs, p xs ∧ xs[k]? = some x) :
    TransOn (firstNonzero c i) p := by
  induction n generalizing i p with
  | zero =>
    intro xs ys zs hx hy hz _ _
    rw [List.eq_nil_of_length_eq_zero (hlen xs hx)]
    simp [firstNonzero]
  | succ n ih =>
    intro xs ys zs hx hy hz hxy hyz
    obtain ⟨x, xs, rfl⟩ := List.exists_cons_of_length_eq_add_one (hlen xs hx)
    obtain ⟨y, ys, rfl⟩ := List.exists_cons_of_length_eq_add_one (hlen ys hy)
    obtain ⟨z, zs, rfl⟩ := List.exists_cons_of_length_eq_add_one (hlen zs hz)
    have hhead : TransOn (c i) fun x => ∃ l, p l ∧ l[0]? = some x := ht 0
    have hxm : ∃ l, p l ∧ l[0]? = some x := ⟨_, hx, by simp⟩
    have hym : ∃ l, p l ∧ l[0]? = some y := ⟨_, hy, by simp⟩
    have hzm : ∃ l, p l ∧ l[0]? = some z := ⟨_, hz, by simp⟩
    -- the tails of all lists of the set
    have htail : TransOn (firstNonzero c (i + 1)) fun l => ∃ a, p (a :: l) := by
      apply ih
      · rintro l ⟨a, ha⟩
        simpa using hlen _ ha
      · intro k
        rw [Nat.add_assoc, Nat.add_comm 1 k]
        apply (ht (k + 1)).mono
        rintro v ⟨l, ⟨a, ha⟩, hv⟩
        exact ⟨a :: l, ha, by simpa using hv⟩
    have hrest := htail xs ys zs ⟨x, hx⟩ ⟨y, hy⟩ ⟨z, hz⟩
    unfold firstNonzero at hxy hyz ⊢
    have hxy0 : c i x y ≤ 0 := by split_ifs at hxy <;> omega
    have hyz0 : c i y z ≤ 0 := by split_ifs at hyz <;> omega
    have hxz0 := hhead x y z hxm hym hzm hxy0 hyz0
    by_cases hxz : c i x z = 0
    · obtain ⟨h1, h2⟩ := hhead.squeeze (h i) hxm hym hzm hxy0 hyz0 hxz
      rw [if_neg (by simpa using h1)] at hxy
      rw [if_neg (by simpa using h2)] at hyz
      rw [if_neg (by simpa using hxz)]
      exact hrest hxy hyz
    · rwa [if_pos hxz]

end Sqlite.Foundation
