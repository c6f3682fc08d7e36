import Mathlib.Algebra.Order.Group.Nat
import Mathlib.Data.Set.Insert
import Mathlib.Order.Interval.Set.Defs
import Mathlib.Tactic.Ring

/-! Tilings of an initial segment of ℕ by aligned blocks of power-of-two length. A block is a
pair of its first atom and the logarithm of its length. -/
namespace Sqlite.Foundation

def span (b : ℕ × ℕ) : Set ℕ := {x | b.1 ≤ x ∧ x < b.1 + 2 ^ b.2}

@[simp] theorem mem_span {b : ℕ × ℕ} {x : ℕ} : x ∈ span b ↔ b.1 ≤ x ∧ x < b.1 + 2 ^ b.2 :=
  Iff.rfl

/-- The other half of the block of twice the size. -/
def buddy (i k : ℕ) : ℕ := if i / 2 ^ k % 2 = 1 then i - 2 ^ k else i + 2 ^ k

/-- The two halves of a block of twice the size, in either order. -/
theorem buddy_cases {i k : ℕ} (hi : 2 ^ k ∣ i) :
    ∃ q, 2 ^ (k + 1) ∣ q ∧
      ((i = q ∧ buddy i k = q + 2 ^ k) ∨ (i = q + 2 ^ k ∧ buddy i k = q)) := by
  obtain ⟨m, rfl⟩ := hi
  have hp : 0 < 2 ^ k := Nat.two_pow_pos k
  have hd : 2 ^ k * m / 2 ^ k = m := Nat.mul_div_cancel_left m hp
  unfold buddy
  rw [hd]
  rcases Nat.even_or_odd' m with ⟨c, rfl | rfl⟩
  · refine ⟨2 ^ k * (2 * c), ⟨c, by ring⟩, Or.inl ⟨rfl, ?_⟩⟩
    rw [if_neg (by omega)]
  · refine ⟨2 ^ k * (2 * c), ⟨c, by ring⟩, Or.inr ⟨by ring, ?_⟩⟩
    rw [if_pos (by omega), Nat.mul_add, Nat.mul_one, Nat.add_sub_cancel]

theorem buddy_ne (i k : ℕ) : buddy i k ≠ i := by
  have hp := Nat.two_pow_pos k
  unfold buddy
  split_ifs with h
  · have h0 : i ≠ 0 := fun e => by simp [e] at h
    omega
  · omega

theorem buddy_buddy {i k : ℕ} (hi : 2 ^ k ∣ i) : buddy (buddy i k) k = i := by
  have hp := Nat.two_pow_pos k
  obtain ⟨q, hq, hcase⟩ := buddy_cases hi
  obtain ⟨c, rfl⟩ := hq
  have hd : 2 ^ (k + 1) * c / 2 ^ k = 2 * c := by
    rw [pow_succ, Nat.mul_assoc, Nat.mul_div_cancel_left _ hp]
  have hd' : (2 ^ (k + 1) * c + 2 ^ k) / 2 ^ k = 2 * c + 1 := by
    rw [Nat.add_div_right _ hp, hd]
  rcases hcase with ⟨rfl, hb⟩ | ⟨rfl, hb⟩ <;> rw [hb, buddy]
  · rw [hd', if_pos (by omega), Nat.add_sub_cancel]
  · rw [hd, if_neg (by omega)]

/-- Aligned blocks that meet are nested. -/
theorem span_nested {a b j k x : ℕ} (ha : 2 ^ j ∣ a) (hb : 2 ^ k ∣ b) (hjk : j ≤ k)
    (hxa : x ∈ span (a, j)) (hxb : x ∈ span (b, k)) : b ≤ a ∧ a + 2 ^ j ≤ b + 2 ^ k := by
  obtain ⟨d, rfl⟩ := Nat.exists_eq_add_of_le hjk
  obtain ⟨a', rfl⟩ := ha
  obtain ⟨b', rfl⟩ := hb
  rw [mem_span] at hxa hxb
  dsimp only at hxa hxb
  rw [pow_add] at hxb ⊢
  have hp : 0 < 2 ^ j := Nat.two_pow_pos j
  have hlo : 2 ^ d * b' < a' + 1 := by
    refine Nat.lt_of_mul_lt_mul_left (a := 2 ^ j) ?_
    calc 2 ^ j * (2 ^ d * b') = 2 ^ j * 2 ^ d * b' := by ring
      _ ≤ x := hxb.1
      _ < 2 ^ j * (a' + 1) := by rw [Nat.mul_add, Nat.mul_one]; exact hxa.2
  have hhi : a' < 2 ^ d * b' + 2 ^ d := by
    refine Nat.lt_of_mul_lt_mul_left (a := 2 ^ j) ?_
    calc 2 ^ j * a' ≤ x := hxa.1
      _ < 2 ^ j * 2 ^ d * b' + 2 ^ j * 2 ^ d := hxb.2
      _ = 2 ^ j * (2 ^ d * b' + 2 ^ d) := by ring
  constructor
  · calc 2 ^ j * 2 ^ d * b' = 2 ^ j * (2 ^ d * b') := by ring
      _ ≤ 2 ^ j * a' := Nat.mul_le_mul_left _ (by omega)
  · calc 2 ^ j * a' + 2 ^ j = 2 ^ j * (a' + 1) := by ring
      _ ≤ 2 ^ j * (2 ^ d * b' + 2 ^ d) := Nat.mul_le_mul_left _ hhi
      _ = 2 ^ j * 2 ^ d * b' + 2 ^ j * 2 ^ d := by ring

/-- Aligned blocks inside `n` atoms such that every atom lies in exactly one. -/
structure Tiling (n : ℕ) (B : Set (ℕ × ℕ)) : Prop where
  aligned : ∀ b ∈ B, 2 ^ b.2 ∣ b.1
  inside : ∀ b ∈ B, b.1 + 2 ^ b.2 ≤ n
  cover : ∀ x < n, ∃ b ∈ B, x ∈ span b
  unique : ∀ b ∈ B, ∀ c ∈ B, ∀ x, x ∈ span b → x ∈ span c → b = c

namespace Tiling
variable {n : ℕ} {B B' : Set (ℕ × ℕ)}

theorem start_mem_span (b : ℕ × ℕ) : b.1 ∈ span b :=
  ⟨le_rfl, Nat.lt_add_of_pos_right (Nat.two_pow_pos _)⟩

theorem start_inj (T : Tiling n B) {i j k : ℕ} (hj : (i, j) ∈ B) (hk : (i, k) ∈ B) : j = k :=
  congrArg Prod.snd (T.unique _ hj _ hk i (start_mem_span (i, j)) (start_mem_span (i, k)))

/-- A block's buddy, where it is inside, starts a block that is no larger. -/
theorem buddy_start (T : Tiling n B) {i k : ℕ} (hb : (i, k) ∈ B) (hin : buddy i k + 2 ^ k ≤ n) :
    ∃ j ≤ k, (buddy i k, j) ∈ B := by
  have hi : 2 ^ k ∣ i := T.aligned _ hb
  have hp : 0 < 2 ^ k := Nat.two_pow_pos k
  obtain ⟨q, hq, hcase⟩ := buddy_cases hi
  have hqk : 2 ^ k ∣ q := (pow_dvd_pow 2 (Nat.le_succ k)).trans hq
  have hbk : 2 ^ k ∣ buddy i k := by
    rcases hcase with ⟨-, h⟩ | ⟨-, h⟩ <;> rw [h]
    · exact Nat.dvd_add hqk dvd_rfl
    · exact hqk
  obtain ⟨⟨c, m⟩, hc, hx⟩ := T.cover (buddy i k) (by omega)
  have hm : m ≤ k := by
    by_contra hlt
    -- a larger block over the buddy covers the whole pair
    have hpar : buddy i k ∈ span (q, k + 1) := by
      rw [mem_span, pow_succ]
      dsimp only
      rcases hcase with ⟨-, h⟩ | ⟨-, h⟩ <;> rw [h] <;> omega
    obtain ⟨hlo, hhi⟩ := span_nested hq (T.aligned _ hc) (by omega : k + 1 ≤ m) hpar hx
    have hmem : i ∈ span (c, m) := by
      rw [pow_succ] at hhi
      rw [mem_span]
      dsimp only at hhi ⊢
      rcases hcase with ⟨h, -⟩ | ⟨h, -⟩ <;> omega
    have he := congrArg Prod.snd (T.unique _ hb _ hc i (start_mem_span (i, k)) hmem)
    dsimp only at he
    omega
  obtain ⟨hlo, -⟩ := span_nested (T.aligned _ hc) hbk hm hx (start_mem_span (buddy i k, k))
  have hcb : c = buddy i k := Nat.le_antisymm hx.1 hlo
  exact ⟨m, hm, hcb ▸ hc⟩

/-- Splitting a block into its halves. -/
theorem split (T : Tiling n B) {i k : ℕ} (hb : (i, k + 1) ∈ B)
    (h : ∀ b, b ∈ B' ↔ b = (i, k) ∨ b = (i + 2 ^ k, k) ∨ (b ∈ B ∧ b ≠ (i, k + 1))) :
    Tiling n B' := by
  have hal : 2 ^ (k + 1) ∣ i := T.aligned _ hb
  have hik : 2 ^ k ∣ i := (pow_dvd_pow 2 (Nat.le_succ k)).trans hal
  have hin := T.inside _ hb
  have hsub : ∀ x, x ∈ span (i, k) ∨ x ∈ span (i + 2 ^ k, k) ↔ x ∈ span (i, k + 1) := by
    intro x
    simp only [mem_span, pow_succ]
    omega
  simp only [pow_succ] at hin
  have hold : ∀ b ∈ B, b ≠ (i, k + 1) → ∀ x, x ∈ span b → x ∉ span (i, k + 1) :=
    fun b hbB hne x hx hx' => hne (T.unique _ hbB _ hb x hx hx')
  have hcross : ∀ x, x ∈ span (i, k) → x ∉ span (i + 2 ^ k, k) := by
    intro x
    simp only [mem_span]
    omega
  refine ⟨?_, ?_, ?_, ?_⟩
  · intro b hb'
    rcases (h b).mp hb' with rfl | rfl | ⟨hb', -⟩
    · exact hik
    · exact Nat.dvd_add hik dvd_rfl
    · exact T.aligned _ hb'
  · intro b hb'
    rcases (h b).mp hb' with rfl | rfl | ⟨hb', -⟩
    · dsimp only; omega
    · dsimp only; omega
    · exact T.inside _ hb'
  · intro x hx
    obtain ⟨b, hbB, hxb⟩ := T.cover x hx
    by_cases hbe : b = (i, k + 1)
    · rcases (hsub x).mpr (hbe ▸ hxb) with hl | hr
      · exact ⟨_, (h _).mpr (Or.inl rfl), hl⟩
      · exact ⟨_, (h _).mpr (Or.inr (Or.inl rfl)), hr⟩
    · exact ⟨b, (h b).mpr (Or.inr (Or.inr ⟨hbB, hbe⟩)), hxb⟩
  · intro b hb' c hc' x hxb hxc
    rcases (h b).mp hb' with rfl | rfl | ⟨hbB, hbne⟩ <;>
      rcases (h c).mp hc' with rfl | rfl | ⟨hcB, hcne⟩
    · rfl
    · exact absurd hxc (hcross x hxb)
    · exact absurd ((hsub x).mp (Or.inl hxb)) (hold c hcB hcne x hxc)
    · exact absurd hxb (hcross x hxc)
    · rfl
    · exact absurd ((hsub x).mp (Or.inr hxb)) (hold c hcB hcne x hxc)
    · exact absurd ((hsub x).mp (Or.inl hxc)) (hold b hbB hbne x hxb)
    · exact absurd ((hsub x).mp (Or.inr hxc)) (hold b hbB hbne x hxb)
    · exact T.unique _ hbB _ hcB x hxb hxc

/-- Merging the two halves of an aligned block. -/
theorem merge (T : Tiling n B) {q k : ℕ} (hq : 2 ^ (k + 1) ∣ q) (hl : (q, k) ∈ B)
    (hr : (q + 2 ^ k, k) ∈ B)
    (h : ∀ b, b ∈ B' ↔ b = (q, k + 1) ∨ (b ∈ B ∧ b ≠ (q, k) ∧ b ≠ (q + 2 ^ k, k))) :
    Tiling n B' := by
  have hin := T.inside _ hr
  dsimp only at hin
  have hsub : ∀ x, x ∈ span (q, k + 1) ↔ x ∈ span (q, k) ∨ x ∈ span (q + 2 ^ k, k) := by
    intro x
    simp only [mem_span, pow_succ]
    omega
  have hold : ∀ b ∈ B, b ≠ (q, k) → b ≠ (q + 2 ^ k, k) → ∀ x, x ∈ span b → x ∉ span (q, k + 1) := by
    intro b hbB h1 h2 x hx hx'
    rcases (hsub x).mp hx' with hx' | hx'
    · exact h1 (T.unique _ hbB _ hl x hx hx')
    · exact h2 (T.unique _ hbB _ hr x hx hx')
  refine ⟨?_, ?_, ?_, ?_⟩
  · intro b hb'
    rcases (h b).mp hb' with rfl | ⟨hb', -⟩
    · exact hq
    · exact T.aligned _ hb'
  · intro b hb'
    rcases (h b).mp hb' with rfl | ⟨hb', -⟩
    · dsimp only; rw [pow_succ]; omega
    · exact T.inside _ hb'
  · intro x hx
    obtain ⟨b, hbB, hxb⟩ := T.cover x hx
    by_cases h1 : b = (q, k)
    · exact ⟨_, (h _).mpr (Or.inl rfl), (hsub x).mpr (Or.inl (h1 ▸ hxb))⟩
    by_cases h2 : b = (q + 2 ^ k, k)
    · exact ⟨_, (h _).mpr (Or.inl rfl), (hsub x).mpr (Or.inr (h2 ▸ hxb))⟩
    exact ⟨b, (h b).mpr (Or.inr ⟨hbB, h1, h2⟩), hxb⟩
  · intro b hb' c hc' x hxb hxc
    rcases (h b).mp hb' with rfl | ⟨hbB, hb1, hb2⟩ <;>
      rcases (h c).mp hc' with rfl | ⟨hcB, hc1, hc2⟩
    · rfl
    · exact absurd hxb (hold c hcB hc1 hc2 x hxc)
    · exact absurd hxc (hold b hbB hb1 hb2 x hxb)
    · exact T.unique _ hbB _ hcB x hxb hxc

/-- Without a pair of buddies, every aligned region lies within one block. -/
theorem region_within (T : Tiling n B) (hco : ∀ i k, (i, k) ∈ B → (buddy i k, k) ∉ B) (a k : ℕ)
    (ha : 2 ^ k ∣ a) (hin : a + 2 ^ k ≤ n) :
    ∃ b ∈ B, b.1 ≤ a ∧ a + 2 ^ k ≤ b.1 + 2 ^ b.2 := by
  induction k generalizing a with
  | zero =>
    rw [pow_zero] at hin
    obtain ⟨b, hb, hx⟩ := T.cover a hin
    exact ⟨b, hb, hx.1, Nat.succ_le_of_lt hx.2⟩
  | succ k ih =>
    have hak : 2 ^ k ∣ a := (pow_dvd_pow 2 (Nat.le_succ k)).trans ha
    have hp : 0 < 2 ^ k := Nat.two_pow_pos k
    have hin' : a + 2 ^ k + 2 ^ k ≤ n := by rw [pow_succ] at hin; omega
    obtain ⟨⟨b, m⟩, hb, hb1, hb2⟩ := ih a hak (by omega)
    obtain ⟨⟨c, l⟩, hc, hc1, hc2⟩ := ih (a + 2 ^ k) (Nat.dvd_add hak dvd_rfl) hin'
    dsimp only at hb1 hb2 hc1 hc2
    have hreg : ∀ x, a ≤ x → x < a + 2 ^ k + 2 ^ k → x ∈ span (a, k + 1) := by
      intro x h1 h2
      simp only [mem_span, pow_succ]
      omega
    by_cases hm : k + 1 ≤ m
    · obtain ⟨h1, h2⟩ := span_nested ha (T.aligned _ hb) hm (hreg a le_rfl (by omega))
        (⟨hb1, by dsimp only; omega⟩ : a ∈ span (b, m))
      exact ⟨_, hb, h1, h2⟩
    by_cases hl : k + 1 ≤ l
    · obtain ⟨h1, h2⟩ := span_nested ha (T.aligned _ hc) hl (hreg (a + 2 ^ k) (by omega) (by omega))
        (⟨hc1, by dsimp only; omega⟩ : a + 2 ^ k ∈ span (c, l))
      exact ⟨_, hc, h1, h2⟩
    -- both halves are blocks, against the hypothesis
    exfalso
    have hmk : 2 ^ m ≤ 2 ^ k := Nat.pow_le_pow_right (by omega) (by omega)
    have hlk : 2 ^ l ≤ 2 ^ k := Nat.pow_le_pow_right (by omega) (by omega)
    have hme : m = k := Nat.pow_right_injective le_rfl (show 2 ^ m = 2 ^ k by omega)
    have hle : l = k := Nat.pow_right_injective le_rfl (show 2 ^ l = 2 ^ k by omega)
    subst hme hle
    have hba : b = a := by omega
    have hca : c = a + 2 ^ l := by omega
    obtain ⟨q, hq, ⟨rfl, hbd⟩ | ⟨hqa, -⟩⟩ := buddy_cases hak
    · exact hco b l hb (by rw [hba, hbd, ← hca]; exact hc)
    · have h2 : 2 ^ (l + 1) ∣ 2 ^ l := (Nat.dvd_add_right hq).mp (hqa ▸ ha)
      have := Nat.le_of_dvd hp h2
      rw [pow_succ] at this
      omega

/-- There is only one tiling without a pair of buddies. -/
theorem eq_of_no_buddies (T : Tiling n B) (T' : Tiling n B')
    (hco : ∀ i k, (i, k) ∈ B → (buddy i k, k) ∉ B)
    (hco' : ∀ i k, (i, k) ∈ B' → (buddy i k, k) ∉ B') : B = B' := by
  have key : ∀ {B B' : Set (ℕ × ℕ)}, Tiling n B → Tiling n B' →
      (∀ i k, (i, k) ∈ B → (buddy i k, k) ∉ B) →
      (∀ i k, (i, k) ∈ B' → (buddy i k, k) ∉ B') → B ⊆ B' := by
    rintro B B' T T' hco hco' ⟨a, k⟩ hb
    obtain ⟨⟨c, m⟩, hc, h1, h2⟩ := T'.region_within hco' a k (T.aligned _ hb) (T.inside _ hb)
    obtain ⟨⟨d, l⟩, hd, h3, h4⟩ := T.region_within hco c m (T'.aligned _ hc) (T'.inside _ hc)
    dsimp only at h1 h2 h3 h4
    have hp : 0 < 2 ^ k := Nat.two_pow_pos k
    have he := T.unique _ hb _ hd a (start_mem_span (a, k)) ⟨by dsimp only; omega, by dsimp only; omega⟩
    obtain ⟨rfl, rfl⟩ := Prod.mk.inj he
    have hca : c = a := by omega
    have hmk : m = k := Nat.pow_right_injective le_rfl (show 2 ^ m = 2 ^ k by omega)
    exact hca ▸ hmk ▸ hc
  exact Set.Subset.antisymm (key T T' hco hco') (key T' T hco' hco)

end Tiling
end Sqlite.Foundation
