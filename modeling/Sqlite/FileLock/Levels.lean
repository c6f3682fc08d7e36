import Mathlib.Data.Finset.Card
import Sqlite.FileLock.Model

/-! The lock levels of the handles of one process, and its counters. -/
namespace Sqlite.FileLock

variable {files : Finset ℕ} {lv : ℕ → ℕ} {n : ℤ} {top f e : ℕ}

/-- The counters of the inode agree with the levels `lv` of its handles, which exclude each other. -/
structure Levels (files : Finset ℕ) (lv : ℕ → ℕ) (nShared : ℤ) (top : ℕ) : Prop where
  nShared : nShared = (files.filter (fun f => SHARED_LOCK ≤ lv f)).card
  le : ∀ f ∈ files, lv f ≤ top
  max : top = NO_LOCK ∨ ∃ f ∈ files, lv f = top
  high : top ≤ EXCLUSIVE_LOCK
  one : ∀ f ∈ files, ∀ g ∈ files, SHARED_LOCK < lv f → SHARED_LOCK < lv g → f = g
  alone : ∀ f ∈ files, lv f = EXCLUSIVE_LOCK → ∀ g ∈ files, g ≠ f → lv g = NO_LOCK

namespace Levels

theorem top_of_shared (h : Levels files lv n top) (hf : f ∈ files) (hlv : SHARED_LOCK < lv f) :
    lv f = top := by
  have hle := h.le f hf
  rcases h.max with h0 | ⟨g, hg, he⟩
  · unfold NO_LOCK at h0
    omega
  · have hgf : g = f := by
      apply h.one g hg f hf _ hlv
      omega
    rw [← hgf]
    exact he

/-- The number of handles with a lock after one got one, or lost one. -/
theorem card_gain (hf : f ∈ files) (h0 : lv f = NO_LOCK) (he : SHARED_LOCK ≤ e) :
    (files.filter (fun g => SHARED_LOCK ≤ Function.update lv f e g)).card =
      (files.filter (fun g => SHARED_LOCK ≤ lv g)).card + 1 := by
  have hset : files.filter (fun g => SHARED_LOCK ≤ Function.update lv f e g) =
      insert f (files.filter (fun g => SHARED_LOCK ≤ lv g)) := by
    ext g
    rw [Finset.mem_insert, Finset.mem_filter, Finset.mem_filter]
    by_cases hg : g = f
    · rw [hg, Function.update_self]
      exact ⟨fun _ => Or.inl rfl, fun _ => ⟨hf, he⟩⟩
    · rw [Function.update_of_ne hg]
      exact ⟨Or.inr, fun hc => hc.resolve_left hg⟩
  rw [hset, Finset.card_insert_of_notMem]
  intro hc
  have := (Finset.mem_filter.mp hc).2
  rw [h0] at this
  exact absurd this (by decide)

theorem card_lose (hf : f ∈ files) (h1 : SHARED_LOCK ≤ lv f) :
    ((files.filter (fun g => SHARED_LOCK ≤ Function.update lv f NO_LOCK g)).card : ℤ) =
      (files.filter (fun g => SHARED_LOCK ≤ lv g)).card - 1 := by
  have hset : files.filter (fun g => SHARED_LOCK ≤ Function.update lv f NO_LOCK g) =
      (files.filter (fun g => SHARED_LOCK ≤ lv g)).erase f := by
    ext g
    rw [Finset.mem_erase, Finset.mem_filter, Finset.mem_filter]
    by_cases hg : g = f
    · rw [hg, Function.update_self]
      constructor
      · exact fun hc => absurd hc.2 (by decide)
      · exact fun hc => absurd rfl hc.1
    · rw [Function.update_of_ne hg]
      exact ⟨fun hc => ⟨hg, hc⟩, fun hc => hc.2⟩
  have hmem : f ∈ files.filter (fun g => SHARED_LOCK ≤ lv g) := Finset.mem_filter.mpr ⟨hf, h1⟩
  have hpos := Finset.card_pos.mpr ⟨f, hmem⟩
  rw [hset, Finset.card_erase_of_mem hmem]
  omega

theorem card_same (h1 : SHARED_LOCK ≤ lv f) (he : SHARED_LOCK ≤ e) :
    files.filter (fun g => SHARED_LOCK ≤ Function.update lv f e g) =
      files.filter (fun g => SHARED_LOCK ≤ lv g) := by
  apply Finset.filter_congr
  intro g _
  by_cases hg : g = f
  · rw [hg, Function.update_self]
    exact ⟨fun _ => h1, fun _ => he⟩
  · rw [Function.update_of_ne hg]

/-- One more handle gets `SHARED_LOCK`. -/
theorem share (h : Levels files lv n top) (hf : f ∈ files) (h0 : lv f = NO_LOCK)
    (ht : top = SHARED_LOCK ∨ top = RESERVED_LOCK) :
    Levels files (Function.update lv f SHARED_LOCK) (n + 1) top := by
  have hlow : SHARED_LOCK ≤ top ∧ top < EXCLUSIVE_LOCK := by
    rcases ht with rfl | rfl
    · decide
    · decide
  constructor
  · rw [card_gain hf h0 (le_refl _), h.nShared]
    rfl
  · intro g hg
    by_cases hgf : g = f
    · rw [hgf, Function.update_self]
      exact hlow.1
    · rw [Function.update_of_ne hgf]
      exact h.le g hg
  · rcases h.max with hc | ⟨g, hg, he⟩
    · rw [hc] at hlow
      exact absurd hlow.1 (by decide)
    · right
      refine ⟨g, hg, ?_⟩
      have hgf : g ≠ f := by
        intro hc
        rw [hc, h0] at he
        rw [← he] at hlow
        exact absurd hlow.1 (by decide)
      rw [Function.update_of_ne hgf]
      exact he
  · exact h.high
  · have hne : ∀ a, SHARED_LOCK < Function.update lv f SHARED_LOCK a → a ≠ f := by
      intro a ha hc
      rw [hc, Function.update_self] at ha
      exact absurd ha (lt_irrefl _)
    intro a ha b hb h1 h2
    rw [Function.update_of_ne (hne a h1)] at h1
    rw [Function.update_of_ne (hne b h2)] at h2
    exact h.one a ha b hb h1 h2
  · intro a ha hx
    exfalso
    by_cases haf : a = f
    · rw [haf, Function.update_self] at hx
      exact absurd hx (by decide)
    · rw [Function.update_of_ne haf] at hx
      have := h.le a ha
      omega

/-- The first handle gets `SHARED_LOCK`. -/
theorem first (h : Levels files lv n NO_LOCK) (hf : f ∈ files) :
    Levels files (Function.update lv f SHARED_LOCK) 1 SHARED_LOCK := by
  have h0 : ∀ g ∈ files, lv g = NO_LOCK := fun g hg => Nat.le_zero.mp (h.le g hg)
  have hle : ∀ g ∈ files, Function.update lv f SHARED_LOCK g ≤ SHARED_LOCK := by
    intro g hg
    by_cases hgf : g = f
    · rw [hgf, Function.update_self]
    · rw [Function.update_of_ne hgf, h0 g hg]
      decide
  constructor
  · have hnone : files.filter (fun g => SHARED_LOCK ≤ lv g) = ∅ := by
      apply Finset.filter_eq_empty_iff.mpr
      intro g hg
      rw [h0 g hg]
      decide
    rw [card_gain hf (h0 f hf) (le_refl _), hnone]
    rfl
  · exact hle
  · exact Or.inr ⟨f, hf, Function.update_self ..⟩
  · decide
  · exact fun a ha b _ h1 => absurd h1 (not_lt.mpr (hle a ha))
  · intro a ha hx
    have := hle a ha
    rw [hx] at this
    exact absurd this (by decide)

/-- The handle with the highest lock gets a higher one. -/
theorem raise (h : Levels files lv n top) (hf : f ∈ files) (hlv : lv f = top)
    (h1 : SHARED_LOCK ≤ top) (he : top ≤ e) (he1 : SHARED_LOCK < e) (he4 : e ≤ EXCLUSIVE_LOCK)
    (hx : e = EXCLUSIVE_LOCK → n ≤ 1) : Levels files (Function.update lv f e) n e := by
  have hother : ∀ g ∈ files, g ≠ f → lv g ≤ SHARED_LOCK := by
    intro g hg hgf
    by_contra hc
    have hgt : lv g = top := h.top_of_shared hg (not_le.mp hc)
    apply hgf
    apply h.one g hg f hf (not_le.mp hc)
    omega
  constructor
  · rw [card_same (by omega) (by omega)]
    exact h.nShared
  · intro g hg
    by_cases hgf : g = f
    · rw [hgf, Function.update_self]
    · rw [Function.update_of_ne hgf]
      exact (h.le g hg).trans he
  · exact Or.inr ⟨f, hf, Function.update_self ..⟩
  · exact he4
  · have hne : ∀ a ∈ files, SHARED_LOCK < Function.update lv f e a → a = f := by
      intro a ha hlt
      by_contra hc
      rw [Function.update_of_ne hc] at hlt
      have := hother a ha hc
      omega
    intro a ha b hb g1 g2
    rw [hne a ha g1, hne b hb g2]
  · intro a ha hax g hg hga
    have haf : a = f := by
      by_contra hc
      rw [Function.update_of_ne hc] at hax
      have := hother a ha hc
      rw [hax] at this
      exact absurd this (by decide)
    rw [haf] at hga hax
    rw [Function.update_self] at hax
    rw [Function.update_of_ne hga]
    by_contra hg0
    have hg1 : SHARED_LOCK ≤ lv g := Nat.one_le_iff_ne_zero.mpr hg0
    have htwo : 1 < (files.filter (fun g => SHARED_LOCK ≤ lv g)).card := by
      apply Finset.one_lt_card.mpr
      refine ⟨g, Finset.mem_filter.mpr ⟨hg, hg1⟩, f, Finset.mem_filter.mpr ⟨hf, ?_⟩, hga⟩
      omega
    have := hx hax
    have := h.nShared
    omega

/-- The handle with the highest lock goes down to `SHARED_LOCK`. -/
theorem lower (h : Levels files lv n top) (hf : f ∈ files) (hlv : SHARED_LOCK < lv f) :
    Levels files (Function.update lv f SHARED_LOCK) n SHARED_LOCK := by
  have hle : ∀ g ∈ files, Function.update lv f SHARED_LOCK g ≤ SHARED_LOCK := by
    intro g hg
    by_cases hgf : g = f
    · rw [hgf, Function.update_self]
    · rw [Function.update_of_ne hgf]
      by_contra hc
      exact hgf (h.one g hg f hf (not_le.mp hc) hlv)
  constructor
  · rw [card_same hlv.le (le_refl _)]
    exact h.nShared
  · exact hle
  · exact Or.inr ⟨f, hf, Function.update_self ..⟩
  · decide
  · exact fun a ha b _ h1 => absurd h1 (not_lt.mpr (hle a ha))
  · intro a ha hx
    have := hle a ha
    rw [hx] at this
    exact absurd this (by decide)

/-- The last handle gives its lock up. -/
theorem last (h : Levels files lv n top) (hf : f ∈ files) (hlv : SHARED_LOCK ≤ lv f)
    (hn : n - 1 = 0) : Levels files (Function.update lv f NO_LOCK) (n - 1) NO_LOCK := by
  have hcard := card_lose hf hlv
  have hzero : files.filter (fun g => SHARED_LOCK ≤ Function.update lv f NO_LOCK g) = ∅ := by
    apply Finset.card_eq_zero.mp
    have := h.nShared
    omega
  have h0 : ∀ g ∈ files, Function.update lv f NO_LOCK g = NO_LOCK := by
    intro g hg
    have := Finset.filter_eq_empty_iff.mp hzero hg
    unfold SHARED_LOCK at this
    unfold NO_LOCK at this ⊢
    omega
  constructor
  · rw [hcard, h.nShared]
  · exact fun g hg => (h0 g hg).le
  · exact Or.inl rfl
  · decide
  · intro a ha b _ h1
    rw [h0 a ha] at h1
    exact absurd h1 (by decide)
  · intro a ha hx
    rw [h0 a ha] at hx
    exact absurd hx (by decide)

/-- A handle gives its lock up, and others have locks. -/
theorem leave (h : Levels files lv n top) (hf : f ∈ files) (hlv : SHARED_LOCK ≤ lv f)
    (hn : n - 1 ≠ 0) : Levels files (Function.update lv f NO_LOCK) (n - 1)
      (if SHARED_LOCK < lv f then SHARED_LOCK else top) := by
  have hcard := card_lose hf hlv
  obtain ⟨g, hg⟩ : (files.filter (fun g => SHARED_LOCK ≤ Function.update lv f NO_LOCK g)).Nonempty := by
    apply Finset.card_pos.mp
    have := h.nShared
    omega
  obtain ⟨hgf', hg1⟩ := Finset.mem_filter.mp hg
  have hgf : g ≠ f := by
    intro hc
    rw [hc, Function.update_self] at hg1
    exact absurd hg1 (by decide)
  rw [Function.update_of_ne hgf] at hg1
  have hother : ∀ a ∈ files, a ≠ f → SHARED_LOCK < lv f → lv a ≤ SHARED_LOCK := by
    intro a ha haf h1
    by_contra hc
    exact haf (h.one a ha f hf (not_le.mp hc) h1)
  have hne : ∀ a, SHARED_LOCK ≤ Function.update lv f NO_LOCK a → a ≠ f := by
    intro a h1 hc
    rw [hc, Function.update_self] at h1
    exact absurd h1 (by decide)
  constructor
  · rw [hcard, h.nShared]
  · intro a ha
    by_cases haf : a = f
    · rw [haf, Function.update_self]
      exact Nat.zero_le _
    · rw [Function.update_of_ne haf]
      split
      · exact hother a ha haf (by assumption)
      · exact h.le a ha
  · right
    split
    · rename_i h1
      refine ⟨g, hgf', ?_⟩
      rw [Function.update_of_ne hgf]
      have := hother g hgf' hgf h1
      omega
    · rename_i h1
      rcases h.max with hc | ⟨a, ha, he⟩
      · have := h.le f hf
        rw [hc] at this
        have := hlv.trans this
        exact absurd this (by decide)
      · by_cases haf : a = f
        · refine ⟨g, hgf', ?_⟩
          rw [Function.update_of_ne hgf]
          rw [haf] at he
          have := h.le g hgf'
          omega
        · refine ⟨a, ha, ?_⟩
          rw [Function.update_of_ne haf]
          exact he
  · split
    · decide
    · exact h.high
  · intro a ha b hb h1 h2
    rw [Function.update_of_ne (hne a h1.le)] at h1
    rw [Function.update_of_ne (hne b h2.le)] at h2
    exact h.one a ha b hb h1 h2
  · intro a ha hx b hb hba
    have haf : a ≠ f := by
      intro hc
      rw [hc, Function.update_self] at hx
      exact absurd hx (by decide)
    rw [Function.update_of_ne haf] at hx
    by_cases hbf : b = f
    · rw [hbf, Function.update_self]
    · rw [Function.update_of_ne hbf]
      exact h.alone a ha hx b hb hba

end Levels

end Sqlite.FileLock
