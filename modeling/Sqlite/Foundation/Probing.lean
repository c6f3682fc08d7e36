import Mathlib.Data.Finset.Card
import Mathlib.Data.Nat.ModEq
import Mathlib.Data.Nat.Find
import Mathlib.Order.Interval.Finset.Nat

/-! Hash tables with linear probing over `N` slots. A slot holds the number of an entry, and 0
when it is free. Entries are numbered from 1 in the order of their insertion. -/
namespace Sqlite.Foundation

variable {N n h : ℕ} {home key key' slot slot' : ℕ → ℕ} {ρ : Type*}

/-- The slot met at distance `d` from `h`. -/
def probeAt (N h d : ℕ) : ℕ := (h + d) % N

/-- Follow `next` over the occupied slots, at most `bound` of them. -/
def walk (next slot : ℕ → ℕ) (body : ℕ → ρ → ρ) : ℕ → ℕ → ρ → Option (ℕ × ρ)
  | bound, k, r =>
    if slot k = 0 then some (k, r)
    else match bound with
      | 0 => none
      | bound + 1 => walk next slot body bound (next k) (body k r)

/-- Entries 1 to `n` are stored once each, every one behind slots filled before it. -/
structure Probed (N : ℕ) (home key slot : ℕ → ℕ) (n : ℕ) : Prop where
  le : ∀ j < N, slot j ≤ n
  inj : ∀ j < N, ∀ j' < N, slot j = slot j' → slot j ≠ 0 → j = j'
  placed : ∀ i, 0 < i → i ≤ n → ∃ d < N, slot (probeAt N (home (key i)) d) = i ∧
    ∀ e < d, 0 < slot (probeAt N (home (key i)) e) ∧ slot (probeAt N (home (key i)) e) < i

theorem probeAt_lt (hN : 0 < N) (h d : ℕ) : probeAt N h d < N := Nat.mod_lt _ hN

theorem probeAt_succ (N h d : ℕ) : probeAt N (h + 1) d = probeAt N h (d + 1) := by
  unfold probeAt
  rw [Nat.add_right_comm, Nat.add_assoc]

theorem probeAt_inj {d e : ℕ} (hd : d < N) (he : e < N) (h1 : probeAt N h d = probeAt N h e) :
    d = e := by
  have h2 : h + d ≡ h + e [MOD N] := h1
  exact Nat.ModEq.eq_of_lt_of_lt (Nat.ModEq.add_left_cancel' h h2) hd he

/-- The walk visits the occupied slots up to the first free one. -/
theorem walk_eq {next : ℕ → ℕ} (f : ℕ → ρ → ρ) (hn : ∀ k < N, next k = (k + 1) % N)
    (hN : 0 < N) {m : ℕ} : ∀ {bound h : ℕ} (r : ρ), m ≤ bound → slot (probeAt N h m) = 0 →
    (∀ e < m, slot (probeAt N h e) ≠ 0) →
    walk next slot f bound (h % N) r =
      some (probeAt N h m, (List.range m).foldl (fun r e => f (probeAt N h e) r) r) := by
  induction m with
  | zero =>
    intro bound h r _ h0 _
    have h1 : slot (h % N) = 0 := h0
    unfold walk
    rw [if_pos h1]
    rfl
  | succ m ih =>
    intro bound h r hb h0 hne
    have h1 : slot (h % N) ≠ 0 := hne 0 (Nat.succ_pos m)
    obtain ⟨bound, rfl⟩ : ∃ b, bound = b + 1 := ⟨bound - 1, by omega⟩
    have h2 : next (h % N) = (h + 1) % N := by
      rw [hn _ (Nat.mod_lt _ hN), Nat.mod_add_mod]
    have h3 := ih (h := h + 1) (f (h % N) r) (Nat.le_of_succ_le_succ hb)
      (by rwa [probeAt_succ]) (fun e he => by rw [probeAt_succ]; exact hne _ (by omega))
    unfold walk
    rw [if_neg h1]
    simp only [h2, h3, probeAt_succ]
    rw [List.range_succ_eq_map, List.foldl_cons, List.foldl_map]
    rfl

/-- What a walk keeps of the slots it accepts is the last of them. -/
theorem foldl_last (p : ℕ → Prop) [DecidablePred p] (g : ℕ → ρ) (r : ρ) (m : ℕ) :
    ((∀ e < m, ¬ p e) ∧ (List.range m).foldl (fun r e => if p e then g e else r) r = r) ∨
    ∃ e < m, p e ∧ (∀ e' < m, e < e' → ¬ p e') ∧
      (List.range m).foldl (fun r e => if p e then g e else r) r = g e := by
  induction m with
  | zero => exact Or.inl ⟨nofun, rfl⟩
  | succ m ih =>
    rw [List.range_succ, List.foldl_append, List.foldl_cons, List.foldl_nil]
    by_cases hp : p m
    · right
      refine ⟨m, Nat.lt_succ_self m, hp, fun e' h1 h2 => by omega, ?_⟩
      rw [if_pos hp]
    · rw [if_neg hp]
      rcases ih with ⟨h1, h2⟩ | ⟨e, he, h1, h2, h3⟩
      · left
        refine ⟨fun e he => ?_, h2⟩
        rcases Nat.lt_succ_iff_lt_or_eq.mp he with he | rfl
        · exact h1 e he
        · exact hp
      · right
        refine ⟨e, Nat.lt_succ_of_lt he, h1, fun e' h4 h5 => ?_, h3⟩
        rcases Nat.lt_succ_iff_lt_or_eq.mp h4 with h4 | rfl
        · exact h2 e' h4 h5
        · exact hp

namespace Probed

theorem empty (hs : ∀ j < N, slot j = 0) : Probed N home key slot 0 where
  le j hj := Nat.le_of_eq (hs j hj)
  inj j hj _ _ _ h := absurd (hs j hj) h
  placed i h0 h1 := absurd h0 (by omega)

theorem congr (hp : Probed N home key slot n) (hN : 0 < N)
    (hk : ∀ i, 0 < i → i ≤ n → key' i = key i)
    (hs : ∀ j < N, slot' j = slot j) : Probed N home key' slot' n where
  le j hj := by
    rw [hs j hj]
    exact hp.le j hj
  inj j hj j' hj' := by
    rw [hs j hj, hs j' hj']
    exact hp.inj j hj j' hj'
  placed i h0 h1 := by
    obtain ⟨d, hd, h2, h3⟩ := hp.placed i h0 h1
    rw [hk i h0 h1]
    refine ⟨d, hd, (hs _ (probeAt_lt hN _ _)).trans h2, fun e he => ?_⟩
    rw [hs _ (probeAt_lt hN _ _)]
    exact h3 e he

/-- Some slot among the first `n + 1` on any path is free. -/
theorem exists_free (hp : Probed N home key slot n) (hn : n < N) (h : ℕ) :
    ∃ m ≤ n, slot (probeAt N h m) = 0 ∧ ∀ e < m, slot (probeAt N h e) ≠ 0 := by
  have hN : 0 < N := Nat.lt_of_le_of_lt (Nat.zero_le n) hn
  have h1 : ∃ m, m ≤ n ∧ slot (probeAt N h m) = 0 := by
    by_contra hc
    have hc' : ∀ m, m ≤ n → slot (probeAt N h m) ≠ 0 := fun m hm h0 => hc ⟨m, hm, h0⟩
    obtain ⟨d, hd, e, he, hde, heq⟩ := Finset.exists_ne_map_eq_of_card_lt_of_maps_to
      (s := Finset.range (n + 1)) (t := Finset.Icc 1 n) (f := fun d => slot (probeAt N h d))
      (by simp) (fun d hd => by
        have hd' : d ≤ n := Nat.le_of_lt_succ (Finset.mem_range.mp hd)
        exact Finset.mem_Icc.mpr ⟨Nat.pos_of_ne_zero (hc' d hd'), hp.le _ (probeAt_lt hN _ _)⟩)
    have hd' : d ≤ n := Nat.le_of_lt_succ (Finset.mem_range.mp hd)
    have he' : e ≤ n := Nat.le_of_lt_succ (Finset.mem_range.mp he)
    exact hde (probeAt_inj (by omega) (by omega)
      (hp.inj _ (probeAt_lt hN _ _) _ (probeAt_lt hN _ _) heq (hc' d hd')))
  refine ⟨Nat.find h1, (Nat.find_spec h1).1, (Nat.find_spec h1).2, fun e he h0 => ?_⟩
  exact Nat.find_min h1 he ⟨Nat.le_trans (Nat.le_of_lt he) (Nat.find_spec h1).1, h0⟩

/-- Dropping the entries above `L` breaks no path of those that stay. -/
theorem cleanup (hp : Probed N home key slot n) {L : ℕ} (hL : L ≤ n) :
    Probed N home key (fun j => if L < slot j then 0 else slot j) L where
  le j hj := by
    split <;> omega
  inj j hj j' hj' := by
    intro h1 h2
    rw [if_neg (fun hc => h2 (if_pos hc))] at h1 h2
    by_cases h3 : L < slot j'
    · rw [if_pos h3] at h1
      exact absurd h1 h2
    · rw [if_neg h3] at h1
      exact hp.inj j hj j' hj' h1 h2
  placed i h0 h1 := by
    obtain ⟨d, hd, h2, h3⟩ := hp.placed i h0 (Nat.le_trans h1 hL)
    refine ⟨d, hd, ?_, fun e he => ?_⟩
    · rw [h2, if_neg (Nat.not_lt.mpr h1)]
    · have h4 := h3 e he
      rw [if_neg (by omega)]
      exact h4

/-- The next entry goes into the first free slot on its path. -/
theorem insert (hp : Probed N home key slot n) {k m : ℕ} (hm : m < N)
    (hfree : slot (probeAt N (home k) m) = 0)
    (hbefore : ∀ e < m, slot (probeAt N (home k) e) ≠ 0) :
    Probed N home (Function.update key (n + 1) k)
      (Function.update slot (probeAt N (home k) m) (n + 1)) (n + 1) := by
  have hN : 0 < N := Nat.lt_of_le_of_lt (Nat.zero_le m) hm
  constructor
  · intro j hj
    by_cases hjm : j = probeAt N (home k) m
    · rw [hjm, Function.update_self]
    · rw [Function.update_of_ne hjm]
      exact Nat.le_succ_of_le (hp.le j hj)
  · intro j hj j' hj'
    by_cases h1 : j = probeAt N (home k) m <;> by_cases h2 : j' = probeAt N (home k) m
    · exact fun _ _ => h1.trans h2.symm
    · rw [h1, Function.update_self, Function.update_of_ne h2]
      have := hp.le j' hj'
      omega
    · rw [h2, Function.update_self, Function.update_of_ne h1]
      have := hp.le j hj
      omega
    · rw [Function.update_of_ne h1, Function.update_of_ne h2]
      exact hp.inj j hj j' hj'
  · intro i h0 h1
    by_cases hi : i = n + 1
    · subst hi
      rw [Function.update_self]
      refine ⟨m, hm, Function.update_self .., fun e he => ?_⟩
      have hne : probeAt N (home k) e ≠ probeAt N (home k) m :=
        fun hc => Nat.ne_of_lt he (probeAt_inj (Nat.lt_trans he hm) hm hc)
      rw [Function.update_of_ne hne]
      have := hp.le _ (probeAt_lt hN (home k) e)
      exact ⟨Nat.pos_of_ne_zero (hbefore e he), by omega⟩
    · obtain ⟨d, hd, h2, h3⟩ := hp.placed i h0 (by omega)
      rw [Function.update_of_ne hi]
      have hne : ∀ e ≤ d, probeAt N (home (key i)) e ≠ probeAt N (home k) m := by
        intro e he hc
        rcases Nat.lt_or_eq_of_le he with he | rfl
        · have := (h3 e he).1
          rw [hc, hfree] at this
          exact Nat.lt_irrefl 0 this
        · rw [hc, hfree] at h2
          omega
      refine ⟨d, hd, ?_, fun e he => ?_⟩
      · rw [Function.update_of_ne (hne d (Nat.le_refl d))]
        exact h2
      · rw [Function.update_of_ne (hne e (Nat.le_of_lt he))]
        exact h3 e he

/-- Every entry of a home lies before the first free slot on the path from there. -/
theorem on_path (hp : Probed N home key slot n) {i m : ℕ} (h0 : 0 < i) (h1 : i ≤ n)
    (hfree : slot (probeAt N (home (key i)) m) = 0) :
    ∃ e < m, e < N ∧ slot (probeAt N (home (key i)) e) = i := by
  obtain ⟨d, hd, h2, h3⟩ := hp.placed i h0 h1
  refine ⟨d, ?_, hd, h2⟩
  by_contra hc
  rcases Nat.lt_or_eq_of_le (Nat.not_lt.mp hc) with h4 | rfl
  · have := (h3 m h4).1
    omega
  · omega

/-- Entries of one key are met in the order of their numbers. -/
theorem ordered (hp : Probed N home key slot n) {i d e : ℕ} (h0 : 0 < i) (h1 : i ≤ n)
    (hd : d < N) (hi : slot (probeAt N (home (key i)) d) = i) (he : e < d) :
    slot (probeAt N (home (key i)) e) < i := by
  have hN : 0 < N := Nat.lt_of_le_of_lt (Nat.zero_le d) hd
  obtain ⟨d', hd', h2, h3⟩ := hp.placed i h0 h1
  have h4 : d' = d := probeAt_inj hd' hd
    (hp.inj _ (probeAt_lt hN _ _) _ (probeAt_lt hN _ _) (h2.trans hi.symm) (by omega))
  subst h4
  exact (h3 e he).2

end Probed

end Sqlite.Foundation
