import Sqlite.Foundation.Probing

/-! Sets of positive numbers in a table with linear probing over `N` slots. A slot holds a value, and
0 when it is free. -/
namespace Sqlite.Foundation

variable {N m h v b : ℕ} {next home slot : ℕ → ℕ} {S : Finset ℕ}

/-- Follow `next` from `h` to a slot that is free or holds `v`, over at most `b` slots. -/
def seek (next slot : ℕ → ℕ) (v : ℕ) : ℕ → ℕ → Option ℕ
  | 0, _ => none
  | b + 1, h => if slot h = 0 ∨ slot h = v then some h else seek next slot v b (next h)

/-- The table holds each value of `S` once, behind slots that are not free. -/
structure Stored (N : ℕ) (home slot : ℕ → ℕ) (S : Finset ℕ) : Prop where
  mem : ∀ v, v ∈ S ↔ v ≠ 0 ∧ ∃ j < N, slot j = v
  inj : ∀ j < N, ∀ j' < N, slot j = slot j' → slot j ≠ 0 → j = j'
  reach : ∀ v ∈ S, ∃ d < N, slot (probeAt N (home v) d) = v ∧
    ∀ e < d, slot (probeAt N (home v) e) ≠ 0

theorem seek_eq (hn : ∀ k < N, next k = (k + 1) % N) (hN : 0 < N)
    (hstop : slot (probeAt N h m) = 0 ∨ slot (probeAt N h m) = v)
    (hgo : ∀ e < m, slot (probeAt N h e) ≠ 0 ∧ slot (probeAt N h e) ≠ v) (hb : m < b) :
    seek next slot v b (h % N) = some (probeAt N h m) := by
  induction m generalizing b h with
  | zero =>
    obtain ⟨b, rfl⟩ := Nat.exists_eq_add_of_lt hb
    rw [Nat.zero_add, seek]
    exact if_pos hstop
  | succ m ih =>
    obtain ⟨b, rfl⟩ := Nat.exists_eq_succ_of_ne_zero (Nat.ne_zero_of_lt hb)
    have h0 : slot (h % N) ≠ 0 ∧ slot (h % N) ≠ v := hgo 0 (Nat.succ_pos m)
    have hnext : next (h % N) = (h + 1) % N := by
      rw [hn _ (Nat.mod_lt _ hN), Nat.mod_add_mod]
    rw [seek, if_neg (not_or.mpr h0), hnext, ← probeAt_succ]
    apply ih
    · rwa [probeAt_succ]
    · intro e he
      rw [probeAt_succ]
      exact hgo _ (Nat.succ_lt_succ he)
    · exact Nat.lt_of_succ_lt_succ hb

namespace Stored

theorem empty (N : ℕ) (home : ℕ → ℕ) : Stored N home (fun _ => 0) ∅ where
  mem v := by
    simp only [Finset.notMem_empty, false_iff]
    rintro ⟨hv, j, -, rfl⟩
    exact hv rfl
  inj j _ j' _ _ h := absurd rfl h
  reach v hv := by simp at hv

theorem ne_zero (hs : Stored N home slot S) (hv : v ∈ S) : v ≠ 0 := ((hs.mem v).mp hv).1

/-- With fewer values than slots, each path meets a free slot. -/
theorem exists_free (hs : Stored N home slot S) (hc : S.card < N) (h : ℕ) :
    ∃ m < N, slot (probeAt N h m) = 0 ∧ ∀ e < m, slot (probeAt N h e) ≠ 0 := by
  have hN : 0 < N := Nat.lt_of_le_of_lt (Nat.zero_le _) hc
  have hfree : ∃ m, m < N ∧ slot (probeAt N h m) = 0 := by
    by_contra hfull
    have hne : ∀ m < N, slot (probeAt N h m) ≠ 0 := fun m hm h0 => hfull ⟨m, hm, h0⟩
    have hle := Finset.card_le_card_of_injOn (s := Finset.range N) (t := S)
      (fun m => slot (probeAt N h m))
      (fun m hm => (hs.mem _).mpr ⟨hne m (Finset.mem_range.mp hm), _, probeAt_lt hN h m, rfl⟩)
      (fun d hd e he heq => probeAt_inj (Finset.mem_range.mp hd) (Finset.mem_range.mp he)
        (hs.inj _ (probeAt_lt hN h d) _ (probeAt_lt hN h e) heq (hne d (Finset.mem_range.mp hd))))
    rw [Finset.card_range] at hle
    omega
  refine ⟨Nat.find hfree, (Nat.find_spec hfree).1, (Nat.find_spec hfree).2, fun e he h0 => ?_⟩
  exact Nat.find_min hfree he ⟨Nat.lt_trans he (Nat.find_spec hfree).1, h0⟩

/-- A new value goes into the first free slot on its path. -/
theorem insert (hs : Stored N home slot S) (hv : v ≠ 0) (hnew : v ∉ S) (hm : m < N)
    (hfree : slot (probeAt N (home v) m) = 0)
    (hbefore : ∀ e < m, slot (probeAt N (home v) e) ≠ 0) :
    Stored N home (Function.update slot (probeAt N (home v) m) v) (Insert.insert v S) := by
  have hN : 0 < N := Nat.lt_of_le_of_lt (Nat.zero_le _) hm
  have hlt := probeAt_lt hN (home v) m
  have hold : ∀ j, slot j ≠ 0 → Function.update slot (probeAt N (home v) m) v j = slot j := by
    intro j hj
    apply Function.update_of_ne
    rintro rfl
    exact hj hfree
  have hnever : ∀ j < N, slot j ≠ v := fun j hj hjv => hnew ((hs.mem v).mpr ⟨hv, j, hj, hjv⟩)
  constructor
  · intro w
    rw [Finset.mem_insert]
    constructor
    · rintro (rfl | hw)
      · exact ⟨hv, _, hlt, Function.update_self _ _ _⟩
      · obtain ⟨h0, j, hj, rfl⟩ := (hs.mem w).mp hw
        exact ⟨h0, j, hj, hold j h0⟩
    · rintro ⟨h0, j, hj, hjw⟩
      by_cases heq : j = probeAt N (home v) m
      · rw [heq, Function.update_self] at hjw
        exact Or.inl hjw.symm
      · rw [Function.update_of_ne heq] at hjw
        exact Or.inr ((hs.mem w).mpr ⟨h0, j, hj, hjw⟩)
  · intro j hj j' hj'
    by_cases h1 : j = probeAt N (home v) m <;> by_cases h2 : j' = probeAt N (home v) m
    · exact fun _ _ => h1.trans h2.symm
    · rw [h1, Function.update_self, Function.update_of_ne h2]
      exact fun heq _ => absurd heq.symm (hnever j' hj')
    · rw [h2, Function.update_self, Function.update_of_ne h1]
      exact fun heq _ => absurd heq (hnever j hj)
    · rw [Function.update_of_ne h1, Function.update_of_ne h2]
      exact hs.inj j hj j' hj'
  · intro w hw
    rcases Finset.mem_insert.mp hw with rfl | hw
    · refine ⟨m, hm, Function.update_self _ _ _, fun e he => ?_⟩
      rw [hold _ (hbefore e he)]
      exact hbefore e he
    · obtain ⟨d, hd, hdw, hdb⟩ := hs.reach w hw
      have h0 := hs.ne_zero hw
      refine ⟨d, hd, ?_, fun e he => ?_⟩
      · rw [hold _ (by rwa [hdw]), hdw]
      · rw [hold _ (hdb e he)]
        exact hdb e he

/-- A value that is stored lies before the first free slot on its path. -/
theorem found (hs : Stored N home slot S) (hv : v ∈ S) (hfree : slot (probeAt N (home v) m) = 0) :
    ∃ d < m, slot (probeAt N (home v) d) = v ∧
      ∀ e < d, slot (probeAt N (home v) e) ≠ 0 ∧ slot (probeAt N (home v) e) ≠ v := by
  have h0 := hs.ne_zero hv
  obtain ⟨d, hd, hdv, hdb⟩ := hs.reach v hv
  have hN : 0 < N := Nat.lt_of_le_of_lt (Nat.zero_le _) hd
  refine ⟨d, ?_, hdv, fun e he => ⟨hdb e he, fun hev => ?_⟩⟩
  · by_contra hge
    rcases Nat.lt_or_eq_of_le (not_lt.mp hge) with hlt | rfl
    · exact hdb m hlt hfree
    · exact h0 (hdv.symm.trans hfree)
  · have heq := hs.inj _ (probeAt_lt hN _ e) _ (probeAt_lt hN _ d) (hev.trans hdv.symm) (hdb e he)
    exact (ne_of_lt he) (probeAt_inj (Nat.lt_trans he hd) hd heq)

/-- The search ends at the value, or at the slot where it can be added. -/
theorem seek_spec (hs : Stored N home slot S) (hn : ∀ k < N, next k = (k + 1) % N)
    (hhome : home v < N) (hv : v ≠ 0) (hc : S.card < N) :
    ∃ k < N, seek next slot v N (home v) = some k ∧ (v ∈ S → slot k = v) ∧
      (v ∉ S → slot k = 0 ∧ Stored N home (Function.update slot k v) (Insert.insert v S)) := by
  have hN : 0 < N := Nat.lt_of_le_of_lt (Nat.zero_le _) hc
  obtain ⟨m, hm, hfree, hbefore⟩ := hs.exists_free hc (home v)
  have hmod := Nat.mod_eq_of_lt hhome
  by_cases hvS : v ∈ S
  · obtain ⟨d, hd, hdv, hdb⟩ := hs.found hvS hfree
    have hseek := seek_eq (b := N) hn hN (Or.inr hdv) hdb (Nat.lt_trans hd hm)
    rw [hmod] at hseek
    exact ⟨_, probeAt_lt hN _ _, hseek, fun _ => hdv, fun hc => absurd hvS hc⟩
  · have hnever : ∀ e, slot (probeAt N (home v) e) ≠ v := fun e he =>
      hvS ((hs.mem v).mpr ⟨hv, _, probeAt_lt hN _ e, he⟩)
    have hseek := seek_eq (b := N) hn hN (Or.inl hfree) (fun e he => ⟨hbefore e he, hnever e⟩) hm
    rw [hmod] at hseek
    exact ⟨_, probeAt_lt hN _ _, hseek, fun hc => absurd hc hvS,
      fun _ => ⟨hfree, hs.insert hv hvS hm hfree hbefore⟩⟩

/-- The search for a free slot alone. -/
theorem seek_zero_spec (hs : Stored N home slot S) (hn : ∀ k < N, next k = (k + 1) % N)
    (hhome : home v < N) (hv : v ≠ 0) (hnew : v ∉ S) (hc : S.card < N) :
    ∃ k < N, seek next slot 0 N (home v) = some k ∧
      Stored N home (Function.update slot k v) (Insert.insert v S) := by
  have hN : 0 < N := Nat.lt_of_le_of_lt (Nat.zero_le _) hc
  obtain ⟨m, hm, hfree, hbefore⟩ := hs.exists_free hc (home v)
  have hseek := seek_eq (b := N) hn hN (Or.inl hfree) (fun e he => ⟨hbefore e he, hbefore e he⟩) hm
  rw [Nat.mod_eq_of_lt hhome] at hseek
  exact ⟨_, probeAt_lt hN _ _, hseek, hs.insert hv hnew hm hfree hbefore⟩

end Stored

end Sqlite.Foundation
