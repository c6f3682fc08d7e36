import Sqlite.Func.Matches

/-! The sets of a pattern, against their members. -/
namespace Sqlite.Func

open Utf

variable {pInfo : compareInfo} {esc c prior_c : ℕ} {zPattern zString z0 z2 z zRest : List UInt8}
  {seen : Bool} {body rest : List ℕ}

theorem head_ascii {x : UInt8} (hx : x.toNat < 0x80) (h0 : x ≠ 0) :
    z.head? = some x ↔ (codesOf z).head? = some x.toNat := by
  cases z with
  | nil => simp [codesOf]
  | cons b z =>
    rw [codesOf]
    split
    · rename_i hb
      subst hb
      simpa using h0.symm
    · rw [List.head?_cons, List.head?_cons, Option.some.injEq, Option.some.injEq,
        sqlite3Utf8Read_ascii hx, UInt8.toNat_inj]

/-- A set that ends. -/
theorem setLoop_some (c prior_c : ℕ) (seen : Bool)
    (hp : codesOf zPattern = body ++ ']'.toNat :: rest) (hb : ']'.toNat ∉ body) :
    ∃ seen' z, setLoop c zPattern prior_c seen = some (seen', z) ∧ codesOf z = rest ∧
      (seen' = true ↔ seen = true ∨ From c prior_c body) := by
  induction zPattern, prior_c, seen using setLoop.induct c generalizing body with
  | case1 prior_c seen =>
    rw [codesOf] at hp
    simp at hp
  | case2 b zPattern prior_c seen r =>
    rename_i h0
    rw [codesOf_eq_nil_iff.mpr (read_eq_zero_iff.mp h0)] at hp
    simp at hp
  | case3 b zPattern prior_c seen r =>
    rename_i h0 hend
    rw [codesOf_cons h0] at hp
    cases body with
    | nil =>
      refine ⟨seen, r.2, by rw [setLoop, if_neg h0, if_pos hend], (List.cons.inj hp).2, ?_⟩
      simp [From, members]
    | cons x body => exact absurd ((List.cons.inj hp).1.symm.trans hend) (by rintro rfl; simp at hb)
  | case4 b zPattern prior_c seen r =>
    rename_i h0 hend hrange r2 ih
    obtain ⟨hdash, hhead, hgoes, hprior⟩ := hrange
    have hr2 : codesOf r.2 = r2.1 :: codesOf r2.2 := codesOf_cons fun h => hgoes (read_eq_zero_iff.mp h)
    have hy : r2.1 ≠ ']'.toNat := fun hy => hhead ((head_ascii (by decide) (by decide)).mpr
      (by rw [hr2, List.head?_cons, hy]; rfl))
    rw [codesOf_cons h0] at hp
    cases body with
    | nil => exact absurd (List.cons.inj hp).1 hend
    | cons x body =>
    cases body with
    | nil =>
      rw [hr2] at hp
      exact absurd (List.cons.inj (List.cons.inj hp).2).1 hy
    | cons y body =>
      have hxx : r.1 = x := (List.cons.inj hp).1
      have hp' := (List.cons.inj hp).2
      rw [hr2] at hp'
      obtain ⟨hyy, hp''⟩ := List.cons.inj hp'
      have hb' : ']'.toNat ∉ body := fun hmem =>
        hb (List.mem_cons_of_mem _ (List.mem_cons_of_mem _ hmem))
      obtain ⟨seen', z, heq, hz, hseen⟩ := ih hp'' hb'
      refine ⟨seen', z, ?_, hz, ?_⟩
      · rw [setLoop, if_neg h0, if_neg hend, if_pos ⟨hdash, hhead, hgoes, hprior⟩, heq]
      · rw [hseen, from_zero, From, if_pos ⟨hxx ▸ hdash, hprior⟩, ← or_assoc, Bool.or_eq_true,
          decide_eq_true_eq, hyy]
  | case5 b zPattern prior_c seen r =>
    rename_i h0 hend hrange ih
    rw [codesOf_cons h0] at hp
    cases body with
    | nil => exact absurd (List.cons.inj hp).1 hend
    | cons x body =>
      have hx : r.1 = x := (List.cons.inj hp).1
      have hp' : codesOf r.2 = body ++ ']'.toNat :: rest := (List.cons.inj hp).2
      obtain ⟨seen', z, heq, hz, hseen⟩ := ih hp' fun hmem => hb (List.mem_cons_of_mem _ hmem)
      refine ⟨seen', z, by rw [setLoop, if_neg h0, if_neg hend, if_neg hrange, heq], hz, ?_⟩
      have hplain : x = '-'.toNat → prior_c > 0 → body = [] := by
        intro hdash hprior
        by_contra hne
        obtain ⟨y, body', rfl⟩ := List.exists_cons_of_ne_nil hne
        refine hrange ⟨hx.trans hdash, fun hhead => ?_, fun hend => ?_, hprior⟩
        · rw [head_ascii (by decide) (by decide), hp', List.cons_append, List.head?_cons] at hhead
          have hy : y = ']'.toNat := Option.some.inj hhead
          simp [hy] at hb
        · rw [hend.codesOf] at hp'
          cases hp'
      rw [hseen, from_plain hplain, from_cons (Nat.pos_of_ne_zero (hx ▸ h0)), ← or_assoc, Bool.or_eq_true,
        decide_eq_true_eq, hx]

/-- A set that does not. -/
theorem setLoop_none (hp : ']'.toNat ∉ codesOf zPattern) :
    setLoop c zPattern prior_c seen = none := by
  induction zPattern, prior_c, seen using setLoop.induct c with
  | case1 => rw [setLoop]
  | case2 b zPattern prior_c seen r h0 => rw [setLoop, if_pos h0]
  | case3 b zPattern prior_c seen r h0 hend =>
    rw [codesOf_cons h0, List.mem_cons, not_or] at hp
    exact absurd hend.symm hp.1
  | case4 b zPattern prior_c seen r h0 hend hrange r2 ih =>
    have hr2 : codesOf r.2 = r2.1 :: codesOf r2.2 :=
      codesOf_cons fun h => hrange.2.2.1 (read_eq_zero_iff.mp h)
    rw [codesOf_cons h0] at hp
    rw [setLoop, if_neg h0, if_neg hend, if_pos hrange]
    apply ih
    intro hmem
    apply hp
    rw [List.mem_cons, hr2]
    exact .inr (List.mem_cons_of_mem _ hmem)
  | case5 b zPattern prior_c seen r h0 hend hrange ih =>
    rw [codesOf_cons h0] at hp
    rw [setLoop, if_neg h0, if_neg hend, if_neg hrange]
    exact ih fun hmem => hp (List.mem_cons_of_mem _ hmem)

theorem setBody_some {ms : List Member} (c : ℕ) (h : Body body ms)
    (hp : codesOf zPattern = body ++ ']'.toNat :: rest) :
    ∃ seen z, setBody c zPattern = some (seen, z) ∧ codesOf z = rest ∧
      (seen = true ↔ ∃ m ∈ ms, m.Has c) := by
  cases h with
  | lead hb =>
    obtain ⟨hx, hp'⟩ := codesOf_head hp
    obtain ⟨seen, z, heq, hz, hseen⟩ := setLoop_some c 0
      (decide (c = ']'.toNat)) hp' hb
    refine ⟨seen, z, by rw [setBody, if_pos hx, heq], hz, ?_⟩
    rw [hseen, from_zero, List.exists_mem_cons_iff, decide_eq_true_eq, Member.Has]
  | plain hb hne =>
    obtain ⟨y, body', rfl⟩ := List.exists_cons_of_ne_nil hne
    have hx : (sqlite3Utf8Read zPattern).1 ≠ ']'.toNat := fun hx => hb (by
      rw [← (codesOf_head hp).1.symm.trans hx]
      exact List.mem_cons_self)
    obtain ⟨seen, z, heq, hz, hseen⟩ := setLoop_some c 0 false hp hb
    refine ⟨seen, z, by rw [setBody, if_neg hx, heq], hz, ?_⟩
    rw [hseen, from_zero]
    simp

theorem setBody_none (h : ∀ body ms rest, Body body ms → codesOf zPattern ≠ body ++ ']'.toNat :: rest) :
    setBody c zPattern = none := by
  unfold setBody
  dsimp only
  split
  · rename_i hx
    apply setLoop_none
    intro hmem
    obtain ⟨p, rest, heq, hp⟩ := List.eq_append_cons_of_mem hmem
    refine h _ _ rest (.lead hp) ?_
    rw [codesOf_cons (by rw [hx]; decide), hx, heq]
    rfl
  · rename_i hx
    apply setLoop_none
    intro hmem
    obtain ⟨p, rest, heq, hp⟩ := List.eq_append_cons_of_mem hmem
    refine h _ _ rest (.plain hp ?_) heq
    rintro rfl
    exact hx (codesOf_head heq).1

/-- A character against a set, when there is one. -/
theorem compareSet_eq {neg : Bool} {ms : List Member} {s : List ℕ}
    (hset : IsSet (codesOf zPattern) neg ms rest) (hs : codesOf zString = c :: s) :
    ∃ z zRest, codesOf z = rest ∧ codesOf zRest = s ∧
      (((∃ m ∈ ms, m.Has c) ↔ neg = false) → compareSet zPattern zString = some (z, zRest)) ∧
      (¬ ((∃ m ∈ ms, m.Has c) ↔ neg = false) → compareSet zPattern zString = none) := by
  obtain ⟨hc, hrest⟩ := codesOf_head hs
  have h0 : c ≠ 0 := codesOf_head_ne hs
  generalize hp : codesOf zPattern = p at hset
  cases hset with
  | pos hbody hhead =>
    rename_i p
    have hx : (sqlite3Utf8Read zPattern).1 ≠ '^'.toNat := by
      obtain ⟨y, p', rfl⟩ := List.exists_cons_of_ne_nil hbody.ne_nil
      rw [(codesOf_head hp).1]
      exact fun hy => hhead (congrArg some hy)
    obtain ⟨seen, z, heq, hz, hseen⟩ := setBody_some c hbody hp
    refine ⟨z, _, hz, hrest, ?_⟩
    simp only [compareSet, hc, if_neg h0, hx, decide_false, Bool.false_eq_true, if_false, heq, ← hseen]
    cases seen <;> simp
  | neg hbody =>
    obtain ⟨hx, hp'⟩ := codesOf_head hp
    obtain ⟨seen, z, heq, hz, hseen⟩ := setBody_some c hbody hp'
    refine ⟨z, _, hz, hrest, ?_⟩
    simp only [compareSet, hc, if_neg h0, hx, decide_true, if_true, heq, ← hseen]
    cases seen <;> simp

/-- Where the code finds a set there is one, and a character to compare. -/
theorem compareSet_some (h : compareSet zPattern zString = some (z, zRest)) :
    (∃ neg ms rest, IsSet (codesOf zPattern) neg ms rest) ∧
      ∃ c, codesOf zString = c :: codesOf (sqlite3Utf8Read zString).2 := by
  unfold compareSet at h
  dsimp only at h
  split at h
  · cases h
  rename_i h0
  refine ⟨?_, _, codesOf_cons h0⟩
  by_contra hno
  have hnone : setBody (sqlite3Utf8Read zString).1 (if decide ((sqlite3Utf8Read zPattern).1 = '^'.toNat) = true
      then (sqlite3Utf8Read zPattern).2 else zPattern) = none := by
    apply setBody_none
    intro body ms rest hbody hp
    apply hno
    split at hp
    · rename_i hx
      have hx' : (sqlite3Utf8Read zPattern).1 = '^'.toNat := of_decide_eq_true hx
      refine ⟨true, ms, rest, ?_⟩
      rw [codesOf_cons (by rw [hx']; decide), hx', hp]
      exact .neg hbody
    · rename_i hx
      refine ⟨false, ms, rest, ?_⟩
      rw [hp]
      apply IsSet.pos hbody
      obtain ⟨y, p', rfl⟩ := List.exists_cons_of_ne_nil hbody.ne_nil
      rw [(codesOf_head hp).1] at hx
      simpa using hx
  rw [hnone] at h
  cases h

end Sqlite.Func
