import Sqlite.Freelist.Free

/-! What the search for a page takes off the list. -/
namespace Sqlite.Freelist
section
variable {leaf : ℕ → ℕ} {nearby : ℕ}

def distance (leaf : ℕ → ℕ) (nearby i : ℕ) : ℕ := sqlite3AbsInt32 ((leaf i : ℤ) - nearby)

/-- The loop keeps the first entry with the least distance. -/
theorem closestLoop_spec {n i closest : ℕ} (hc : closest < i)
    (hmin : ∀ j < i, distance leaf nearby closest ≤ distance leaf nearby j) :
    closestLoop leaf nearby n i closest (distance leaf nearby closest) < i + n ∧
      ∀ j < i + n, distance leaf nearby
        (closestLoop leaf nearby n i closest (distance leaf nearby closest)) ≤
          distance leaf nearby j := by
  induction n generalizing i closest with
  | zero => exact ⟨hc, hmin⟩
  | succ n ih =>
    have hstep : closestLoop leaf nearby (n + 1) i closest (distance leaf nearby closest) =
        if distance leaf nearby i < distance leaf nearby closest then
          closestLoop leaf nearby n (i + 1) i (distance leaf nearby i)
        else closestLoop leaf nearby n (i + 1) closest (distance leaf nearby closest) := rfl
    have hsum : i + (n + 1) = i + 1 + n := by omega
    rw [hstep, hsum]
    by_cases hlt : distance leaf nearby i < distance leaf nearby closest
    · rw [if_pos hlt]
      refine ih (Nat.lt_succ_self i) fun j hj => ?_
      rcases Nat.lt_succ_iff_lt_or_eq.mp hj with hj | rfl
      · exact hlt.le.trans (hmin j hj)
      · exact le_rfl
    · rw [if_neg hlt]
      refine ih (by omega) fun j hj => ?_
      rcases Nat.lt_succ_iff_lt_or_eq.mp hj with hj | rfl
      · exact hmin j hj
      · exact not_lt.mp hlt

theorem sqlite3AbsInt32_eq_zero {a b : ℕ} (ha : a < 2 ^ 32) (hb : b < 2 ^ 32) :
    sqlite3AbsInt32 ((a : ℤ) - b) = 0 ↔ a = b := by
  have hmod : Int.bmod ((a : ℤ) - b) (2 ^ 32) = 0 ↔ ((a : ℤ) - b) % 2 ^ 32 = 0 := by
    unfold Int.bmod
    dsimp only
    split_ifs <;> omega
  have heq : ((a : ℤ) - b) % 2 ^ 32 = 0 ↔ a = b := by omega
  rw [← heq, ← hmod]
  unfold sqlite3AbsInt32
  dsimp only
  generalize Int.bmod ((a : ℤ) - b) (2 ^ 32) = y
  split_ifs with hmin
  · simp [hmin]
  · exact Int.natAbs_eq_zero

/-- The loop as it is started. -/
theorem closestLoop_start (leaf : ℕ → ℕ) (nearby k : ℕ) :
    closestLoop leaf nearby (k - 1) 1 0 (distance leaf nearby 0) < 1 + (k - 1) ∧
      ∀ j < 1 + (k - 1), distance leaf nearby
        (closestLoop leaf nearby (k - 1) 1 0 (distance leaf nearby 0)) ≤ distance leaf nearby j :=
  closestLoop_spec Nat.one_pos fun j hj => by simp [Nat.lt_one_iff.mp hj]

theorem closestLeaf_lt (leaf : ℕ → ℕ) (nearby : ℕ) {k : ℕ} (hk : 0 < k) :
    closestLeaf leaf k nearby < k := by
  unfold closestLeaf
  split_ifs
  · have hlt := (closestLoop_start leaf nearby k).1
    rw [distance] at hlt
    omega
  · exact hk

/-- The leaf that is looked for is its own nearest one. -/
theorem closestLeaf_nearby {k i : ℕ} (hleaf : ∀ i, leaf i < 2 ^ 32) (hnearby : nearby < 2 ^ 32)
    (hpos : 0 < nearby) (hi : i < k) (heq : leaf i = nearby) :
    leaf (closestLeaf leaf k nearby) = nearby := by
  obtain ⟨-, hmin⟩ := closestLoop_start leaf nearby k
  have hle := hmin i (by omega)
  have hzero : distance leaf nearby i = 0 := (sqlite3AbsInt32_eq_zero (hleaf i) hnearby).mpr heq
  rw [hzero, Nat.le_zero] at hle
  unfold closestLeaf
  rw [if_pos hpos]
  exact (sqlite3AbsInt32_eq_zero (hleaf _) hnearby).mp hle

end

section
variable {c : Config} {s : BtShared} {A B L : Chain} {t : ℕ} {ls : List ℕ}

/-- What the search finds of the list. -/
structure Listed (c : Config) (s : BtShared) (L : Chain) : Prop where
  linked : Seg s.page (link s.page none) L 0
  nodup : (free L).Nodup
  ordinary : ∀ p ∈ free L, Ordinary c s p
  room : ∀ x ∈ L, x.2.length ≤ c.usableSize / 4 - 2
  nPage_le : s.nPage ≤ c.mxPgno

/-- The page `p` is taken off the list `L`, and `L2` is left. -/
structure Took (s : BtShared) (L : Chain) (p : ℕ) (s2 : BtShared) (L2 : Chain) : Prop where
  nPage : s2.nPage = s.nPage
  perm : (free L).Perm (p :: free L2)
  linked : Seg s2.page (link s2.page none) L2 0
  room : ∀ n, (∀ x ∈ L, x.2.length ≤ n) → ∀ x ∈ L2, x.2.length ≤ n
  count : get4byte s2.page 1 36 = get4byte s.page 1 36
  page : ∀ q, q ≠ 1 → q ∉ free L → s2.page q = s.page q

theorem one_not_mem (h : Listed c s L) : 1 ∉ free L := by
  intro hmem
  have hge := (h.ordinary 1 hmem).ge
  omega

/-- The pages before a trunk, the trunk, its leaves and the pages behind are different ones. -/
structure Apart (A : Chain) (t : ℕ) (ls : List ℕ) (B : Chain) : Prop where
  before : (free A).Nodup
  before_trunk : ∀ q ∈ free A, q ≠ t
  before_leaf : ∀ q ∈ free A, q ∉ ls
  before_behind : ∀ q ∈ free A, q ∉ free B
  trunk_leaf : t ∉ ls
  trunk_behind : t ∉ free B
  leaf_behind : ∀ q ∈ ls, q ∉ free B

theorem apart_of_nodup (h : (free (A ++ (t, ls) :: B)).Nodup) : Apart A t ls B := by
  rw [free_append, free_cons, List.nodup_append] at h
  obtain ⟨hA, hmiddle, hout⟩ := h
  obtain ⟨htls, -, hin⟩ := List.nodup_append.mp hmiddle
  refine ⟨hA, fun q hq e => ?_, fun q hq hq' => ?_, fun q hq hq' => ?_,
    (List.nodup_cons.mp htls).1, fun hq => ?_, fun q hq hq' => ?_⟩
  · exact hout q hq t (by simp) e
  · exact hout q hq q (by simp [hq']) rfl
  · exact hout q hq q (by simp [hq']) rfl
  · exact hin t (by simp) t hq rfl
  · exact hin q (by simp [hq]) q hq' rfl

theorem lastTrunk_mem {u : ℕ} (h : u ∈ lastTrunk A) : u ∈ free A := by
  rcases List.eq_nil_or_concat A with rfl | ⟨A, x, rfl⟩
  · cases h
  · rw [List.concat_eq_append] at h ⊢
    rw [lastTrunk_concat] at h
    obtain rfl := Option.some_inj.mp h
    exact trunk_mem_free (by simp)

theorem mem_free_middle {q : ℕ} :
    q ∈ free (A ++ (t, ls) :: B) ↔ q ∈ free A ∨ q = t ∨ q ∈ ls ∨ q ∈ free B := by
  simp [free_append, free_cons]

/-- Pages that are not in front of a redirected pointer are as before. -/
theorem putLink_outside {p : Pages} {u q : ℕ} (h : q ∉ free A) (hone : q ≠ 1) :
    putLink p (lastTrunk A) u q = p q :=
  putLink_of_ne (fun _ ht e => h (lastTrunk_mem (e ▸ ht))) hone

theorem putLink_count {p : Pages} {u : ℕ} (hone : 1 ∉ free A) :
    get4byte (putLink p (lastTrunk A) u) 1 36 = get4byte p 1 36 := by
  cases hl : lastTrunk A with
  | none => exact get4byte_put4byte_of_ne (by omega)
  | some v => exact get4byte_put4byte_of_page fun e => hone (lastTrunk_mem (e ▸ hl))

/-- A trunk without leaves is taken. -/
theorem Listed.unlink (h : Listed c s (A ++ (t, []) :: B)) :
    Took s (A ++ (t, []) :: B) t
      { s with page := putLink s.page (lastTrunk A) (get4byte s.page t 0) } (A ++ B) := by
  have hone := one_not_mem h
  have hap := apart_of_nodup h.nodup
  simp only [mem_free_middle, not_or] at hone
  obtain ⟨u, hA, -, -, hB⟩ := h.linked.split
  refine ⟨rfl, ?_, (hA.putLink hap.before hone.1 get4byte_lt).append (hB.congr fun x hx => ?_),
    fun n hn x hx => ?_, putLink_count hone.1, fun q h1 hq => ?_⟩
  · rw [free_append, free_append, free_cons]
    exact List.perm_middle
  · have hmem := trunk_mem_free hx
    exact putLink_outside (fun hq => hap.before_behind _ hq hmem) fun e => hone.2.2.2 (e ▸ hmem)
  · rcases List.mem_append.mp hx with hx | hx
    · exact hn x (by simp [hx])
    · exact hn x (by simp [hx])
  · simp only [mem_free_middle, not_or] at hq
    exact putLink_outside hq.1 h1

/-- A trunk with leaves is taken: the first of them takes its place. -/
theorem Listed.promote {l : ℕ} (h : Listed c s (A ++ (t, l :: ls) :: B)) :
    Took s (A ++ (t, l :: ls) :: B) t
      { s with page := putLink (promote s.page t l (ls.length + 1)) (lastTrunk A) l }
      (A ++ (l, ls) :: B) := by
  have hone := one_not_mem h
  have hap := apart_of_nodup h.nodup
  have husable := c.usableSize_le
  have hpage := c.pageSize_le
  have hroom : ls.length + 1 ≤ c.usableSize / 4 - 2 := h.room (t, l :: ls) (by simp)
  have hl : l < 2 ^ 32 := (h.ordinary l (by simp [mem_free_middle])).lt h.nPage_le
  simp only [mem_free_middle, not_or, List.mem_cons] at hone
  obtain ⟨h1A, -, ⟨h1l, h1ls⟩, h1B⟩ := hone
  have hlA : l ∉ free A := fun hq => hap.before_leaf l hq (by simp)
  have hlB : l ∉ free B := hap.leaf_behind l (by simp)
  obtain ⟨u, hA, -, ht, hB⟩ := h.linked.split
  obtain ⟨hnew, hnext⟩ := ht.promote (by omega)
  have hstay : ∀ q, q ≠ l →
      Freelist.promote s.page t l (ls.length + 1) q = s.page q := fun q hq => promote_of_ne hq
  have hlink : link (Freelist.promote s.page t l (ls.length + 1)) none = link s.page none :=
    get4byte_congr (hstay 1 h1l)
  have hA' : Seg (Freelist.promote s.page t l (ls.length + 1))
      (link (Freelist.promote s.page t l (ls.length + 1)) none) A u := by
    rw [hlink]
    exact hA.congr fun x hx => hstay _ fun e => hlA (e ▸ trunk_mem_free hx)
  have hput : putLink (Freelist.promote s.page t l (ls.length + 1)) (lastTrunk A) l l =
      Freelist.promote s.page t l (ls.length + 1) l := putLink_outside hlA (Ne.symm h1l)
  refine ⟨rfl, ?_, (hA'.putLink hap.before h1A hl).append ⟨rfl, hnew.congr hput, ?_⟩,
    fun n hn x hx => ?_, ?_, fun q h1 hq => ?_⟩
  · rw [free_append, free_append, free_cons, free_cons]
    exact List.perm_middle
  · rw [get4byte_congr hput, hnext]
    refine hB.congr fun x hx => ?_
    have hmem := trunk_mem_free hx
    rw [putLink_outside (fun hq => hap.before_behind _ hq hmem) fun e => h1B (e ▸ hmem)]
    exact hstay _ fun e => hlB (e ▸ hmem)
  · rcases List.mem_append.mp hx with hx | hx
    · exact hn x (by simp [hx])
    rcases List.mem_cons.mp hx with rfl | hx
    · have hlen := hn (t, l :: ls) (by simp)
      rw [List.length_cons] at hlen
      exact Nat.le_of_succ_le hlen
    · exact hn x (by simp [hx])
  · rw [putLink_count h1A]
    exact get4byte_congr (hstay 1 h1l)
  · simp only [mem_free_middle, not_or, List.mem_cons] at hq
    exact (putLink_outside hq.1 h1).trans (hstay q hq.2.2.1.1)

theorem length_swapRemove (ls : List ℕ) (i : ℕ) : (swapRemove ls i).length = ls.length - 1 := by
  simp [swapRemove]

/-- A leaf is taken; its page may be cleared. -/
theorem Listed.takeLeaf (h : Listed c s (A ++ (t, ls) :: B)) {i x : ℕ} (hx : ls[i]? = some x)
    {s2 : BtShared} (hn : s2.nPage = s.nPage)
    (hs2 : ∀ q, q ≠ x → s2.page q = Freelist.takeLeaf s.page t i ls.length q) :
    Took s (A ++ (t, ls) :: B) x s2 (A ++ (t, swapRemove ls i) :: B) := by
  have hone := one_not_mem h
  have hap := apart_of_nodup h.nodup
  have husable := c.usableSize_le
  have hpage := c.pageSize_le
  have hroom : ls.length ≤ c.usableSize / 4 - 2 := h.room (t, ls) (by simp)
  have hmem : x ∈ ls := List.mem_of_getElem? hx
  simp only [mem_free_middle, not_or] at hone
  obtain ⟨h1A, h1t, h1ls, h1B⟩ := hone
  have hstay : ∀ q, q ≠ x → q ≠ t → s2.page q = s.page q := fun q hq hqt => by
    rw [hs2 q hq]
    exact takeLeaf_of_ne hqt
  have h1 : s2.page 1 = s.page 1 := hstay 1 (fun e => h1ls (e ▸ hmem)) h1t
  have htx : s2.page t = Freelist.takeLeaf s.page t i ls.length t :=
    hs2 t fun e => hap.trunk_leaf (e ▸ hmem)
  have hlink : link s2.page none = link s.page none := get4byte_congr h1
  obtain ⟨u, hA, hu, ht, hB⟩ := h.linked.split
  have hA' : Seg s2.page (link s2.page none) A u := by
    rw [hlink]
    refine hA.congr fun y hy => ?_
    have hyA := trunk_mem_free hy
    exact hstay _ (fun e => hap.before_leaf _ hyA (e ▸ hmem)) (hap.before_trunk _ hyA)
  refine ⟨hn, ?_, hA'.append ⟨hu, (ht.takeLeaf hx (by omega)).congr htx, ?_⟩, fun n hn y hy => ?_,
    get4byte_congr h1, fun q _ hq => ?_⟩
  · rw [free_append, free_append, free_cons, free_cons]
    have htail : (t :: ls ++ free B).Perm (x :: (t :: swapRemove ls i ++ free B)) :=
      (((perm_swapRemove hx).cons t).trans (List.Perm.swap x t _)).append_right (free B)
    exact (htail.append_left (free A)).trans List.perm_middle
  · rw [get4byte_congr htx, takeLeaf_link]
    refine hB.congr fun y hy => ?_
    have hyB := trunk_mem_free hy
    exact hstay _ (fun e => hap.leaf_behind _ hmem (e ▸ hyB)) fun e => hap.trunk_behind (e ▸ hyB)
  · rcases List.mem_append.mp hy with hy | hy
    · exact hn y (by simp [hy])
    rcases List.mem_cons.mp hy with rfl | hy
    · have hlen := hn (t, ls) (by simp)
      rw [length_swapRemove]
      exact (Nat.sub_le _ _).trans hlen
    · exact hn y (by simp [hy])
  · simp only [mem_free_middle, not_or] at hq
    exact hstay q (fun e => hq.2.2.1 (e ▸ hmem)) hq.2.1

end

end Sqlite.Freelist
