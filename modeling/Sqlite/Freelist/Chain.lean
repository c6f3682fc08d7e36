import Mathlib.Data.List.Perm.Subperm
import Sqlite.Freelist.Model

/-! The chain of trunks as a list, and what writes to single pages do to it. -/
namespace Sqlite.Freelist
open Sqlite.Foundation

/-- Trunks in order, each with its leaves. -/
abbrev Chain := List (ℕ × List ℕ)

/-- All pages of a chain. -/
def free (L : Chain) : List ℕ := L.flatMap fun x => x.1 :: x.2

/-- A trunk page says what its leaves are. -/
structure TrunkIs (p : Pages) (t : ℕ) (ls : List ℕ) : Prop where
  count : get4byte p t 4 = ls.length
  leaf : ∀ i x, ls[i]? = some x → leafAt p t i = x

/-- From the trunk `v` the trunks of `L` lead to `w`. -/
def Seg (p : Pages) : ℕ → Chain → ℕ → Prop
  | v, [], w => v = w
  | v, (t, ls) :: L, w => v = t ∧ TrunkIs p t ls ∧ Seg p (get4byte p t 0) L w

/-- Where the pointer behind a trunk, or on page 1, leads to. -/
def link (p : Pages) : Option ℕ → ℕ
  | none => get4byte p 1 32
  | some t => get4byte p t 0

/-- The last trunk. -/
def lastTrunk (A : Chain) : Option ℕ := A.getLast?.map Prod.fst

section
variable {p p' : Pages} {q q' a b v : ℕ}

theorem put4byte_of_ne (h : q' ≠ q) : put4byte p q a v q' = p q' := by
  simp [put4byte, h]

theorem get4byte_congr (h : p' q = p q) : get4byte p' q a = get4byte p q a := by
  simp only [get4byte, h]

theorem get4byte_put4byte (h : v < 2 ^ 32) : get4byte (put4byte p q a v) q a = v := by
  simp only [get4byte, put4byte, Function.update_self]
  exact getBE_putBE_self h

theorem get4byte_put4byte_of_ne (h : b + 4 ≤ a ∨ a + 4 ≤ b) :
    get4byte (put4byte p q a v) q b = get4byte p q b := by
  simp only [get4byte, put4byte, Function.update_self]
  exact getBE_putBE_of_ne h

theorem get4byte_put4byte_of_page (h : q' ≠ q) :
    get4byte (put4byte p q a v) q' b = get4byte p q' b :=
  get4byte_congr (put4byte_of_ne h)

theorem get4byte_lt : get4byte p q a < 2 ^ 32 := getBE_lt _ _

theorem leafAt_congr {i : ℕ} (h : p' q = p q) : leafAt p' q i = leafAt p q i := get4byte_congr h

theorem free_append (A B : Chain) : free (A ++ B) = free A ++ free B := by
  simp [free]

theorem free_cons (x : ℕ × List ℕ) (L : Chain) : free (x :: L) = x.1 :: x.2 ++ free L := by
  simp [free]

theorem trunk_mem_free {x : ℕ × List ℕ} {L : Chain} (h : x ∈ L) : x.1 ∈ free L :=
  List.mem_flatMap.mpr ⟨x, h, List.mem_cons_self⟩

end

section
variable {p p' : Pages} {t : ℕ} {ls : List ℕ}

theorem TrunkIs.congr (h : TrunkIs p t ls) (hp : p' t = p t) : TrunkIs p' t ls where
  count := (get4byte_congr hp).trans h.count
  leaf i x hx := (leafAt_congr hp).trans (h.leaf i x hx)

/-- A new link leaves the entries alone. -/
theorem TrunkIs.putLink (h : TrunkIs p t ls) (v : ℕ) : TrunkIs (put4byte p t 0 v) t ls where
  count := (get4byte_put4byte_of_ne (by omega)).trans h.count
  leaf i x hx := (get4byte_put4byte_of_ne (by omega)).trans (h.leaf i x hx)

/-- One more leaf behind the others. -/
theorem TrunkIs.append (h : TrunkIs p t ls) {l : ℕ} (hl : l < 2 ^ 32) (hlen : ls.length + 1 < 2 ^ 32) :
    TrunkIs (put4byte (put4byte p t 4 (ls.length + 1)) t (8 + ls.length * 4) l) t (ls ++ [l]) where
  count := by
    rw [get4byte_put4byte_of_ne (by omega), get4byte_put4byte hlen]
    simp
  leaf i x hx := by
    rcases Nat.lt_or_ge i ls.length with hi | hi
    · rw [List.getElem?_append_left hi] at hx
      rw [leafAt, get4byte_put4byte_of_ne (by omega), get4byte_put4byte_of_ne (by omega)]
      exact h.leaf i x hx
    · have hlast : i = ls.length := by
        have hlt := (List.getElem?_eq_some_iff.mp hx).1
        simp at hlt
        omega
      subst hlast
      have hx' : l = x := by simpa using hx
      rw [leafAt, get4byte_put4byte hl, hx']

/-- The entry `i` is replaced by the last one, which goes away. -/
def swapRemove (ls : List ℕ) (i : ℕ) : List ℕ := (ls.set i (ls.getLastD 0)).dropLast

theorem swapRemove_last (A : List ℕ) (x : ℕ) : swapRemove (A ++ [x]) A.length = A := by
  simp [swapRemove]

theorem swapRemove_inner (A B : List ℕ) (x y : ℕ) :
    swapRemove (A ++ x :: (B ++ [y])) A.length = A ++ y :: B := by
  have hassoc : A ++ x :: (B ++ [y]) = (A ++ x :: B) ++ [y] := by simp
  have hset : (A ++ x :: (B ++ [y])).set A.length y = (A ++ y :: B) ++ [y] := by simp
  rw [swapRemove, hassoc, List.getLastD_concat, ← hassoc, hset, List.dropLast_concat]

/-- An entry has others before it, and none or some behind it. -/
theorem split_at_entry {i x : ℕ} (h : ls[i]? = some x) :
    ∃ A, A.length = i ∧ (ls = A ++ [x] ∨ ∃ B y, ls = A ++ x :: (B ++ [y])) := by
  obtain ⟨hi, hx⟩ := List.getElem?_eq_some_iff.mp h
  have hsplit : ls = ls.take i ++ x :: ls.drop (i + 1) := by
    rw [← hx, List.getElem_cons_drop, List.take_append_drop]
  refine ⟨ls.take i, by simp; omega, ?_⟩
  rcases List.eq_nil_or_concat (ls.drop (i + 1)) with hnil | ⟨B, y, hB⟩
  · left
    rw [hnil] at hsplit
    exact hsplit
  · right
    rw [hB] at hsplit
    exact ⟨B, y, by simpa using hsplit⟩

/-- Only the entry itself is gone. -/
theorem perm_swapRemove {i x : ℕ} (h : ls[i]? = some x) : ls.Perm (x :: swapRemove ls i) := by
  obtain ⟨A, rfl, rfl | ⟨B, y, rfl⟩⟩ := split_at_entry h
  · rw [swapRemove_last]
    exact List.perm_append_singleton x A
  · rw [swapRemove_inner]
    have hmiddle : (A ++ x :: (B ++ [y])).Perm (x :: (A ++ (B ++ [y]))) := List.perm_middle
    have hlast : (A ++ (B ++ [y])).Perm (A ++ y :: B) :=
      List.Perm.append_left A (List.perm_append_singleton y B)
    exact hmiddle.trans (hlast.cons x)

/-- Taking a leaf away. -/
theorem TrunkIs.takeLeaf (h : TrunkIs p t ls) {i x : ℕ} (hx : ls[i]? = some x)
    (hlen : ls.length < 2 ^ 32) : TrunkIs (takeLeaf p t i ls.length) t (swapRemove ls i) := by
  obtain ⟨A, rfl, rfl | ⟨B, y, rfl⟩⟩ := split_at_entry hx
  · rw [swapRemove_last, Freelist.takeLeaf, if_neg (by simp)]
    constructor
    · rw [get4byte_put4byte (by omega)]
      simp
    · intro j z hz
      have hj := (List.getElem?_eq_some_iff.mp hz).1
      rw [leafAt, get4byte_put4byte_of_ne (by omega)]
      exact h.leaf j z (by rw [List.getElem?_append_left hj, hz])
  · rw [swapRemove_inner, Freelist.takeLeaf, if_pos (by simp)]
    have hlast : get4byte p t (4 + (A ++ x :: (B ++ [y])).length * 4) = y := by
      have hidx : (A ++ x :: (B ++ [y]))[A.length + (B.length + 1)]? = some y := by
        simp
      have hy := h.leaf (A.length + (B.length + 1)) y hidx
      rw [← hy, leafAt]
      congr 1
      simp
      omega
    constructor
    · rw [get4byte_put4byte (by omega)]
      simp
    · intro j z hz
      have hold (hne : j ≠ A.length) : (A ++ x :: (B ++ [y]))[j]? = some z := by
        have hj := (List.getElem?_eq_some_iff.mp hz).1
        rw [List.getElem?_append] at hz ⊢
        split_ifs at hz ⊢ with hA
        · exact hz
        · obtain ⟨m, hm⟩ : ∃ m, j - A.length = m + 1 := ⟨j - A.length - 1, by omega⟩
          rw [hm, List.getElem?_cons_succ] at hz ⊢
          rw [List.getElem?_append_left (List.getElem?_eq_some_iff.mp hz).1, hz]
      rw [leafAt, get4byte_put4byte_of_ne (by omega)]
      by_cases hj : j = A.length
      · have hzy : y = z := by simpa [hj] using hz
        rw [hj, get4byte_put4byte (hlast ▸ get4byte_lt), hlast, hzy]
      · rw [get4byte_put4byte_of_ne (by omega)]
        exact h.leaf j z (hold hj)

theorem takeLeaf_link (i : ℕ) : get4byte (takeLeaf p t i ls.length) t 0 = get4byte p t 0 := by
  rw [takeLeaf, get4byte_put4byte_of_ne (by omega)]
  split_ifs
  · rw [get4byte_put4byte_of_ne (by omega)]
  · rfl

theorem takeLeaf_of_ne {i k u : ℕ} (h : u ≠ t) : takeLeaf p t i k u = p u := by
  rw [takeLeaf, put4byte_of_ne h]
  split_ifs
  · rw [put4byte_of_ne h]
  · rfl

/-- The first leaf is the trunk of the others, with the same link. -/
theorem TrunkIs.promote {l : ℕ} (h : TrunkIs p t (l :: ls))
    (hlen : ls.length < 2 ^ 32) :
    TrunkIs (promote p t l (ls.length + 1)) l ls ∧
      get4byte (promote p t l (ls.length + 1)) l 0 = get4byte p t 0 := by
  have hlow {a : ℕ} (ha : a + 4 ≤ 8) : get4byte (Freelist.promote p t l (ls.length + 1)) l a =
      get4byte (put4byte (put4byte p l 0 (get4byte p t 0)) l 4 ls.length) l a := by
    simp only [get4byte, Freelist.promote, Function.update_self]
    apply getBE_congr
    intro x _ hx
    rw [if_neg (by omega)]
    rfl
  refine ⟨⟨?_, fun i x hx => ?_⟩, ?_⟩
  · rw [hlow (by omega), get4byte_put4byte hlen]
  · have hi := (List.getElem?_eq_some_iff.mp hx).1
    have hread : get4byte (Freelist.promote p t l (ls.length + 1)) l (8 + i * 4) =
        getBE (fun y => p t (y + 4)) (8 + i * 4) := by
      simp only [get4byte, Freelist.promote, Function.update_self]
      apply getBE_congr
      intro y hy hy'
      rw [if_pos (by omega)]
    have hshift : getBE (fun y => p t (y + 4)) (8 + i * 4) = leafAt p t (i + 1) := by
      have haddr : 8 + (i + 1) * 4 = 8 + i * 4 + 4 := by omega
      rw [leafAt, get4byte, haddr]
      simp only [getBE, Nat.add_right_comm]
    rw [leafAt, hread, hshift]
    exact h.leaf (i + 1) x (by simpa using hx)
  · rw [hlow (by omega), get4byte_put4byte_of_ne (by omega), get4byte_put4byte get4byte_lt]

theorem promote_of_ne {l k u : ℕ} (h : u ≠ l) : promote p t l k u = p u := by
  simp [promote, h, put4byte_of_ne]

end

section
variable {p p' : Pages} {v w : ℕ} {A B L : Chain}

theorem Seg.congr (h : Seg p v L w) (hp : ∀ x ∈ L, p' x.1 = p x.1) : Seg p' v L w := by
  induction L generalizing v with
  | nil => exact h
  | cons x L ih =>
    obtain ⟨hv, ht, hrest⟩ := h
    have hx := hp x List.mem_cons_self
    refine ⟨hv, ht.congr hx, ?_⟩
    rw [get4byte_congr hx]
    exact ih hrest fun y hy => hp y (List.mem_cons_of_mem _ hy)

theorem Seg.append (hA : Seg p v A w) {u : ℕ} (hB : Seg p w B u) : Seg p v (A ++ B) u := by
  induction A generalizing v with
  | nil =>
    obtain rfl := hA
    exact hB
  | cons x A ih => exact ⟨hA.1, hA.2.1, ih hA.2.2⟩

theorem lastTrunk_concat (A : Chain) (x : ℕ × List ℕ) : lastTrunk (A ++ [x]) = some x.1 := by
  simp [lastTrunk]

theorem Seg.split (h : Seg p v (A ++ B) w) : ∃ u, Seg p v A u ∧ Seg p u B w := by
  induction A generalizing v with
  | nil => exact ⟨v, rfl, h⟩
  | cons x A ih =>
    obtain ⟨u, hA, hB⟩ := ih h.2.2
    exact ⟨u, ⟨h.1, h.2.1, hA⟩, hB⟩

/-- The trunks before end at the pointer that the last of them has. -/
theorem Seg.link_last (h : Seg p (link p none) A w) : link p (lastTrunk A) = w := by
  rcases List.eq_nil_or_concat A with rfl | ⟨A, x, rfl⟩
  · exact h
  · rw [List.concat_eq_append] at h ⊢
    obtain ⟨u, -, -, -, hw⟩ := h.split
    rw [lastTrunk_concat]
    exact hw

theorem free_concat (A : Chain) (x : ℕ × List ℕ) : free (A ++ [x]) = free A ++ (x.1 :: x.2) := by
  simp [free]

/-- A pointer in front of a part of the chain is redirected. -/
theorem Seg.putLink (h : Seg p (link p none) A w) (hnodup : (free A).Nodup) (hone : 1 ∉ free A)
    {u : ℕ} (hu : u < 2 ^ 32) :
    Seg (putLink p (lastTrunk A) u) (link (putLink p (lastTrunk A) u) none) A u := by
  rcases List.eq_nil_or_concat A with rfl | ⟨A, ⟨t, ls⟩, rfl⟩
  · exact get4byte_put4byte hu
  · rw [List.concat_eq_append] at h hnodup hone ⊢
    obtain ⟨m, hA, hm, ht, -⟩ := h.split
    rw [free_concat] at hnodup hone
    have ht1 : (1 : ℕ) ≠ t := fun e => hone (by simp [e])
    have hout : ∀ x ∈ A, x.1 ≠ t := by
      intro x hx e
      have hmem := trunk_mem_free hx
      rw [e] at hmem
      exact (List.nodup_append.mp hnodup).2.2 t hmem t List.mem_cons_self rfl
    rw [lastTrunk_concat]
    simp only [Freelist.putLink]
    have hlink : link (put4byte p t 0 u) none = link p none := get4byte_put4byte_of_page ht1
    rw [hlink]
    refine (hA.congr fun x hx => put4byte_of_ne (hout x hx)).append ⟨hm, ht.putLink u, ?_⟩
    exact get4byte_put4byte hu

theorem putLink_of_ne {u q : ℕ} (h : ∀ t ∈ lastTrunk A, q ≠ t) (hone : q ≠ 1) :
    putLink p (lastTrunk A) u q = p q := by
  cases hl : lastTrunk A with
  | none => exact put4byte_of_ne hone
  | some t => exact put4byte_of_ne (h t hl)

end

end Sqlite.Freelist
