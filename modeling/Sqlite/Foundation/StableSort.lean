import Mathlib

/-! Stable sorts: the merge of two lists, the choice of the least head of several lists, and a tournament tree
that makes this choice. -/
namespace Sqlite.Foundation

section Definitions

variable {α : Type*} (K : α → Prop) (le : α → α → Bool)

/-- A total preorder of the elements of `K`. -/
structure TotalOn : Prop where
  total : ∀ a b, K a → K b → le a b ∨ le b a
  trans : ∀ a b c, K a → K b → K c → le a b → le b c → le a c

/-- The elements that are as great as `a`. -/
def sameAs (a b : α) : Bool := le a b && le b a

/-- The elements of `l` in ascending order, equal ones in the order of `l`. -/
structure StableSort (l out : List α) : Prop where
  perm : out.Perm l
  sorted : out.Pairwise fun a b => le a b
  stable : ∀ a, K a → out.filter (sameAs le a) = l.filter (sameAs le a)

/-- `w` has the least of the heads in `[lo, hi)`, and is the first one to have it. -/
structure LeastHead (head : ℕ → Option α) (lo hi w : ℕ) : Prop where
  low : lo ≤ w
  high : w < hi
  none : head w = none → ∀ j, lo ≤ j → j < hi → head j = none
  before : ∀ x, head w = some x → ∀ j, lo ≤ j → j < w → ∀ y, head j = some y → ¬le y x
  after : ∀ x, head w = some x → ∀ j, w < j → j < hi → ∀ y, head j = some y → le x y

/-- The player with the lesser head, the first one if they are equal. A player without a head loses. -/
def play (head : ℕ → Option α) (a b : ℕ) : ℕ :=
  match head a, head b with
  | none, _ => b
  | some _, none => a
  | some x, some y => if le x y then a else b

/-- The winner below node `i`, `h` levels above the leaves. The leaf of player `j` is the node `N + j`. -/
def champion (head : ℕ → Option α) (N : ℕ) : ℕ → ℕ → ℕ
  | 0, i => i - N
  | h + 1, i => play le head (champion head N h (2 * i)) (champion head N h (2 * i + 1))

end Definitions

variable {α : Type*} {K : α → Prop} {le : α → α → Bool} {l l₁ l₂ out out₁ out₂ : List α} {a x y : α}

namespace TotalOn

theorem refl (h : TotalOn K le) (ha : K a) : le a a := (h.total a a ha ha).elim id id

theorem le_of_not (h : TotalOn K le) (hx : K x) (hy : K y) (hn : ¬le x y) : le y x :=
  (h.total x y hx hy).resolve_left hn

theorem not_sameAs (h : TotalOn K le) (ha : K a) (hx : K x) (hy : K y) (hn : ¬le x y)
    (hs : sameAs le a y) : sameAs le a x = false := by
  rw [Bool.eq_false_iff]
  intro hx'
  simp only [sameAs, Bool.and_eq_true] at hs hx'
  exact hn (h.trans x a y hx ha hy hx'.2 hs.1)

end TotalOn

namespace StableSort

theorem nil : StableSort K le [] [] := ⟨.refl _, .nil, fun _ _ => rfl⟩

theorem singleton (x : α) : StableSort K le [x] [x] := ⟨.refl _, List.pairwise_singleton _ _, fun _ _ => rfl⟩

/-- The least element first: those before it are greater, and those behind it are not less. -/
theorem cons (hle : TotalOn K le) (h : StableSort K le (l₁ ++ l₂) out) (hK : ∀ y ∈ x :: (l₁ ++ l₂), K y)
    (h₁ : ∀ y ∈ l₁, ¬le y x) (h₂ : ∀ y ∈ l₂, le x y) : StableSort K le (l₁ ++ x :: l₂) (x :: out) := by
  have hx := hK x List.mem_cons_self
  refine ⟨(h.perm.cons x).trans List.perm_middle.symm, List.pairwise_cons.mpr ⟨fun y hy => ?_, h.sorted⟩,
    fun a ha => ?_⟩
  · have hmem := h.perm.mem_iff.mp hy
    obtain hy | hy := List.mem_append.mp hmem
    · exact hle.le_of_not (hK y (List.mem_cons_of_mem _ hmem)) hx (h₁ y hy)
    · exact h₂ y hy
  · have hrest := h.stable a ha
    rw [List.filter_append] at hrest ⊢
    by_cases hs : sameAs le a x
    · have hnil : l₁.filter (sameAs le a) = [] := List.filter_eq_nil_iff.mpr fun y hy => by
        rw [hle.not_sameAs ha (hK y (by simp [hy])) hx (h₁ y hy) hs]
        exact Bool.false_ne_true
      rw [List.filter_cons_of_pos hs, List.filter_cons_of_pos hs, hrest, hnil, List.nil_append, List.nil_append]
    · rw [List.filter_cons_of_neg hs, List.filter_cons_of_neg hs, hrest]

/-- A stable sort leaves no choice. -/
theorem unique (hle : TotalOn K le) (h₁ : StableSort K le l out₁) (h₂ : StableSort K le l out₂)
    (hK : ∀ y ∈ l, K y) : out₁ = out₂ := by
  induction out₁ generalizing l out₂ with
  | nil => exact (List.perm_nil.mp (h₂.perm.trans h₁.perm.symm)).symm
  | cons x out₁ ih =>
    have hperm := h₁.perm.trans h₂.perm.symm
    obtain _ | ⟨y, out₂⟩ := out₂
    · exact absurd hperm.length_eq (by simp)
    have hKx := hK x (h₁.perm.mem_iff.mp List.mem_cons_self)
    have hKy := hK y (h₂.perm.mem_iff.mp List.mem_cons_self)
    -- each of the heads is least, so both are the first of their class
    have hxy : sameAs le x y := by
      rw [sameAs, Bool.and_eq_true]
      constructor
      · obtain rfl | hm := List.mem_cons.mp (hperm.mem_iff.mpr List.mem_cons_self)
        · exact hle.refl hKx
        · exact List.rel_of_pairwise_cons h₁.sorted hm
      · obtain rfl | hm := List.mem_cons.mp (hperm.mem_iff.mp List.mem_cons_self)
        · exact hle.refl hKx
        · exact List.rel_of_pairwise_cons h₂.sorted hm
    have hxx : sameAs le x x := by rw [sameAs, hle.refl hKx, Bool.true_and]
    have hclass := (h₁.stable x hKx).trans (h₂.stable x hKx).symm
    rw [List.filter_cons_of_pos hxx, List.filter_cons_of_pos hxy] at hclass
    obtain ⟨rfl, -⟩ := List.cons.inj hclass
    have hrest : StableSort K le out₁ out₂ := by
      refine ⟨(hperm.cons_inv).symm, (List.pairwise_cons.mp h₂.sorted).2, fun a ha => ?_⟩
      have heq := (h₁.stable a ha).trans (h₂.stable a ha).symm
      rw [List.filter_cons, List.filter_cons] at heq
      split at heq
      · exact (List.cons.inj heq).2.symm
      · exact heq.symm
    rw [ih ⟨.refl _, (List.pairwise_cons.mp h₁.sorted).2, fun _ _ => rfl⟩ hrest
      fun y hy => hK y (h₁.perm.mem_iff.mp (List.mem_cons_of_mem _ hy))]

theorem merge_aux (hle : TotalOn K le) (h₁ : out₁.Pairwise fun a b => le a b)
    (h₂ : out₂.Pairwise fun a b => le a b) (hK : ∀ y ∈ out₁ ++ out₂, K y) :
    StableSort K le (out₁ ++ out₂) (out₁.merge out₂ le) := by
  induction out₁ generalizing out₂ with
  | nil =>
    rw [List.nil_merge, List.nil_append]
    exact ⟨.refl _, h₂, fun _ _ => rfl⟩
  | cons x out₁ ih₁ =>
    induction out₂ with
    | nil =>
      rw [List.merge_right, List.append_nil]
      exact ⟨.refl _, h₁, fun _ _ => rfl⟩
    | cons y out₂ ih₂ =>
      obtain ⟨hx, h₁'⟩ := List.pairwise_cons.mp h₁
      obtain ⟨hy, h₂'⟩ := List.pairwise_cons.mp h₂
      have hKx := hK x (by simp)
      have hKy := hK y (by simp)
      rw [List.cons_merge_cons]
      split
      · next hxy =>
        have hrest : StableSort K le ([] ++ (out₁ ++ y :: out₂)) (out₁.merge (y :: out₂) le) :=
          ih₁ h₁' h₂ fun z hz => hK z (List.mem_cons_of_mem _ hz)
        refine cons hle hrest hK (by simp) fun z hz => ?_
        obtain hz | hz := List.mem_append.mp hz
        · exact hx z hz
        · obtain rfl | hz' := List.mem_cons.mp hz
          · exact hxy
          · exact hle.trans x y z hKx hKy (hK z (by simp [hz'])) hxy (hy z hz')
      · next hxy =>
        refine cons hle (ih₂ h₂' fun z hz => hK z (by grind)) (fun z hz => hK z (by grind)) (fun z hz hzy => ?_) hy
        obtain rfl | hz' := List.mem_cons.mp hz
        · exact hxy hzy
        · exact hxy (hle.trans x z y hKx (hK z (by simp [hz'])) hKy (hx z hz') hzy)

/-- Only the order within the classes counts. -/
theorem congr (h : StableSort K le l₁ out) (hp : l₁.Perm l₂)
    (hs : ∀ a, K a → l₁.filter (sameAs le a) = l₂.filter (sameAs le a)) : StableSort K le l₂ out :=
  ⟨h.perm.trans hp, h.sorted, fun a ha => (h.stable a ha).trans (hs a ha)⟩

/-- The merge of two lists prefers the first one. -/
theorem merge (hle : TotalOn K le) (h₁ : StableSort K le l₁ out₁) (h₂ : StableSort K le l₂ out₂)
    (hK : ∀ y ∈ l₁ ++ l₂, K y) : StableSort K le (l₁ ++ l₂) (out₁.merge out₂ le) := by
  have hperm := h₁.perm.append h₂.perm
  refine (merge_aux hle h₁.sorted h₂.sorted fun y hy => hK y (hperm.mem_iff.mp hy)).congr hperm fun a ha => ?_
  rw [List.filter_append, List.filter_append, h₁.stable a ha, h₂.stable a ha]

/-- A stable sort of sorted parts is one of the whole. -/
theorem flatten {ls outs : List (List α)} (h : StableSort K le outs.flatten out)
    (hs : List.Forall₂ (StableSort K le) ls outs) : StableSort K le ls.flatten out := by
  have key : outs.flatten.Perm ls.flatten ∧
      ∀ a, K a → outs.flatten.filter (sameAs le a) = ls.flatten.filter (sameAs le a) := by
    clear h
    induction hs with
    | nil => exact ⟨.refl _, fun _ _ => rfl⟩
    | cons h _ ih =>
      simp only [List.flatten_cons, List.filter_append]
      exact ⟨h.perm.append ih.1, fun a ha => by rw [h.stable a ha, ih.2 a ha]⟩
  exact h.congr key.1 key.2

end StableSort

/-! The tournament. -/

section Tournament

variable {head head' : ℕ → Option α} {N h i j lo mid hi w v k m : ℕ}

theorem play_none (hv : head v = none) : play le head v w = w := by
  unfold play
  rw [hv]

theorem play_some (hv : head v = some x) (hw : head w = none) : play le head v w = v := by
  unfold play
  rw [hv, hw]

theorem play_le (hv : head v = some x) (hw : head w = some y) :
    play le head v w = if le x y then v else w := by
  unfold play
  rw [hv, hw]

/-- The lesser of the least heads of neighbouring ranges. -/
theorem LeastHead.play (hle : TotalOn K le) (hK : ∀ j x, head j = some x → K x)
    (hv : LeastHead le head lo mid v) (hw : LeastHead le head mid hi w) :
    LeastHead le head lo hi (play le head v w) := by
  have hlow := hv.low
  have hhigh := hv.high
  have hlow' := hw.low
  have hhigh' := hw.high
  cases hx : head v with
  | none =>
    rw [play_none hx]
    refine ⟨by omega, by omega, fun h j hj hj' => ?_, fun y hy j hj hj' z hz => ?_, fun y hy j hj hj' => ?_⟩
    · obtain hlt | hge := lt_or_ge j mid
      · exact hv.none hx j hj hlt
      · exact hw.none h j hge hj'
    · obtain hlt | hge := lt_or_ge j mid
      · rw [hv.none hx j hj hlt] at hz
        cases hz
      · exact hw.before y hy j hge hj' z hz
    · exact hw.after y hy j hj hj'
  | some x =>
    cases hy : head w with
    | none =>
      rw [play_some hx hy]
      refine ⟨by omega, by omega, fun h => ?_, hv.before, fun x' hx' j hj hj' z hz => ?_⟩
      · rw [hx] at h
        cases h
      · obtain hlt | hge := lt_or_ge j mid
        · exact hv.after x' hx' j hj hlt z hz
        · rw [hw.none hy j hge hj'] at hz
          cases hz
    | some y =>
      rw [play_le hx hy]
      have hKx := hK v x hx
      have hKy := hK w y hy
      split
      · next hxy =>
        refine ⟨by omega, by omega, fun h => ?_, hv.before, fun x' hx' j hj hj' z hz => ?_⟩
        · rw [hx] at h
          cases h
        · obtain hlt | hge := lt_or_ge j mid
          · exact hv.after x' hx' j hj hlt z hz
          · obtain rfl := Option.some.inj (hx.symm.trans hx')
            have hKz := hK j z hz
            obtain hlt | rfl | hgt := lt_trichotomy j w
            · exact hle.trans _ y z hKx hKy hKz hxy (hle.le_of_not hKz hKy (hw.before y hy j hge hlt z hz))
            · obtain rfl := Option.some.inj (hy.symm.trans hz)
              exact hxy
            · exact hle.trans _ y z hKx hKy hKz hxy (hw.after y hy j hgt hj' z hz)
      · next hxy =>
        refine ⟨by omega, by omega, fun h => ?_, fun y' hy' j hj hj' z hz => ?_, hw.after⟩
        · rw [hy] at h
          cases h
        · obtain hge | hlt := le_or_gt mid j
          · exact hw.before y' hy' j hge hj' z hz
          · obtain rfl := Option.some.inj (hy.symm.trans hy')
            have hKz := hK j z hz
            intro hzy
            obtain hlt' | rfl | hgt := lt_trichotomy j v
            · exact hv.before x hx j hj hlt' z hz (hle.trans z y x hKz hKy hKx hzy (hle.le_of_not hKx hKy hxy))
            · obtain rfl := Option.some.inj (hx.symm.trans hz)
              exact hxy hzy
            · exact hxy (hle.trans x z y hKx hKz hKy (hv.after x hx j hgt hlt z hz) hzy)

/-- The leaves below a node. -/
theorem champion_least (hle : TotalOn K le) (hK : ∀ j x, head j = some x → K x) (hi : N ≤ i * 2 ^ h) :
    LeastHead le head (i * 2 ^ h - N) ((i + 1) * 2 ^ h - N) (champion le head N h i) := by
  induction h generalizing i with
  | zero =>
    simp only [pow_zero, mul_one] at hi ⊢
    rw [champion]
    refine ⟨by omega, by omega, fun h j hj hj' => ?_, fun x hx j hj hj' => by omega, fun x hx j hj hj' => by omega⟩
    rwa [show j = i - N by omega]
  | succ h ih =>
    have h₁ : 2 * i * 2 ^ h = i * 2 ^ (h + 1) := by ring
    have h₂ : (2 * i + 1 + 1) * 2 ^ h = (i + 1) * 2 ^ (h + 1) := by ring
    have hle' : 2 * i * 2 ^ h ≤ (2 * i + 1) * 2 ^ h := Nat.mul_le_mul_right _ (by omega)
    rw [champion, ← h₁, ← h₂]
    exact (ih (by omega)).play hle hK (ih (by omega))

theorem champion_bounds (le : α → α → Bool) (head : ℕ → Option α) (hi : N ≤ i * 2 ^ h) :
    i * 2 ^ h - N ≤ champion le head N h i ∧ champion le head N h i < (i + 1) * 2 ^ h - N := by
  induction h generalizing i with
  | zero =>
    simp only [pow_zero, mul_one] at hi ⊢
    rw [champion]
    omega
  | succ h ih =>
    have h₁ : 2 * i * 2 ^ h = i * 2 ^ (h + 1) := by ring
    have h₂ : (2 * i + 1 + 1) * 2 ^ h = (i + 1) * 2 ^ (h + 1) := by ring
    have hle' : 2 * i * 2 ^ h ≤ (2 * i + 1) * 2 ^ h := Nat.mul_le_mul_right _ (by omega)
    obtain ⟨hl, hl'⟩ := ih (i := 2 * i) (by omega)
    obtain ⟨hr, hr'⟩ := ih (i := 2 * i + 1) (by omega)
    rw [champion, ← h₁, ← h₂]
    generalize champion le head N h (2 * i) = a at *
    generalize champion le head N h (2 * i + 1) = b at *
    have hcases : play le head a b = a ∨ play le head a b = b := by
      unfold play
      split
      · exact .inr rfl
      · exact .inl rfl
      · split
        · exact .inl rfl
        · exact .inr rfl
    obtain hp | hp := hcases
    · rw [hp]
      omega
    · rw [hp]
      omega

/-- Only the heads of the leaves below a node count. -/
theorem champion_congr (hi : N ≤ i * 2 ^ h)
    (hj : ∀ j, i * 2 ^ h - N ≤ j → j < (i + 1) * 2 ^ h - N → head' j = head j) :
    champion le head' N h i = champion le head N h i := by
  induction h generalizing i with
  | zero => rfl
  | succ h ih =>
    have h₁ : 2 * i * 2 ^ h = i * 2 ^ (h + 1) := by ring
    have h₂ : (2 * i + 1 + 1) * 2 ^ h = (i + 1) * 2 ^ (h + 1) := by ring
    have hle' : 2 * i * 2 ^ h ≤ (2 * i + 1) * 2 ^ h := Nat.mul_le_mul_right _ (by omega)
    rw [← h₁, ← h₂] at hj
    have hl : N ≤ 2 * i * 2 ^ h := by omega
    have hr : N ≤ (2 * i + 1) * 2 ^ h := by omega
    have hr' : (2 * i + 1) * 2 ^ h ≤ (2 * i + 1 + 1) * 2 ^ h := Nat.mul_le_mul_right _ (by omega)
    obtain ⟨ha, ha'⟩ := champion_bounds le head hl
    obtain ⟨hb, hb'⟩ := champion_bounds le head hr
    rw [champion, champion, ih hl fun j h₁ h₂ => hj j h₁ (by omega), ih hr fun j h₁ h₂ => hj j (by omega) h₂]
    unfold play
    rw [hj _ ha (by omega), hj _ (by omega) hb']

/-! The tree in an array: of the nodes below `N` it holds the winners. -/

/-- Node `i` is `h` levels above the leaves. -/
structure Node (N h i : ℕ) : Prop where
  low : N ≤ i * 2 ^ h
  high : (i + 1) * 2 ^ h ≤ 2 * N

def winner (N : ℕ) (aTree : ℕ → ℕ) (i : ℕ) : ℕ := if N ≤ i then i - N else aTree i

variable {aTree : ℕ → ℕ} {P : ℕ → ℕ → Prop}

/-- The nodes of `P` have their winners. -/
def Settled (le : α → α → Bool) (head : ℕ → Option α) (N : ℕ) (aTree : ℕ → ℕ) (P : ℕ → ℕ → Prop) : Prop :=
  ∀ h i, Node N h i → P h i → winner N aTree i = champion le head N h i

theorem Node.lt (h : Node N (m + 1) i) : i < N := by
  have h2 := h.2
  have hpos := Nat.two_pow_pos m
  have hle : (i + 1) * 2 ≤ (i + 1) * 2 ^ (m + 1) := Nat.mul_le_mul_left _ (by rw [pow_succ]; omega)
  omega

theorem winner_leaf (h : Node N 0 i) : winner N aTree i = champion le head N 0 i :=
  if_pos (by have := h.1; omega)

theorem Node.left (h : Node N (m + 1) i) : Node N m (2 * i) := by
  obtain ⟨h₁, h₂⟩ := h
  have e₁ : i * 2 ^ (m + 1) = 2 * i * 2 ^ m := by ring
  have e₂ : (i + 1) * 2 ^ (m + 1) = (2 * i + 1) * 2 ^ m + 2 ^ m := by ring
  rw [e₁] at h₁
  rw [e₂] at h₂
  exact ⟨h₁, (Nat.le_add_right _ _).trans h₂⟩

theorem Node.right (h : Node N (m + 1) i) : Node N m (2 * i + 1) := by
  obtain ⟨h₁, h₂⟩ := h
  have e₁ : (2 * i + 1) * 2 ^ m = i * 2 ^ (m + 1) + 2 ^ m := by ring
  have e₂ : (i + 1) * 2 ^ (m + 1) = (2 * i + 1 + 1) * 2 ^ m := by ring
  refine ⟨?_, by rwa [← e₂]⟩
  rw [e₁]
  exact h₁.trans (Nat.le_add_right _ _)

/-- A node is on one level only. -/
theorem Node.height (h : Node N m i) (h' : Node N k i) : m = k := by
  by_contra hne
  have key : ∀ a b, a < b → Node N a i → Node N b i → False := by
    intro a b hlt ha hb
    have hle : 2 ^ (a + 1) ≤ 2 ^ b := Nat.pow_le_pow_right (by omega) hlt
    have h₁ := Nat.mul_le_mul_left i hle
    have h₂ : i * 2 ^ (a + 1) = 2 * (i * 2 ^ a) := by ring
    have h₃ : (i + 1) * 2 ^ b = i * 2 ^ b + 2 ^ b := by ring
    have h₄ := Nat.two_pow_pos b
    have h₅ := ha.1
    have h₆ := hb.2
    omega
  obtain hlt | hlt := lt_or_gt_of_ne hne
  · exact key m k hlt h h'
  · exact key k m hlt h' h

theorem Node.eq_one (h : Node (2 ^ k) m i) (hm : k ≤ m) : i = 1 ∧ m = k := by
  obtain ⟨h₁, h₂⟩ := h
  have hle : 2 ^ k ≤ 2 ^ m := Nat.pow_le_pow_right (by omega) hm
  have hpos := Nat.two_pow_pos k
  have hi : i = 1 := by
    obtain _ | _ | i := i
    · omega
    · rfl
    · have : 3 * 2 ^ m ≤ (i + 1 + 1 + 1) * 2 ^ m := Nat.mul_le_mul_right _ (by omega)
      omega
  subst hi
  obtain hlt | rfl := Nat.lt_or_eq_of_le hm
  · have : 2 ^ (k + 1) ≤ 2 ^ m := Nat.pow_le_pow_right (by omega) hlt
    rw [pow_succ] at this
    omega
  · exact ⟨rfl, rfl⟩

theorem Node.pos (h : Node (2 ^ k) m i) : 0 < i := by
  refine Nat.pos_of_ne_zero fun h0 => ?_
  have h₁ := h.1
  have hpos := Nat.two_pow_pos k
  rw [h0, Nat.zero_mul] at h₁
  omega

theorem Node.height_le (h : Node (2 ^ k) m i) : m ≤ k := by
  by_contra hlt
  have h₁ := (h.eq_one (by omega)).2
  omega

theorem node_root : Node (2 ^ k) k 1 := ⟨by omega, by omega⟩

/-- Every entry of the array is a node. -/
theorem exists_node (hi : 0 < i) (hlt : i < 2 ^ k) : ∃ h, Node (2 ^ k) (h + 1) i := by
  have hlog : Nat.log2 i < k := (Nat.log2_lt (by omega)).mpr hlt
  have hlo : 2 ^ Nat.log2 i ≤ i := Nat.log2_self_le (by omega)
  have hhi : i < 2 ^ (Nat.log2 i + 1) := Nat.lt_log2_self
  refine ⟨k - Nat.log2 i - 1, ?_, ?_⟩
  · calc 2 ^ k = 2 ^ Nat.log2 i * 2 ^ (k - Nat.log2 i - 1 + 1) := by rw [← pow_add]; congr 1; omega
      _ ≤ _ := Nat.mul_le_mul_right _ hlo
  · calc (i + 1) * 2 ^ (k - Nat.log2 i - 1 + 1) ≤ 2 ^ (Nat.log2 i + 1) * 2 ^ (k - Nat.log2 i - 1 + 1) :=
          Nat.mul_le_mul_right _ hhi
      _ = 2 * 2 ^ k := by rw [← pow_add, ← pow_succ']; congr 1; omega

def recompute (le : α → α → Bool) (head : ℕ → Option α) (N : ℕ) (aTree : ℕ → ℕ) (i : ℕ) : ℕ → ℕ :=
  Function.update aTree i (play le head (winner N aTree (2 * i)) (winner N aTree (2 * i + 1)))

theorem winner_recompute_of_ne (hij : i ≠ j) : winner N (recompute le head N aTree i) j = winner N aTree j := by
  unfold winner recompute
  rw [Function.update_of_ne hij.symm]

theorem winner_recompute (hs : Settled le head N aTree P) (hn : Node N (m + 1) i) (hl : P m (2 * i))
    (hr : P m (2 * i + 1)) : winner N (recompute le head N aTree i) i = champion le head N (m + 1) i := by
  rw [winner, if_neg (by have := hn.lt; omega), recompute, Function.update_self, hs m _ hn.left hl,
    hs m _ hn.right hr, champion]

/-- From the last node down to `i`. -/
theorem Settled.build (hs : Settled le head (2 ^ k) aTree fun _ j => i < j) (hi : 0 < i) (hlt : i < 2 ^ k) :
    Settled le head (2 ^ k) (recompute le head (2 ^ k) aTree i) fun _ j => i - 1 < j := by
  intro h j hn hj
  obtain rfl | hne := eq_or_ne j i
  · obtain ⟨m, hm⟩ := exists_node hi hlt
    obtain rfl := hm.height hn
    exact winner_recompute hs hm (by omega) (by omega)
  · rw [winner_recompute_of_ne hne.symm]
    exact hs h j hn (by omega)

/-- A new head of one player settles all but the nodes above its leaf. -/
theorem Settled.change (hs : Settled le head N aTree fun _ _ => True)
    (hj : ∀ j < N, j ≠ w → head' j = head j) :
    Settled le head' N aTree fun h i => h = 0 ∨ (N + w) / 2 ^ h ≠ i := by
  intro h i hn hP
  obtain _ | h := h
  · exact winner_leaf hn
  · rw [hs _ _ hn trivial]
    refine (champion_congr hn.1 fun j hlo hhi => hj j (by have := hn.2; omega) ?_).symm
    rintro rfl
    refine hP.resolve_left (by omega) ?_
    have hpos := Nat.two_pow_pos (h + 1)
    have h₁ := hn.1
    apply Nat.div_eq_of_lt_le <;> omega

/-- The next node on the way from the leaf up to the root. -/
theorem Settled.climb (hs : Settled le head N aTree fun h i => h ≤ m ∨ (N + w) / 2 ^ h ≠ i)
    (hn : Node N (m + 1) ((N + w) / 2 ^ (m + 1))) :
    Settled le head N (recompute le head N aTree ((N + w) / 2 ^ (m + 1)))
      fun h i => h ≤ m + 1 ∨ (N + w) / 2 ^ h ≠ i := by
  intro h j hj hP
  obtain rfl | hne := eq_or_ne j ((N + w) / 2 ^ (m + 1))
  · obtain rfl := hn.height hj
    exact winner_recompute hs hn (.inl le_rfl) (.inl le_rfl)
  · rw [winner_recompute_of_ne hne.symm]
    refine hs h j hj ?_
    obtain hle | hne' := hP
    · obtain hlt | rfl := Nat.lt_or_eq_of_le hle
      · exact .inl (by omega)
      · exact .inr hne.symm
    · exact .inr hne'

theorem node_div (hm : m ≤ k) (hw : w < 2 ^ k) : Node (2 ^ k) m ((2 ^ k + w) / 2 ^ m) := by
  have hpos := Nat.two_pow_pos m
  have hk : 2 ^ k = 2 ^ m * 2 ^ (k - m) := by rw [← pow_add]; congr 1; omega
  have hq : (2 ^ k + w) / 2 ^ m = 2 ^ (k - m) + w / 2 ^ m := by rw [hk, Nat.mul_add_div hpos]
  have hlt : w / 2 ^ m < 2 ^ (k - m) := by rwa [Nat.div_lt_iff_lt_mul hpos, Nat.mul_comm, ← hk]
  rw [hq]
  constructor
  · calc 2 ^ k = 2 ^ (k - m) * 2 ^ m := by rw [hk, Nat.mul_comm]
      _ ≤ _ := Nat.mul_le_mul_right _ (Nat.le_add_right _ _)
  · calc (2 ^ (k - m) + w / 2 ^ m + 1) * 2 ^ m ≤ 2 * 2 ^ (k - m) * 2 ^ m := Nat.mul_le_mul_right _ (by omega)
      _ = 2 * 2 ^ k := by rw [hk]; ring

/-- The root of a settled tree has the least of all heads. -/
theorem Settled.root (hs : Settled le head (2 ^ k) aTree P) (hP : P k 1) (hk : 0 < k) (hle : TotalOn K le)
    (hK : ∀ j x, head j = some x → K x) : LeastHead le head 0 (2 ^ k) (aTree 1) := by
  have h := champion_least (N := 2 ^ k) (h := k) (i := 1) hle hK (by omega)
  have h1 : ¬2 ^ k ≤ 1 := by have := Nat.one_lt_two_pow (n := k) (by omega); omega
  rw [← hs k 1 node_root hP, winner, if_neg h1] at h
  convert h using 1 <;> omega

end Tournament

end Sqlite.Foundation
