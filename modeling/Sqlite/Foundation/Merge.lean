import Mathlib.Data.Nat.Notation
import Mathlib.Data.Int.Notation
import Mathlib.Data.List.Pairwise

/-! The union of two lists with ordered keys, by a merge that joins the elements with one key. -/
namespace Sqlite.Foundation

variable {α κ : Type*}

/-- The merge by the sign of `cmp`. -/
def mergeBy (cmp : α → α → ℤ) (join : α → α → α) : List α → List α → List α
  | [], l' => l'
  | a :: l, [] => a :: l
  | a :: l, b :: l' =>
    if cmp a b = 0 then join a b :: mergeBy cmp join l l'
    else if cmp a b < 0 then a :: mergeBy cmp join l (b :: l')
    else b :: mergeBy cmp join (a :: l) l'
termination_by l l' => l.length + l'.length

/-- The keys ascend. -/
def Ascends (r : κ → κ → Prop) (key : α → κ) (l : List α) : Prop := l.Pairwise fun a b => r (key a) (key b)

/-- `m` is a merge of `l` and `l'` that takes the lower key first. -/
inductive Merges (r : κ → κ → Prop) (key : α → κ) (join : α → α → α) :
    List α → List α → List α → Prop
  | nil_left (l) : Merges r key join [] l l
  | nil_right (l) : Merges r key join l [] l
  | both {a b l l' m} (h : key a = key b) (hm : Merges r key join l l' m) :
    Merges r key join (a :: l) (b :: l') (join a b :: m)
  | left {a b l l' m} (h : r (key a) (key b)) (hm : Merges r key join l (b :: l') m) :
    Merges r key join (a :: l) (b :: l') (a :: m)
  | right {a b l l' m} (h : r (key b) (key a)) (hm : Merges r key join (a :: l) l' m) :
    Merges r key join (a :: l) (b :: l') (b :: m)

/-- The sign of `cmp` says which key is the lower one. -/
structure Right (r : κ → κ → Prop) (key : α → κ) (cmp : α → α → ℤ) (a b : α) : Prop where
  zero : cmp a b = 0 → key a = key b
  neg : cmp a b < 0 → r (key a) (key b)
  pos : 0 < cmp a b → r (key b) (key a)

/-- The merge comes to compare `a` with `b`: all that is ahead of one of them is ahead of the other. -/
structure Meets (r : κ → κ → Prop) (key : α → κ) (l l' : List α) (a b : α) : Prop where
  left : ∀ x ∈ l, r (key x) (key a) → r (key x) (key b)
  right : ∀ y ∈ l', r (key y) (key b) → r (key y) (key a)

variable {r : κ → κ → Prop} {key : α → κ} {cmp : α → α → ℤ} {join : α → α → α} {l l' m : List α}
  {a b e : α} {k : κ}

theorem mergeBy_nil_right (l : List α) : mergeBy cmp join l [] = l := by
  cases l <;> rw [mergeBy]

theorem Ascends.tail (h : Ascends r key (a :: l)) : Ascends r key l := (List.pairwise_cons.mp h).2

theorem Ascends.head (h : Ascends r key (a :: l)) : ∀ x ∈ l, r (key a) (key x) :=
  (List.pairwise_cons.mp h).1

section Facts

variable (hjoin : ∀ a b, key a = key b → key (join a b) = key a)

include hjoin in
theorem Merges.mem_keys (h : Merges r key join l l' m) :
    k ∈ m.map key ↔ k ∈ l.map key ∨ k ∈ l'.map key := by
  induction h with
  | nil_left l => simp
  | nil_right l => simp
  | both h hm ih =>
    simp only [List.map_cons, List.mem_cons, ih, hjoin _ _ h, ← h]
    grind
  | left h hm ih =>
    simp only [List.map_cons, List.mem_cons] at ih ⊢
    rw [ih]
    grind
  | right h hm ih =>
    simp only [List.map_cons, List.mem_cons] at ih ⊢
    rw [ih]
    grind

variable (htrans : ∀ x y z, r x y → r y z → r x z)

include hjoin htrans in
theorem Merges.ascends (h : Merges r key join l l' m) (hl : Ascends r key l)
    (hl' : Ascends r key l') : Ascends r key m := by
  have hbelow : ∀ {x : κ} {l l' m : List α}, Merges r key join l l' m → (∀ y ∈ l, r x (key y)) →
      (∀ y ∈ l', r x (key y)) → ∀ y ∈ m, r x (key y) := by
    intro x l l' m h h1 h2 y hy
    have hkey := (h.mem_keys hjoin).mp (List.mem_map_of_mem (f := key) hy)
    rcases hkey with hkey | hkey
    · obtain ⟨z, hz, hzy⟩ := List.mem_map.mp hkey
      exact hzy ▸ h1 z hz
    · obtain ⟨z, hz, hzy⟩ := List.mem_map.mp hkey
      exact hzy ▸ h2 z hz
  induction h with
  | nil_left l => exact hl'
  | nil_right l => exact hl
  | both h hm ih =>
    refine List.pairwise_cons.mpr ⟨?_, ih hl.tail hl'.tail⟩
    rw [hjoin _ _ h]
    exact hbelow hm hl.head (h ▸ hl'.head)
  | left h hm ih =>
    refine List.pairwise_cons.mpr ⟨hbelow hm hl.head ?_, ih hl.tail hl'⟩
    intro y hy
    rcases List.mem_cons.mp hy with rfl | hy
    · exact h
    · exact htrans _ _ _ h (hl'.head y hy)
  | right h hm ih =>
    refine List.pairwise_cons.mpr ⟨hbelow hm ?_ hl'.head, ih hl hl'.tail⟩
    intro y hy
    rcases List.mem_cons.mp hy with rfl | hy
    · exact h
    · exact htrans _ _ _ h (hl.head y hy)

variable (hirrefl : ∀ x, ¬r x x)

include hirrefl in
theorem Ascends.head_not_mem (h : Ascends r key (a :: l)) : key a ∉ l.map key := by
  intro hmem
  obtain ⟨x, hx, hxa⟩ := List.mem_map.mp hmem
  exact hirrefl _ (hxa ▸ h.head x hx)

include hirrefl in
/-- A key is that of one element only. -/
theorem Ascends.key_inj (h : Ascends r key l) (ha : a ∈ l) (hb : b ∈ l) (hab : key a = key b) :
    a = b := by
  induction l with
  | nil => exact absurd ha List.not_mem_nil
  | cons x l ih =>
    have hx := h.head_not_mem hirrefl
    rcases List.mem_cons.mp ha with hax | hal
    · rcases List.mem_cons.mp hb with hbx | hbl
      · rw [hax, hbx]
      · rw [← hax, hab] at hx
        exact absurd (List.mem_map_of_mem hbl) hx
    · rcases List.mem_cons.mp hb with hbx | hbl
      · rw [← hbx, ← hab] at hx
        exact absurd (List.mem_map_of_mem hal) hx
      · exact ih h.tail hal hbl

include htrans hirrefl in
/-- A key below the first is not in the list. -/
theorem Ascends.below_not_mem (h : Ascends r key (a :: l)) (hk : r k (key a)) :
    k ∉ (a :: l).map key := by
  intro hmem
  obtain ⟨x, hx, rfl⟩ := List.mem_map.mp hmem
  rcases List.mem_cons.mp hx with rfl | hx
  · exact hirrefl _ hk
  · exact hirrefl _ (htrans _ _ _ hk (h.head x hx))

include htrans hirrefl in
/-- What the merge holds: the elements whose key is in one list only, and the joined ones. -/
theorem Merges.mem_iff (h : Merges r key join l l' m) (hl : Ascends r key l)
    (hl' : Ascends r key l') : e ∈ m ↔ (e ∈ l ∧ key e ∉ l'.map key) ∨
      (e ∈ l' ∧ key e ∉ l.map key) ∨ ∃ a ∈ l, ∃ b ∈ l', key a = key b ∧ e = join a b := by
  induction h with
  | nil_left l => simp
  | nil_right l => simp
  | @both a b l l' m h hm ih =>
    have ha := hl.head_not_mem hirrefl
    have hb := hl'.head_not_mem hirrefl
    have hal' : key a ∉ l'.map key := h ▸ hb
    have hbl : key b ∉ l.map key := h ▸ ha
    rw [List.mem_cons, ih hl.tail hl'.tail]
    constructor
    · rintro (rfl | ⟨he, hk⟩ | ⟨he, hk⟩ | ⟨x, hx, y, hy, hxy, rfl⟩)
      · exact .inr (.inr ⟨a, List.mem_cons_self, b, List.mem_cons_self, h, rfl⟩)
      · refine .inl ⟨List.mem_cons_of_mem a he, ?_⟩
        rw [List.map_cons, List.mem_cons, not_or]
        exact ⟨fun heq => hbl (heq ▸ List.mem_map_of_mem he), hk⟩
      · refine .inr (.inl ⟨List.mem_cons_of_mem b he, ?_⟩)
        rw [List.map_cons, List.mem_cons, not_or]
        exact ⟨fun heq => hal' (heq ▸ List.mem_map_of_mem he), hk⟩
      · exact .inr (.inr ⟨x, List.mem_cons_of_mem a hx, y, List.mem_cons_of_mem b hy, hxy, rfl⟩)
    · rintro (⟨he, hk⟩ | ⟨he, hk⟩ | ⟨x, hx, y, hy, hxy, rfl⟩)
      · rw [List.map_cons, List.mem_cons, not_or] at hk
        rcases List.mem_cons.mp he with rfl | he
        · exact absurd h hk.1
        · exact .inr (.inl ⟨he, hk.2⟩)
      · rw [List.map_cons, List.mem_cons, not_or] at hk
        rcases List.mem_cons.mp he with rfl | he
        · exact absurd h.symm hk.1
        · exact .inr (.inr (.inl ⟨he, hk.2⟩))
      · rcases List.mem_cons.mp hx with rfl | hx
        · rcases List.mem_cons.mp hy with rfl | hy
          · exact .inl rfl
          · exact absurd (hxy ▸ List.mem_map_of_mem hy) hal'
        · rcases List.mem_cons.mp hy with rfl | hy
          · exact absurd (hxy ▸ List.mem_map_of_mem hx) hbl
          · exact .inr (.inr (.inr ⟨x, hx, y, hy, hxy, rfl⟩))
  | @left a b l l' m h hm ih =>
    have ha := hl'.below_not_mem htrans hirrefl h
    rw [List.mem_cons, ih hl.tail hl']
    constructor
    · rintro (rfl | ⟨he, hk⟩ | ⟨he, hk⟩ | ⟨x, hx, y, hy, hxy, rfl⟩)
      · exact .inl ⟨List.mem_cons_self, ha⟩
      · exact .inl ⟨List.mem_cons_of_mem a he, hk⟩
      · refine .inr (.inl ⟨he, ?_⟩)
        rw [List.map_cons, List.mem_cons, not_or]
        exact ⟨fun heq => ha (heq ▸ List.mem_map_of_mem he), hk⟩
      · exact .inr (.inr ⟨x, List.mem_cons_of_mem a hx, y, hy, hxy, rfl⟩)
    · rintro (⟨he, hk⟩ | ⟨he, hk⟩ | ⟨x, hx, y, hy, hxy, rfl⟩)
      · rcases List.mem_cons.mp he with rfl | he
        · exact .inl rfl
        · exact .inr (.inl ⟨he, hk⟩)
      · rw [List.map_cons, List.mem_cons, not_or] at hk
        exact .inr (.inr (.inl ⟨he, hk.2⟩))
      · rcases List.mem_cons.mp hx with rfl | hx
        · exact absurd (hxy ▸ List.mem_map_of_mem hy) ha
        · exact .inr (.inr (.inr ⟨x, hx, y, hy, hxy, rfl⟩))
  | @right a b l l' m h hm ih =>
    have hb := hl.below_not_mem htrans hirrefl h
    rw [List.mem_cons, ih hl hl'.tail]
    constructor
    · rintro (rfl | ⟨he, hk⟩ | ⟨he, hk⟩ | ⟨x, hx, y, hy, hxy, rfl⟩)
      · exact .inr (.inl ⟨List.mem_cons_self, hb⟩)
      · refine .inl ⟨he, ?_⟩
        rw [List.map_cons, List.mem_cons, not_or]
        exact ⟨fun heq => hb (heq ▸ List.mem_map_of_mem he), hk⟩
      · exact .inr (.inl ⟨List.mem_cons_of_mem b he, hk⟩)
      · exact .inr (.inr ⟨x, hx, y, List.mem_cons_of_mem b hy, hxy, rfl⟩)
    · rintro (⟨he, hk⟩ | ⟨he, hk⟩ | ⟨x, hx, y, hy, hxy, rfl⟩)
      · rw [List.map_cons, List.mem_cons, not_or] at hk
        exact .inr (.inl ⟨he, hk.2⟩)
      · rcases List.mem_cons.mp he with rfl | he
        · exact .inl rfl
        · exact .inr (.inr (.inl ⟨he, hk⟩))
      · rcases List.mem_cons.mp hy with rfl | hy
        · exact absurd (hxy ▸ List.mem_map_of_mem hx) hb
        · exact .inr (.inr (.inr ⟨x, hx, y, hy, hxy, rfl⟩))

end Facts

/-! The merge by `cmp` is one, and its keys ascend, just when every comparison is right. -/

section Comparisons

variable (htrans : ∀ x y z, r x y → r y z → r x z) (hirrefl : ∀ x, ¬r x x)

include htrans hirrefl in
/-- The first elements meet. -/
theorem Meets.heads (hl : Ascends r key (a :: l)) (hl' : Ascends r key (b :: l')) :
    Meets r key (a :: l) (b :: l') a b where
  left x hx h := by
    rcases List.mem_cons.mp hx with rfl | hx
    · exact absurd h (hirrefl _)
    · exact absurd (htrans _ _ _ h (hl.head x hx)) (hirrefl _)
  right y hy h := by
    rcases List.mem_cons.mp hy with rfl | hy
    · exact absurd h (hirrefl _)
    · exact absurd (htrans _ _ _ h (hl'.head y hy)) (hirrefl _)

theorem Meets.both {x y : α} (hl : Ascends r key (a :: l)) (hl' : Ascends r key (b :: l'))
    (hab : key a = key b) (hx : x ∈ l) (hy : y ∈ l') (h : Meets r key l l' x y) :
    Meets r key (a :: l) (b :: l') x y where
  left z hz hzx := by
    rcases List.mem_cons.mp hz with rfl | hz
    · exact hab ▸ hl'.head y hy
    · exact h.left z hz hzx
  right z hz hzy := by
    rcases List.mem_cons.mp hz with rfl | hz
    · exact hab ▸ hl.head x hx
    · exact h.right z hz hzy

include htrans in
theorem Meets.after_left {x y : α} (hl' : Ascends r key (b :: l')) (hab : r (key a) (key b))
    (hy : y ∈ b :: l') (h : Meets r key l (b :: l') x y) : Meets r key (a :: l) (b :: l') x y where
  left z hz hzx := by
    rcases List.mem_cons.mp hz with rfl | hz
    · rcases List.mem_cons.mp hy with rfl | hy
      · exact hab
      · exact htrans _ _ _ hab (hl'.head y hy)
    · exact h.left z hz hzx
  right := h.right

theorem Meets.symm {x y : α} (h : Meets r key l l' x y) : Meets r key l' l y x := ⟨h.right, h.left⟩

include htrans hirrefl in
/-- Where the comparisons that the merge comes to are right, it is a merge. -/
theorem mergeBy_merges (hl : Ascends r key l) (hl' : Ascends r key l')
    (hright : ∀ a ∈ l, ∀ b ∈ l', Meets r key l l' a b → Right r key cmp a b) :
    Merges r key join l l' (mergeBy cmp join l l') := by
  induction l generalizing l' with
  | nil =>
    rw [mergeBy]
    exact .nil_left l'
  | cons a l ih =>
    induction l' with
    | nil =>
      rw [mergeBy]
      exact .nil_right (a :: l)
    | cons b l' ih' =>
      have hheads := hright a List.mem_cons_self b List.mem_cons_self
        (Meets.heads htrans hirrefl hl hl')
      rw [mergeBy]
      by_cases hzero : cmp a b = 0
      · rw [if_pos hzero]
        refine .both (hheads.zero hzero) (ih hl.tail hl'.tail fun x hx y hy h => ?_)
        exact hright x (List.mem_cons_of_mem a hx) y (List.mem_cons_of_mem b hy)
          (h.both hl hl' (hheads.zero hzero) hx hy)
      · rw [if_neg hzero]
        by_cases hneg : cmp a b < 0
        · rw [if_pos hneg]
          refine .left (hheads.neg hneg) (ih hl.tail hl' fun x hx y hy h => ?_)
          exact hright x (List.mem_cons_of_mem a hx) y hy
            (h.after_left htrans hl' (hheads.neg hneg) hy)
        · rw [if_neg hneg]
          have hpos : 0 < cmp a b := by omega
          refine .right (hheads.pos hpos) (ih' hl'.tail fun x hx y hy h => ?_)
          exact hright x hx y (List.mem_cons_of_mem b hy)
            (h.symm.after_left htrans hl (hheads.pos hpos) hx).symm

theorem mem_keys_mergeBy (hjoin : ∀ a b, key a = key b → key (join a b) = key a)
    (hzero : ∀ a ∈ l, ∀ b ∈ l', cmp a b = 0 → key a = key b) :
    k ∈ (mergeBy cmp join l l').map key ↔ k ∈ l.map key ∨ k ∈ l'.map key := by
  induction l generalizing l' with
  | nil => simp [mergeBy]
  | cons a l ih =>
    induction l' with
    | nil => simp [mergeBy]
    | cons b l' ih' =>
      have hl : ∀ x ∈ l, ∀ y ∈ b :: l', cmp x y = 0 → key x = key y := fun x hx =>
        hzero x (List.mem_cons_of_mem a hx)
      rw [mergeBy]
      by_cases h0 : cmp a b = 0
      · have hab := hzero a List.mem_cons_self b List.mem_cons_self h0
        rw [if_pos h0, List.map_cons, List.mem_cons, hjoin a b hab,
          ih fun x hx y hy => hl x hx y (List.mem_cons_of_mem b hy)]
        simp only [List.map_cons, List.mem_cons, ← hab]
        grind
      · rw [if_neg h0]
        by_cases hneg : cmp a b < 0
        · rw [if_pos hneg, List.map_cons, List.mem_cons, ih hl]
          simp only [List.map_cons, List.mem_cons]
          grind
        · rw [if_neg hneg, List.map_cons, List.mem_cons,
            ih' fun x hx y hy => hzero x hx y (List.mem_cons_of_mem b hy)]
          simp only [List.map_cons, List.mem_cons]
          grind

include htrans hirrefl in
/-- Where the keys of the merge ascend, the comparisons that it came to were right. -/
theorem right_of_ascends (hl : Ascends r key l) (hl' : Ascends r key l')
    (hjoin : ∀ a b, key a = key b → key (join a b) = key a)
    (hzero : ∀ a ∈ l, ∀ b ∈ l', cmp a b = 0 ↔ key a = key b)
    (h : Ascends r key (mergeBy cmp join l l')) :
    ∀ a ∈ l, ∀ b ∈ l', Meets r key l l' a b → Right r key cmp a b := by
  induction l generalizing l' with
  | nil => simp
  | cons a l ih =>
    induction l' with
    | nil => simp
    | cons b l' ih' =>
      have hasymm : ∀ x y, r x y → ¬r y x := fun x y h h' => hirrefl _ (htrans _ _ _ h h')
      have h0 := hzero a List.mem_cons_self b List.mem_cons_self
      rw [mergeBy] at h
      intro x hx y hy hxy
      -- An element and one that is not the first meet only after what is ahead of them.
      have hleft : x = a → y ∈ l' → r (key b) (key a) := by
        rintro rfl hy'
        exact hxy.right b List.mem_cons_self (hl'.head y hy')
      have hright : y = b → x ∈ l → r (key a) (key b) := by
        rintro rfl hx'
        exact hxy.left a List.mem_cons_self (hl.head x hx')
      by_cases heq : cmp a b = 0
      · have hab := h0.mp heq
        rw [if_pos heq] at h
        rcases List.mem_cons.mp hx with hxa | hx' <;> rcases List.mem_cons.mp hy with hyb | hy'
        · subst hxa hyb
          exact ⟨fun _ => hab, fun hn => by omega, fun hp => by omega⟩
        · exact absurd (hab ▸ hleft hxa hy') (hirrefl _)
        · exact absurd (hab ▸ hright hyb hx') (hirrefl _)
        · exact ih hl.tail hl'.tail (fun u hu v hv => hzero u (List.mem_cons_of_mem a hu) v
            (List.mem_cons_of_mem b hv)) h.tail x hx' y hy'
            ⟨fun z hz => hxy.left z (List.mem_cons_of_mem a hz),
              fun z hz => hxy.right z (List.mem_cons_of_mem b hz)⟩
      · rw [if_neg heq] at h
        have hne : key a ≠ key b := fun hk => heq (h0.mpr hk)
        by_cases hneg : cmp a b < 0
        · rw [if_pos hneg] at h
          have hb : key b ∈ (mergeBy cmp join l (b :: l')).map key :=
            (mem_keys_mergeBy hjoin fun u hu v hv => (hzero u (List.mem_cons_of_mem a hu) v hv).mp).mpr
              (.inr (List.mem_map_of_mem List.mem_cons_self))
          obtain ⟨z, hz, hzb⟩ := List.mem_map.mp hb
          have hab : r (key a) (key b) := hzb ▸ h.head z hz
          rcases List.mem_cons.mp hx with hxa | hx'
          · rcases List.mem_cons.mp hy with hyb | hy'
            · subst hxa hyb
              exact ⟨fun hz => absurd hz heq, fun _ => hab, fun hp => by omega⟩
            · exact absurd (hleft hxa hy') (hasymm _ _ hab)
          · exact ih hl.tail hl' (fun u hu => hzero u (List.mem_cons_of_mem a hu)) h.tail x hx' y hy
              ⟨fun z hz => hxy.left z (List.mem_cons_of_mem a hz), hxy.right⟩
        · rw [if_neg hneg] at h
          have ha : key a ∈ (mergeBy cmp join (a :: l) l').map key :=
            (mem_keys_mergeBy hjoin fun u hu v hv => (hzero u hu v (List.mem_cons_of_mem b hv)).mp).mpr
              (.inl (List.mem_map_of_mem List.mem_cons_self))
          obtain ⟨z, hz, hza⟩ := List.mem_map.mp ha
          have hba : r (key b) (key a) := hza ▸ h.head z hz
          rcases List.mem_cons.mp hy with hyb | hy'
          · rcases List.mem_cons.mp hx with hxa | hx'
            · subst hxa hyb
              exact ⟨fun hz => absurd hz heq, fun hn => absurd hn hneg, fun _ => hba⟩
            · exact absurd (hright hyb hx') (hasymm _ _ hba)
          · exact ih' hl'.tail (fun u hu v hv => hzero u hu v (List.mem_cons_of_mem b hv)) h.tail x hx y hy'
              ⟨hxy.left, fun z hz => hxy.right z (List.mem_cons_of_mem b hz)⟩

end Comparisons

end Sqlite.Foundation
