import Sqlite.Foundation.Links
import Sqlite.Mem5.Model

/-! The freelist links as the code reads them, and what linking and unlinking do to them. -/
namespace Sqlite.Mem5
open Foundation

/-- A link as the code tests it: any negative index ends the list. -/
def toLink (z : ℤ) : Option ℕ := if z < 0 then none else some z.toNat

@[simp] theorem toLink_natCast (i : ℕ) : toLink (i : ℤ) = some i := by simp [toLink]

theorem toLink_eq_none {z : ℤ} : toLink z = none ↔ z < 0 := by
  unfold toLink
  split_ifs with h <;> simp [h]

theorem toLink_eq_some {z : ℤ} {i : ℕ} : toLink z = some i ↔ z = i := by
  unfold toLink
  split_ifs with h
  · simp only [false_iff]
    omega
  · rw [Option.some.injEq]
    omega

/-- The values a C `int` can hold. -/
def IsInt (z : ℤ) : Prop := -2147483648 ≤ z ∧ z < 2147483648

theorem isInt_getInt (m : ℕ → UInt8) (a : ℕ) : IsInt (getInt m a) := by
  have h0 := (m a).toNat_lt
  have h1 := (m (a + 1)).toNat_lt
  have h2 := (m (a + 2)).toNat_lt
  have h3 := (m (a + 3)).toNat_lt
  unfold IsInt getInt getLE
  split_ifs <;> omega

namespace Mem5Global
variable {m : Mem5Global} {i j k : ℕ} {v : ℤ}

def nextOf (m : Mem5Global) (i : ℕ) : Option ℕ := toLink (m.next i)
def prevOf (m : Mem5Global) (i : ℕ) : Option ℕ := toLink (m.prev i)

theorem isInt_next : IsInt (m.next i) := isInt_getInt _ _
theorem isInt_prev : IsInt (m.prev i) := isInt_getInt _ _

private theorem links_apart (hz : 8 ≤ m.szAtom) (h : i ≠ j) :
    i * m.szAtom + 8 ≤ j * m.szAtom ∨ j * m.szAtom + 8 ≤ i * m.szAtom := by
  rcases Nat.lt_or_gt_of_ne h with hlt | hlt
  · have := Nat.mul_le_mul_right m.szAtom hlt
    rw [Nat.succ_mul] at this
    omega
  · have := Nat.mul_le_mul_right m.szAtom hlt
    rw [Nat.succ_mul] at this
    omega

theorem nextOf_setNext (hz : 8 ≤ m.szAtom) (hv : IsInt v) :
    (m.setNext i v).nextOf j = if j = i then toLink v else m.nextOf j := by
  unfold nextOf next setNext
  split_ifs with h
  · rw [h]
    exact congrArg toLink (getInt_putInt_self hv.1 hv.2)
  · have := links_apart hz h
    exact congrArg toLink (getInt_putInt_of_ne (by dsimp only; omega))

theorem prevOf_setNext (hz : 8 ≤ m.szAtom) : (m.setNext i v).prevOf j = m.prevOf j := by
  unfold prevOf prev setNext
  refine congrArg toLink (getInt_putInt_of_ne ?_)
  by_cases h : j = i
  · rw [h]; dsimp only; omega
  · have := links_apart hz h
    dsimp only; omega

theorem prevOf_setPrev (hz : 8 ≤ m.szAtom) (hv : IsInt v) :
    (m.setPrev i v).prevOf j = if j = i then toLink v else m.prevOf j := by
  unfold prevOf prev setPrev
  split_ifs with h
  · rw [h]
    exact congrArg toLink (getInt_putInt_self hv.1 hv.2)
  · have := links_apart hz h
    exact congrArg toLink (getInt_putInt_of_ne (by dsimp only; omega))

theorem nextOf_setPrev (hz : 8 ≤ m.szAtom) : (m.setPrev i v).nextOf j = m.nextOf j := by
  unfold nextOf next setPrev
  refine congrArg toLink (getInt_putInt_of_ne ?_)
  by_cases h : j = i
  · rw [h]; dsimp only; omega
  · have := links_apart hz h
    dsimp only; omega

@[simp] theorem nextOf_setFreelist : (m.setFreelist k v).nextOf j = m.nextOf j := rfl
@[simp] theorem prevOf_setFreelist : (m.setFreelist k v).prevOf j = m.prevOf j := rfl

end Mem5Global

/-- Nothing but the pool bytes of the atoms in `S` and the freelist heads has changed. -/
structure Touches (S : Set ℕ) (m m' : Mem5Global) : Prop where
  szAtom : m'.szAtom = m.szAtom
  nBlock : m'.nBlock = m.nBlock
  pool : ∀ a, a / m.szAtom ∉ S → m'.zPool a = m.zPool a

namespace Touches
variable {S T : Set ℕ} {m m' m'' : Mem5Global}

theorem refl (m : Mem5Global) : Touches S m m := ⟨rfl, rfl, fun _ _ => rfl⟩

theorem trans (h : Touches S m m') (h' : Touches S m' m'') : Touches S m m'' :=
  ⟨h'.szAtom.trans h.szAtom, h'.nBlock.trans h.nBlock, fun a ha =>
    (h'.pool a (h.szAtom.symm ▸ ha)).trans (h.pool a ha)⟩

theorem mono (h : Touches S m m') (hST : S ⊆ T) : Touches T m m' :=
  ⟨h.szAtom, h.nBlock, fun a ha => h.pool a (fun hs => ha (hST hs))⟩

theorem setFreelist (k : ℕ) (v : ℤ) : Touches S m (m.setFreelist k v) :=
  ⟨rfl, rfl, fun _ _ => rfl⟩

theorem setCtrl (i : ℕ) (c : UInt8) : Touches S m (m.setCtrl i c) :=
  ⟨rfl, rfl, fun _ _ => rfl⟩

private theorem div_eq {z i a : ℕ} (hz : 8 ≤ z) (h1 : i * z ≤ a) (h2 : a < i * z + 8) :
    a / z = i :=
  Nat.div_eq_of_lt_le h1 (by rw [Nat.succ_mul]; omega)

theorem setNext {i : ℕ} (hz : 8 ≤ m.szAtom) (hi : i ∈ S) (v : ℤ) :
    Touches S m (m.setNext i v) := by
  refine ⟨rfl, rfl, fun a ha => putInt_of_outside ?_⟩
  by_contra h
  have hd : a / m.szAtom = i := div_eq hz (by omega) (by omega)
  exact ha (hd ▸ hi)

theorem setPrev {i : ℕ} (hz : 8 ≤ m.szAtom) (hi : i ∈ S) (v : ℤ) :
    Touches S m (m.setPrev i v) := by
  refine ⟨rfl, rfl, fun a ha => putInt_of_outside ?_⟩
  by_contra h
  have hd : a / m.szAtom = i := div_eq hz (by omega) (by omega)
  exact ha (hd ▸ hi)

end Touches

section Edit
variable {m : Mem5Global} {k i : ℕ} {l : List ℕ}

/-- The list of freelist `k`: its head and its links. -/
structure FreelistIs (m : Mem5Global) (k : ℕ) (l : List ℕ) : Prop where
  isInt : IsInt (m.aiFreelist k)
  head : toLink (m.aiFreelist k) = l.head?
  links : Links m.nextOf m.prevOf none l
  nodup : l.Nodup

theorem memsys5Unlink_aCtrl (m : Mem5Global) (i k : ℕ) : (memsys5Unlink m i k).aCtrl = m.aCtrl := by
  unfold memsys5Unlink
  dsimp only
  split_ifs <;> rfl

theorem memsys5Link_aCtrl (m : Mem5Global) (i k : ℕ) : (memsys5Link m i k).aCtrl = m.aCtrl := by
  unfold memsys5Link
  dsimp only
  split_ifs <;> rfl

theorem memsys5Unlink_touches (hz : 8 ≤ m.szAtom) (h : FreelistIs m k l) (hi : i ∈ l) :
    Touches {x | x ∈ l} m (memsys5Unlink m i k) := by
  have hn : ∀ y, m.nextOf i = some y → y ∈ l := fun y hy => h.links.next_mem hi hy
  have hp : ∀ y, m.prevOf i = some y → y ∈ l := fun y hy =>
    (h.links.prev_mem hi hy).resolve_left (by simp)
  have h1 : Touches {x | x ∈ l} m (if m.prev i < 0 then m.setFreelist k (m.next i)
      else m.setNext (m.prev i).toNat (m.next i)) := by
    split_ifs with hneg
    · exact Touches.setFreelist k _
    · exact Touches.setNext hz (hp _ (toLink_eq_some.mpr (by omega))) _
  unfold memsys5Unlink
  dsimp only
  by_cases hpos : 0 ≤ m.next i
  · rw [if_pos hpos]
    exact h1.trans (Touches.setPrev (h1.szAtom.symm ▸ hz) (hn _ (toLink_eq_some.mpr (by omega))) _)
  · rw [if_neg hpos]
    exact h1

theorem memsys5Unlink_nextOf (hz : 8 ≤ m.szAtom) (y : ℕ) :
    (memsys5Unlink m i k).nextOf y = if m.prevOf i = some y then m.nextOf i else m.nextOf y := by
  have h1 : ∀ m' : Mem5Global, 8 ≤ m'.szAtom →
      ((if 0 ≤ m.next i then m'.setPrev (m.next i).toNat (m.prev i) else m').nextOf y) =
        m'.nextOf y := by
    intro m' hz'
    split_ifs
    · exact Mem5Global.nextOf_setPrev hz'
    · rfl
  unfold memsys5Unlink
  dsimp only
  by_cases hneg : m.prev i < 0
  · have hp : m.prevOf i = none := toLink_eq_none.mpr hneg
    rw [if_pos hneg, h1 (m.setFreelist k (m.next i)) hz, hp]
    simp
  · have hp : m.prevOf i = some (m.prev i).toNat := toLink_eq_some.mpr (by omega)
    rw [if_neg hneg, h1 (m.setNext _ _) hz, Mem5Global.nextOf_setNext hz Mem5Global.isInt_next, hp]
    simp only [Option.some.injEq, eq_comm]
    rfl

theorem memsys5Unlink_prevOf (hz : 8 ≤ m.szAtom) (y : ℕ) :
    (memsys5Unlink m i k).prevOf y = if m.nextOf i = some y then m.prevOf i else m.prevOf y := by
  have h1 : (if m.prev i < 0 then m.setFreelist k (m.next i)
      else m.setNext (m.prev i).toNat (m.next i)).prevOf y = m.prevOf y := by
    split_ifs
    · rfl
    · exact Mem5Global.prevOf_setNext hz
  have h2 : (if m.prev i < 0 then m.setFreelist k (m.next i)
      else m.setNext (m.prev i).toNat (m.next i)).szAtom = m.szAtom := by
    split_ifs <;> rfl
  unfold memsys5Unlink
  dsimp only
  by_cases hpos : 0 ≤ m.next i
  · have hn : m.nextOf i = some (m.next i).toNat := toLink_eq_some.mpr (by omega)
    rw [if_pos hpos, Mem5Global.prevOf_setPrev (h2.symm ▸ hz) Mem5Global.isInt_prev, h1, hn]
    simp only [Option.some.injEq, eq_comm]
    rfl
  · have hn : m.nextOf i = none := toLink_eq_none.mpr (by omega)
    rw [if_neg hpos, h1, hn]
    simp

theorem memsys5Unlink_aiFreelist (j : ℕ) : (memsys5Unlink m i k).aiFreelist j =
    if j = k ∧ m.prevOf i = none then m.next i else m.aiFreelist j := by
  have h1 : ∀ m' : Mem5Global, (if 0 ≤ m.next i then m'.setPrev (m.next i).toNat (m.prev i)
      else m').aiFreelist = m'.aiFreelist := by
    intro m'
    split_ifs <;> rfl
  unfold memsys5Unlink
  dsimp only
  rw [h1]
  by_cases hneg : m.prev i < 0
  · rw [if_pos hneg, Mem5Global.prevOf, toLink_eq_none.mpr hneg]
    by_cases hj : j = k
    · simp [hj, Mem5Global.setFreelist]
    · simp [hj, Mem5Global.setFreelist]
  · have hp : m.prevOf i ≠ none := fun e => hneg (toLink_eq_none.mp e)
    rw [if_neg hneg, if_neg (fun e => hp e.2)]
    rfl

/-- Unlinking takes the block out of its list. -/
theorem FreelistIs.unlink (hz : 8 ≤ m.szAtom) (h : FreelistIs m k l) (hi : i ∈ l) :
    FreelistIs (memsys5Unlink m i k) k (l.erase i) := by
  have hhead := h.links.prev_eq_iff (by simp) h.nodup hi
  refine ⟨?_, ?_, ?_, h.nodup.erase i⟩
  · rw [memsys5Unlink_aiFreelist]
    split_ifs
    · exact Mem5Global.isInt_next
    · exact h.isInt
  · rw [memsys5Unlink_aiFreelist]
    cases l with
    | nil => simp at hi
    | cons w t =>
      by_cases hw : w = i
      · subst hw
        rw [if_pos ⟨rfl, hhead.mpr rfl⟩, List.erase_cons_head]
        exact h.links.2.1
      · rw [if_neg (fun e => hw (by simpa using hhead.mp e.2)), List.erase_cons_tail (by simpa using hw)]
        exact h.head
  · exact h.links.unlink (by simp) h.nodup hi (fun y _ _ => memsys5Unlink_nextOf hz y)
      (fun y _ _ => memsys5Unlink_prevOf hz y)

/-- A list is unchanged by unlinking a block of another list. -/
theorem FreelistIs.unlink_other {j : ℕ} {l' : List ℕ} (hz : 8 ≤ m.szAtom) (h : FreelistIs m k l)
    (hi : i ∈ l) (h' : FreelistIs m j l') (hj : j ≠ k) (hd : ∀ x ∈ l, x ∉ l') :
    FreelistIs (memsys5Unlink m i k) j l' := by
  have he : (memsys5Unlink m i k).aiFreelist j = m.aiFreelist j := by
    rw [memsys5Unlink_aiFreelist, if_neg (fun e => hj e.1)]
  refine ⟨he ▸ h'.isInt, he ▸ h'.head, h'.links.congr (fun y hy => ?_) (fun y hy => ?_), h'.nodup⟩
  · have hne : m.prevOf i ≠ some y := fun e =>
      hd y ((h.links.prev_mem hi e).resolve_left (by simp)) hy
    rw [memsys5Unlink_nextOf hz, if_neg hne]
  · have hne : m.nextOf i ≠ some y := fun e => hd y (h.links.next_mem hi e) hy
    rw [memsys5Unlink_prevOf hz, if_neg hne]

theorem memsys5Link_touches (hz : 8 ≤ m.szAtom) (h : FreelistIs m k l) :
    Touches {x | x = i ∨ x ∈ l} m (memsys5Link m i k) := by
  have h1 : Touches {x | x = i ∨ x ∈ l} m ((m.setNext i (m.aiFreelist k)).setPrev i (-1)) :=
    (Touches.setNext hz (Or.inl rfl) _).trans (Touches.setPrev (by exact hz) (Or.inl rfl) _)
  have hx : ∀ y, toLink (m.aiFreelist k) = some y → y ∈ l := fun y hy =>
    List.mem_of_head? (h.head ▸ hy)
  have h2 : Touches {x | x = i ∨ x ∈ l} m (if 0 ≤ m.aiFreelist k then
      ((m.setNext i (m.aiFreelist k)).setPrev i (-1)).setPrev (m.aiFreelist k).toNat i
      else (m.setNext i (m.aiFreelist k)).setPrev i (-1)) := by
    split_ifs with hpos
    · exact h1.trans (Touches.setPrev (by exact hz) (Or.inr (hx _ (toLink_eq_some.mpr (by omega)))) _)
    · exact h1
  exact h2.trans (Touches.setFreelist k _)

theorem memsys5Link_nextOf (hz : 8 ≤ m.szAtom) (h : FreelistIs m k l) (y : ℕ) :
    (memsys5Link m i k).nextOf y = if y = i then l.head? else m.nextOf y := by
  have h1 : ((m.setNext i (m.aiFreelist k)).setPrev i (-1)).nextOf y =
      if y = i then l.head? else m.nextOf y := by
    rw [Mem5Global.nextOf_setPrev (by exact hz), Mem5Global.nextOf_setNext hz h.isInt, h.head]
  unfold memsys5Link
  dsimp only
  rw [Mem5Global.nextOf_setFreelist]
  by_cases hpos : 0 ≤ m.aiFreelist k
  · rw [if_pos hpos, Mem5Global.nextOf_setPrev (by exact hz), h1]
  · rw [if_neg hpos, h1]

theorem memsys5Link_prevOf (hz : 8 ≤ m.szAtom) (h : FreelistIs m k l) (hi : i < 2147483648)
    (y : ℕ) : (memsys5Link m i k).prevOf y =
      if l.head? = some y then some i else if y = i then none else m.prevOf y := by
  have h1 : ((m.setNext i (m.aiFreelist k)).setPrev i (-1)).prevOf y =
      if y = i then none else m.prevOf y := by
    rw [Mem5Global.prevOf_setPrev (by exact hz) ⟨by omega, by omega⟩, Mem5Global.prevOf_setNext hz]
    rfl
  unfold memsys5Link
  dsimp only
  rw [Mem5Global.prevOf_setFreelist]
  by_cases hpos : 0 ≤ m.aiFreelist k
  · have hx : l.head? = some (m.aiFreelist k).toNat := h.head ▸ toLink_eq_some.mpr (by omega)
    rw [if_pos hpos, Mem5Global.prevOf_setPrev (by exact hz) ⟨by omega, by omega⟩, h1, hx]
    simp only [Option.some.injEq, eq_comm, toLink_natCast]
  · have hx : l.head? = none := h.head ▸ toLink_eq_none.mpr (by omega)
    rw [if_neg hpos, h1, hx]
    simp

theorem memsys5Link_aiFreelist (j : ℕ) :
    (memsys5Link m i k).aiFreelist j = if j = k then (i : ℤ) else m.aiFreelist j := by
  unfold memsys5Link Mem5Global.setFreelist
  dsimp only
  by_cases hj : j = k
  · simp [hj]
  · rw [Function.update_of_ne hj, if_neg hj]
    split_ifs <;> rfl

/-- Linking puts the block at the head of its list. -/
theorem FreelistIs.link (hz : 8 ≤ m.szAtom) (h : FreelistIs m k l) (hi : i < 2147483648)
    (hnew : i ∉ l) : FreelistIs (memsys5Link m i k) k (i :: l) := by
  have hd : ∀ y ∈ l, y ≠ i := fun y hy e => hnew (e ▸ hy)
  refine ⟨?_, ?_, ?_, List.nodup_cons.mpr ⟨hnew, h.nodup⟩⟩
  · rw [memsys5Link_aiFreelist, if_pos rfl]
    exact ⟨by omega, by omega⟩
  · rw [memsys5Link_aiFreelist, if_pos rfl]
    exact toLink_natCast i
  · refine h.links.push hnew ?_ ?_ (fun y hy => ?_) (fun y hy => ?_) h.nodup
    · rw [memsys5Link_nextOf hz h, if_pos rfl]
    · have hne : l.head? ≠ some i := fun e => hnew (List.mem_of_head? e)
      rw [memsys5Link_prevOf hz h hi, if_neg hne, if_pos rfl]
    · rw [memsys5Link_nextOf hz h, if_neg (hd y hy)]
    · rw [memsys5Link_prevOf hz h hi, if_neg (hd y hy)]

/-- A list is unchanged by linking a block that is not on it into another list. -/
theorem FreelistIs.link_other {j : ℕ} {l' : List ℕ} (hz : 8 ≤ m.szAtom) (h : FreelistIs m k l)
    (hi : i < 2147483648) (h' : FreelistIs m j l') (hj : j ≠ k) (hnew : i ∉ l')
    (hd : ∀ x ∈ l, x ∉ l') : FreelistIs (memsys5Link m i k) j l' := by
  have he : (memsys5Link m i k).aiFreelist j = m.aiFreelist j := by
    rw [memsys5Link_aiFreelist, if_neg hj]
  have hne : ∀ y ∈ l', y ≠ i := fun y hy e => hnew (e ▸ hy)
  refine ⟨he ▸ h'.isInt, he ▸ h'.head, h'.links.congr (fun y hy => ?_) (fun y hy => ?_), h'.nodup⟩
  · rw [memsys5Link_nextOf hz h, if_neg (hne y hy)]
  · have hh : l.head? ≠ some y := fun e => hd y (List.mem_of_head? e) hy
    rw [memsys5Link_prevOf hz h hi, if_neg hh, if_neg (hne y hy)]

end Edit
end Sqlite.Mem5
