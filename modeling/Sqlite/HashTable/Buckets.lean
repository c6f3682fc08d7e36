import Sqlite.Foundation.Chain
import Sqlite.Foundation.Links
import Sqlite.HashTable.Model

/-! Buckets as runs of consecutive elements of the list, and how linking and unlinking an element
change them. -/
namespace Sqlite.HashTable

open Foundation

variable {slot : ℕ → ℕ} {l : List ℕ} {e : HtEntry} {x y h : ℕ}

/-- The elements with slot `h` are consecutive, and `e` says where they begin and how many. -/
def IsBucket (slot : ℕ → ℕ) (l : List ℕ) (h : ℕ) (e : HtEntry) : Prop :=
  ∃ a seg b, l = a ++ (seg ++ b) ∧ seg.length = e.count ∧
    (seg ≠ [] → e.chain = seg.head?) ∧ (∀ z ∈ seg, slot z = h) ∧ ∀ z ∈ a ++ b, slot z ≠ h

/-- The elements `l` are linked in this order, bucket by bucket if there is an array of them. -/
structure Linked (H : Hash) (l : List ℕ) : Prop where
  links : Links H.next H.prev none l
  first : H.first = l.head?
  nodup : l.Nodup
  noArray : H.ht = none → H.htsize = 0
  array : ∀ ht, H.ht = some ht → 0 < H.htsize ∧
    ∀ h, IsBucket (fun z => slotOf H.htsize (H.pKey z)) l h (ht h)

structure Inv (H : Hash) (l : List ℕ) : Prop extends Linked H l where
  count : H.count = l.length
  live : ∀ z, H.live z = true ↔ z ∈ l

namespace IsBucket

theorem empty (h : ℕ) (chain : Option ℕ) : IsBucket slot [] h ⟨0, chain⟩ :=
  ⟨[], [], [], rfl, rfl, fun hc => absurd rfl hc, fun _ hz => absurd hz List.not_mem_nil,
    fun _ hz => absurd hz List.not_mem_nil⟩

theorem congr {slot' : ℕ → ℕ} (hb : IsBucket slot l h e) (hs : ∀ z ∈ l, slot' z = slot z) :
    IsBucket slot' l h e := by
  obtain ⟨a, seg, b, rfl, h1, h2, h3, h4⟩ := hb
  refine ⟨a, seg, b, rfl, h1, h2, fun z hz => ?_, fun z hz => ?_⟩
  · rw [hs z (by simp [hz])]
    exact h3 z hz
  · rw [hs z (by
      rcases List.mem_append.mp hz with hz | hz
      · simp [hz]
      · simp [hz])]
    exact h4 z hz

/-- A new element at the front of the list starts a bucket that was empty. -/
theorem pushFront (hb : IsBucket slot l (slot x) e) (he : e.count = 0) :
    IsBucket slot (x :: l) (slot x) ⟨e.count + 1, some x⟩ := by
  obtain ⟨a, seg, b, rfl, h1, -, -, h4⟩ := hb
  obtain rfl := List.eq_nil_of_length_eq_zero (h1.trans he)
  refine ⟨[], [x], a ++ b, rfl, by rw [he]; rfl, fun _ => rfl, fun z hz => ?_, h4⟩
  rw [List.mem_singleton.mp hz]

theorem pushFront_other (hb : IsBucket slot l h e) (hx : slot x ≠ h) :
    IsBucket slot (x :: l) h e := by
  obtain ⟨a, seg, b, rfl, h1, h2, h3, h4⟩ := hb
  refine ⟨x :: a, seg, b, rfl, h1, h2, h3, fun z hz => ?_⟩
  rcases List.mem_cons.mp hz with rfl | hz
  · exact hx
  · exact h4 z hz

/-- A new element in front of its bucket becomes the first of it. -/
theorem push (hb : IsBucket slot l (slot x) e) (he : e.count ≠ 0) :
    ∃ y, e.chain = some y ∧ y ∈ l ∧ slot y = slot x ∧
      IsBucket slot (insertBefore x y l) (slot x) ⟨e.count + 1, some x⟩ := by
  obtain ⟨a, seg, b, rfl, h1, h2, h3, h4⟩ := hb
  cases seg with
  | nil => exact absurd h1.symm he
  | cons y seg =>
    have hya : y ∉ a := fun hy => h4 y (by simp [hy]) (h3 y List.mem_cons_self)
    refine ⟨y, h2 (List.cons_ne_nil _ _), by simp, h3 y List.mem_cons_self,
      a, x :: y :: seg, b, ?_, congrArg (· + 1) h1, fun _ => rfl, fun z hz => ?_, h4⟩
    · rw [insertBefore_append_right hya, List.cons_append, insertBefore, if_pos rfl]
      rfl
    · rcases List.mem_cons.mp hz with rfl | hz
      · rfl
      · exact h3 z hz

/-- An element put in front of another bucket's element splits no bucket. -/
theorem push_other (hb : IsBucket slot l h e) (hx : slot x ≠ h) (hyl : y ∈ l) (hy : slot y ≠ h) :
    IsBucket slot (insertBefore x y l) h e := by
  obtain ⟨a, seg, b, rfl, h1, h2, h3, h4⟩ := hb
  have hseg : y ∉ seg := fun hc => hy (h3 y hc)
  have hout : ∀ c : List ℕ, y ∈ c → (∀ z ∈ c, slot z ≠ h) →
      ∀ z ∈ insertBefore x y c, slot z ≠ h := by
    intro c hc hne z hz
    rcases List.mem_cons.mp ((insertBefore_perm hc).mem_iff.mp hz) with rfl | hz
    · exact hx
    · exact hne z hz
  by_cases hya : y ∈ a
  · refine ⟨insertBefore x y a, seg, b, insertBefore_append_left hya, h1, h2, h3, fun z hz => ?_⟩
    rcases List.mem_append.mp hz with hz | hz
    · exact hout a hya (fun w hw => h4 w (by simp [hw])) z hz
    · exact h4 z (by simp [hz])
  · have hyb : y ∈ b := by
      rcases List.mem_append.mp hyl with hc | hc
      · exact absurd hc hya
      · exact (List.mem_append.mp hc).resolve_left hseg
    refine ⟨a, seg, insertBefore x y b, ?_, h1, h2, h3, fun z hz => ?_⟩
    · rw [insertBefore_append_right hya, insertBefore_append_right hseg]
    · rcases List.mem_append.mp hz with hz | hz
      · exact h4 z (by simp [hz])
      · exact hout b hyb (fun w hw => h4 w (by simp [hw])) z hz

/-- The bucket of an element that is taken out. -/
theorem erase {next prev : ℕ → Option ℕ} {p : Option ℕ} (hb : IsBucket slot l (slot x) e)
    (hl : Links next prev p l) (hnd : l.Nodup) (hx : x ∈ l) :
    IsBucket slot (l.erase x) (slot x)
      ⟨e.count - 1, if e.chain = some x then next x else e.chain⟩ := by
  obtain ⟨a, seg, b, rfl, h1, h2, h3, h4⟩ := hb
  have hxa : x ∉ a := fun hc => h4 x (by simp [hc]) rfl
  have hxb : x ∉ b := fun hc => h4 x (by simp [hc]) rfl
  have hxs : x ∈ seg := by
    rcases List.mem_append.mp hx with hc | hc
    · exact absurd hc hxa
    · exact (List.mem_append.mp hc).resolve_right hxb
  refine ⟨a, seg.erase x, b, ?_, ?_, fun hne => ?_, fun z hz => h3 z (List.mem_of_mem_erase hz), h4⟩
  · rw [List.erase_append_right _ hxa, List.erase_append_left _ hxs]
  · rw [List.length_erase_of_mem hxs, h1]
  · cases seg with
    | nil => cases hxs
    | cons w seg =>
      dsimp only
      rw [h2 (List.cons_ne_nil _ _), List.head?_cons]
      by_cases hwx : w = x
      · subst hwx
        rw [if_pos rfl, List.erase_cons_head]
        rw [List.erase_cons_head] at hne
        have hnx : next w = (seg ++ b).head? := Links.next_of_append (a := a) hl
        rw [hnx, List.head?_append_of_ne_nil _ hne]
      · rw [if_neg (fun hc => hwx (Option.some.inj hc)), List.erase_cons_tail (by simpa using hwx)]
        rfl

theorem erase_other (hb : IsBucket slot l h e) (hx : slot x ≠ h) : IsBucket slot (l.erase x) h e := by
  obtain ⟨a, seg, b, rfl, h1, h2, h3, h4⟩ := hb
  have hxs : x ∉ seg := fun hc => hx (h3 x hc)
  by_cases hxa : x ∈ a
  · refine ⟨a.erase x, seg, b, List.erase_append_left _ hxa, h1, h2, h3, fun z hz => h4 z ?_⟩
    rcases List.mem_append.mp hz with hz | hz
    · simp [List.mem_of_mem_erase hz]
    · simp [hz]
  · refine ⟨a, seg, b.erase x, ?_, h1, h2, h3, fun z hz => h4 z ?_⟩
    · rw [List.erase_append_right _ hxa, List.erase_append_right _ hxs]
    · rcases List.mem_append.mp hz with hz | hz
      · simp [hz]
      · simp [List.mem_of_mem_erase hz]

end IsBucket

section Insert
variable {H : Hash}

@[simp] theorem insertElement_htsize (H : Hash) (o : Option ℕ) (x : ℕ) :
    (insertElement H o x).htsize = H.htsize := by
  unfold insertElement bucketPush
  dsimp only
  repeat' split
  all_goals rfl

@[simp] theorem insertElement_count (H : Hash) (o : Option ℕ) (x : ℕ) :
    (insertElement H o x).count = H.count := by
  unfold insertElement bucketPush
  dsimp only
  repeat' split
  all_goals rfl

@[simp] theorem insertElement_pKey (H : Hash) (o : Option ℕ) (x : ℕ) :
    (insertElement H o x).pKey = H.pKey := by
  unfold insertElement bucketPush
  dsimp only
  repeat' split
  all_goals rfl

@[simp] theorem insertElement_data (H : Hash) (o : Option ℕ) (x : ℕ) :
    (insertElement H o x).data = H.data := by
  unfold insertElement bucketPush
  dsimp only
  repeat' split
  all_goals rfl

@[simp] theorem insertElement_live (H : Hash) (o : Option ℕ) (x : ℕ) :
    (insertElement H o x).live = H.live := by
  unfold insertElement bucketPush
  dsimp only
  repeat' split
  all_goals rfl

end Insert

end Sqlite.HashTable
