import Mathlib.Data.List.Basic
import Mathlib.Data.List.Nodup
import Mathlib.Data.List.Perm.Subperm
import Sqlite.Foundation.Chain

/-! Doubly linked lists given by two link maps. `Links next prev p l` says that the nodes of
`l` are threaded in order, entered from `p`, and that the last one leads nowhere. -/
namespace Sqlite.Foundation

variable {α : Type*} {next prev next' prev' : α → Option α} {p : Option α} {l : List α} {x y : α}

def Links (next prev : α → Option α) : Option α → List α → Prop
  | _, [] => True
  | p, x :: l => prev x = p ∧ next x = l.head? ∧ Links next prev (some x) l

/-- Links read only the nodes of the list. -/
theorem Links.congr (h : Links next prev p l) (hn : ∀ x ∈ l, next' x = next x)
    (hp : ∀ x ∈ l, prev' x = prev x) : Links next' prev' p l := by
  induction l generalizing p with
  | nil => trivial
  | cons x l ih =>
    obtain ⟨h1, h2, h3⟩ := h
    refine ⟨(hp x (by simp)).trans h1, (hn x (by simp)).trans h2, ?_⟩
    exact ih h3 (fun y hy => hn y (by simp [hy])) (fun y hy => hp y (by simp [hy]))

theorem Links.next_mem (h : Links next prev p l) (hx : x ∈ l) (hy : next x = some y) :
    y ∈ l := by
  induction l generalizing p with
  | nil => simp at hx
  | cons z l ih =>
    obtain ⟨_, h2, h3⟩ := h
    rcases List.mem_cons.mp hx with rfl | hx
    · exact List.mem_cons_of_mem _ (List.mem_of_head? (h2 ▸ hy))
    · exact List.mem_cons_of_mem _ (ih h3 hx)

theorem Links.prev_mem (h : Links next prev p l) (hx : x ∈ l) (hy : prev x = some y) :
    p = some y ∨ y ∈ l := by
  induction l generalizing p with
  | nil => simp at hx
  | cons z l ih =>
    obtain ⟨h1, _, h3⟩ := h
    rcases List.mem_cons.mp hx with rfl | hx
    · exact Or.inl (h1 ▸ hy)
    · rcases ih h3 hx with he | hm
      · exact Or.inr (by simp [Option.some.inj he])
      · exact Or.inr (List.mem_cons_of_mem _ hm)

private theorem Links.prev_ne_none (h : Links next prev (some y) l) (hx : x ∈ l) :
    prev x ≠ none := by
  induction l generalizing y with
  | nil => simp at hx
  | cons w l ih =>
    obtain ⟨h1, _, h3⟩ := h
    rcases List.mem_cons.mp hx with rfl | hx
    · simp [h1]
    · exact ih h3 hx

/-- Only the first node is entered from outside. -/
theorem Links.prev_eq_iff (h : Links next prev p l) (hp : ∀ y, p = some y → y ∉ l)
    (hnd : l.Nodup) (hx : x ∈ l) : prev x = p ↔ l.head? = some x := by
  cases l with
  | nil => simp at hx
  | cons z l =>
    obtain ⟨h1, _, h3⟩ := h
    rcases List.mem_cons.mp hx with rfl | hx'
    · simp [h1]
    have hzx : z ≠ x := fun e => (List.nodup_cons.mp hnd).1 (e ▸ hx')
    have hne : prev x ≠ p := by
      intro he
      cases hpx : prev x with
      | none => exact h3.prev_ne_none hx' hpx
      | some y =>
        rcases h3.prev_mem hx' hpx with e | hm
        · exact hp y (he ▸ hpx) (by simp [Option.some.inj e])
        · exact hp y (he ▸ hpx) (List.mem_cons_of_mem _ hm)
    simp [hne, hzx]

theorem Links.prev_ne_self (h : Links next prev none l) (hnd : l.Nodup) (hx : x ∈ l) :
    prev x ≠ some x := by
  obtain ⟨a, b, rfl⟩ := List.append_of_mem hx
  have hxa : x ∉ a := fun hc =>
    (List.nodup_append.mp hnd).2.2 x hc x List.mem_cons_self rfl
  have key : ∀ {p : Option α}, p ≠ some x → Links next prev p (a ++ x :: b) → prev x ≠ some x := by
    clear h hnd hx
    induction a with
    | nil => exact fun hp h => h.1 ▸ hp
    | cons z a ih =>
      intro p _ h
      have hz : z ≠ x := fun e => hxa (List.mem_cons.mpr (Or.inl e.symm))
      exact ih (fun hc => hxa (List.mem_cons_of_mem _ hc)) (fun hc => hz (Option.some.inj hc)) h.2.2
  exact key (Option.some_ne_none x).symm h

/-- Only the last node leads nowhere. -/
theorem Links.next_eq_none_iff (h : Links next prev p l) (hnd : l.Nodup) (hx : x ∈ l) :
    next x = none ↔ l.getLast? = some x := by
  induction l generalizing p with
  | nil => simp at hx
  | cons z l ih =>
    obtain ⟨_, h2, h3⟩ := h
    obtain ⟨hz, hnd'⟩ := List.nodup_cons.mp hnd
    rcases List.mem_cons.mp hx with rfl | hx'
    · cases l with
      | nil => simp [h2]
      | cons w l =>
        have hne : (w :: l).getLast? ≠ some x := fun e => hz (List.mem_of_getLast? e)
        simpa [h2, List.getLast?_cons_cons] using hne
    · cases l with
      | nil => simp at hx'
      | cons w l => simpa [List.getLast?_cons_cons] using ih h3 hnd' hx'

theorem Links.chain (h : Links next prev p l) : Chain next l.head? l := by
  induction l generalizing p with
  | nil => rfl
  | cons x l ih =>
    obtain ⟨-, h2, h3⟩ := h
    refine ⟨rfl, ?_⟩
    rw [h2]
    exact ih h3

theorem Links.next_of_append {a b : List α} (h : Links next prev p (a ++ x :: b)) :
    next x = b.head? := by
  induction a generalizing p with
  | nil => exact h.2.1
  | cons y a ih => exact ih h.2.2

theorem Links.next_ne_self (h : Links next prev p l) (hnd : l.Nodup) (hx : x ∈ l) :
    next x ≠ some x := by
  obtain ⟨a, b, rfl⟩ := List.append_of_mem hx
  have hxb : x ∉ b := (List.nodup_cons.mp (List.nodup_append.mp hnd).2.1).1
  rw [h.next_of_append]
  exact fun hc => hxb (List.mem_of_head? hc)

theorem Links.prev_of_append {a b : List α} (h : Links next prev none (a ++ x :: b)) :
    prev x = a.getLast? := by
  have key : ∀ (a : List α) {p : Option α}, Links next prev p (a ++ x :: b) →
      prev x = a.getLast?.or p := by
    intro a
    induction a with
    | nil => exact fun h => h.1
    | cons y a ih =>
      intro p h
      rw [ih h.2.2, List.getLast?_cons]
      cases a.getLast? <;> rfl
  rw [key a h]
  cases a.getLast? <;> rfl

/-- A list of distinct numbers below `n` has at most `n` members. -/
theorem length_le_of_nodup {l : List ℕ} {n : ℕ} (hnd : l.Nodup) (h : ∀ x ∈ l, x < n) :
    l.length ≤ n := by
  have hsub : l ⊆ List.range n := fun x hx => List.mem_range.mpr (h x hx)
  simpa using (hnd.subperm hsub).length_le

section Edit
variable [DecidableEq α]

/-- Taking `x` out redirects its predecessor's forward link and its successor's backward link. -/
theorem Links.unlink (h : Links next prev p l) (hp : ∀ y, p = some y → y ∉ l) (hnd : l.Nodup)
    (hx : x ∈ l)
    (hn : ∀ y ∈ l, y ≠ x → next' y = if prev x = some y then next x else next y)
    (hv : ∀ y ∈ l, y ≠ x → prev' y = if next x = some y then prev x else prev y) :
    Links next' prev' p (l.erase x) := by
  induction l generalizing p with
  | nil => simp at hx
  | cons z t ih =>
    obtain ⟨h1, h2, h3⟩ := h
    obtain ⟨hz, hnd'⟩ := List.nodup_cons.mp hnd
    by_cases hzx : z = x
    · subst hzx
      rw [List.erase_cons_head]
      cases t with
      | nil => trivial
      | cons w t =>
        obtain ⟨g1, g2, g3⟩ := h3
        obtain ⟨hw, -⟩ := List.nodup_cons.mp hnd'
        have hout : ∀ y ∈ w :: t, prev z ≠ some y := fun y hy e =>
          hp y (h1 ▸ e) (List.mem_cons_of_mem _ hy)
        have hne : ∀ y ∈ w :: t, y ≠ z := fun y hy e => hz (e ▸ hy)
        refine ⟨?_, ?_, g3.congr (fun y hy => ?_) (fun y hy => ?_)⟩
        · rw [hv w (by simp) (hne w (by simp)), if_pos (by simp [h2]), h1]
        · rw [hn w (by simp) (hne w (by simp)), if_neg (hout w (by simp)), g2]
        · rw [hn y (by simp [hy]) (hne y (by simp [hy])), if_neg (hout y (by simp [hy]))]
        · have hyw : next z ≠ some y := by
            rw [h2]
            rintro e
            exact hw (Option.some.inj e ▸ hy)
          rw [hv y (by simp [hy]) (hne y (by simp [hy])), if_neg hyw]
    · have hx' : x ∈ t := (List.mem_cons.mp hx).resolve_left (fun e => hzx e.symm)
      have hpz : ∀ y, some z = some y → y ∉ t := fun y e => Option.some.inj e ▸ hz
      have hhead := h3.prev_eq_iff hpz hnd' hx'
      rw [List.erase_cons_tail (by simpa using hzx)]
      refine ⟨?_, ?_, ih h3 hpz hnd' hx' (fun y hy => hn y (by simp [hy]))
        (fun y hy => hv y (by simp [hy]))⟩
      · have hne : next x ≠ some z := fun e => hz (h3.next_mem hx' e)
        rw [hv z (by simp) hzx, if_neg hne, h1]
      · rw [hn z (by simp) hzx]
        cases t with
        | nil => simp at hx'
        | cons w t =>
          by_cases hw : w = x
          · subst hw
            rw [if_pos (hhead.mpr rfl), List.erase_cons_head, h3.2.1]
          · rw [if_neg (fun e => hw (by simpa using hhead.mp e)), h2,
              List.erase_cons_tail (by simpa using hw)]
            rfl

theorem getLast?_erase_of_ne (hnd : l.Nodup) (hx : l.getLast? ≠ some x) :
    (l.erase x).getLast? = l.getLast? := by
  induction l with
  | nil => rfl
  | cons z t ih =>
    obtain ⟨hz, hnd'⟩ := List.nodup_cons.mp hnd
    by_cases hzx : z = x
    · subst hzx
      rw [List.erase_cons_head]
      cases t with
      | nil => simp at hx
      | cons w t => rw [List.getLast?_cons_cons]
    · rw [List.erase_cons_tail (by simpa using hzx)]
      cases t with
      | nil => rfl
      | cons w t =>
        rw [List.getLast?_cons_cons] at hx
        rw [List.getLast?_cons, List.getLast?_cons, ih hnd' hx]

/-- The node before the last one becomes the last. -/
private theorem Links.getLast?_erase (h : Links next prev p l) (hnd : l.Nodup)
    (hx : l.getLast? = some x) : prev x = (l.erase x).getLast?.or p := by
  induction l generalizing p with
  | nil => simp at hx
  | cons z t ih =>
    obtain ⟨h1, -, h3⟩ := h
    obtain ⟨hz, hnd'⟩ := List.nodup_cons.mp hnd
    cases t with
    | nil =>
      obtain rfl : z = x := by simpa using hx
      simpa using h1
    | cons w t =>
      rw [List.getLast?_cons_cons] at hx
      have hzx : z ≠ x := fun e => hz (e ▸ List.mem_of_getLast? hx)
      rw [List.erase_cons_tail (by simpa using hzx), ih h3 hnd' hx, List.getLast?_cons]
      cases ((w :: t).erase x).getLast? <;> simp

/-- The last node after taking `x` out. -/
theorem Links.last_unlink (h : Links next prev none l) (hnd : l.Nodup) :
    (if l.getLast? = some x then prev x else l.getLast?) = (l.erase x).getLast? := by
  split_ifs with hx
  · simpa using h.getLast?_erase hnd hx
  · exact (getLast?_erase_of_ne hnd hx).symm

/-- The first node after taking `x` out. -/
theorem Links.head_unlink (h : Links next prev p l) :
    (if l.head? = some x then next x else l.head?) = (l.erase x).head? := by
  cases l with
  | nil => simp
  | cons z t =>
    by_cases hzx : z = x
    · subst hzx
      rw [if_pos List.head?_cons, List.erase_cons_head, h.2.1]
    · rw [List.erase_cons_tail (by simpa using hzx)]
      simp [hzx]

/-- A new head is entered from nowhere and becomes the old head's predecessor. -/
theorem Links.push (h : Links next prev none l) (hx : x ∉ l) (hnx : next' x = l.head?)
    (hpx : prev' x = none) (hn : ∀ y ∈ l, next' y = next y)
    (hv : ∀ y ∈ l, prev' y = if l.head? = some y then some x else prev y) (hnd : l.Nodup) :
    Links next' prev' none (x :: l) := by
  refine ⟨hpx, hnx, ?_⟩
  cases l with
  | nil => trivial
  | cons w t =>
    obtain ⟨_, g2, g3⟩ := h
    obtain ⟨hw, -⟩ := List.nodup_cons.mp hnd
    refine ⟨by simpa using hv w (by simp), (hn w (by simp)).trans g2, ?_⟩
    refine g3.congr (fun y hy => hn y (by simp [hy])) (fun y hy => ?_)
    have hyw : w ≠ y := fun e => hw (e ▸ hy)
    simpa [hyw] using hv y (by simp [hy])

/-- Put `x` in front of `y`. -/
def insertBefore (x y : α) : List α → List α
  | [] => []
  | z :: t => if z = y then x :: z :: t else z :: insertBefore x y t

theorem insertBefore_append_left {a b : List α} (h : y ∈ a) :
    insertBefore x y (a ++ b) = insertBefore x y a ++ b := by
  induction a with
  | nil => cases h
  | cons z a ih =>
    rw [List.cons_append, insertBefore, insertBefore]
    by_cases hz : z = y
    · rw [if_pos hz, if_pos hz]
      rfl
    · rw [if_neg hz, if_neg hz, ih ((List.mem_cons.mp h).resolve_left (fun e => hz e.symm))]
      rfl

theorem insertBefore_append_right {a b : List α} (h : y ∉ a) :
    insertBefore x y (a ++ b) = a ++ insertBefore x y b := by
  induction a with
  | nil => rfl
  | cons z a ih =>
    have hz : z ≠ y := fun e => h (List.mem_cons.mpr (Or.inl e.symm))
    rw [List.cons_append, insertBefore, if_neg hz, ih (fun hy => h (List.mem_cons_of_mem _ hy))]
    rfl

theorem insertBefore_perm (h : y ∈ l) : (insertBefore x y l).Perm (x :: l) := by
  induction l with
  | nil => cases h
  | cons z t ih =>
    rw [insertBefore]
    by_cases hz : z = y
    · rw [if_pos hz]
    · rw [if_neg hz]
      have h1 := ih ((List.mem_cons.mp h).resolve_left (fun e => hz e.symm))
      exact (h1.cons z).trans (List.Perm.swap x z t)

theorem head?_insertBefore (x : α) (h : l.head? = some y) :
    (insertBefore x y l).head? = some x := by
  cases l with
  | nil => cases h
  | cons z t =>
    rw [insertBefore, if_pos (Option.some.inj h)]
    rfl

theorem head?_insertBefore_of_ne (x : α) (h : l.head? ≠ some y) :
    (insertBefore x y l).head? = l.head? := by
  cases l with
  | nil => rfl
  | cons z t =>
    rw [insertBefore, if_neg (fun e => h (congrArg some e))]
    rfl

/-- A new node in front of `y` takes over the link from `y`'s predecessor. -/
theorem Links.insertBefore (h : Links next prev p l) (hp : ∀ z, p = some z → z ∉ l)
    (hnd : l.Nodup) (hy : y ∈ l) (hnx : next' x = some y) (hpx : prev' x = prev y)
    (hn : ∀ z ∈ l, next' z = if prev y = some z then some x else next z)
    (hv : ∀ z ∈ l, prev' z = if z = y then some x else prev z) :
    Links next' prev' p (insertBefore x y l) := by
  induction l generalizing p with
  | nil => cases hy
  | cons z t ih =>
    obtain ⟨h1, h2, h3⟩ := h
    obtain ⟨hz, hnd'⟩ := List.nodup_cons.mp hnd
    have hpz : ∀ w, some z = some w → w ∉ t := fun w e => Option.some.inj e ▸ hz
    rw [Foundation.insertBefore]
    by_cases hzy : z = y
    · subst hzy
      rw [if_pos rfl]
      have hout : ∀ w ∈ z :: t, prev z ≠ some w := fun w hw e => hp w (h1 ▸ e) hw
      refine ⟨hpx.trans h1, hnx, ?_, ?_, ?_⟩
      · rw [hv z List.mem_cons_self, if_pos rfl]
      · rw [hn z List.mem_cons_self, if_neg (hout z List.mem_cons_self)]
        exact h2
      · refine h3.congr (fun w hw => ?_) (fun w hw => ?_)
        · rw [hn w (List.mem_cons_of_mem _ hw), if_neg (hout w (List.mem_cons_of_mem _ hw))]
        · rw [hv w (List.mem_cons_of_mem _ hw), if_neg (ne_of_mem_of_not_mem hw hz)]
    · have hyt : y ∈ t := (List.mem_cons.mp hy).resolve_left (fun e => hzy e.symm)
      have hhead := h3.prev_eq_iff hpz hnd' hyt
      rw [if_neg hzy]
      refine ⟨?_, ?_, ih h3 hpz hnd' hyt (fun w hw => hn w (List.mem_cons_of_mem _ hw))
        (fun w hw => hv w (List.mem_cons_of_mem _ hw))⟩
      · rw [hv z List.mem_cons_self, if_neg hzy, h1]
      · rw [hn z List.mem_cons_self]
        by_cases hh : t.head? = some y
        · rw [if_pos (hhead.mpr hh), head?_insertBefore x hh]
        · rw [if_neg (fun e => hh (hhead.mp e)), head?_insertBefore_of_ne x hh, h2]

end Edit
end Sqlite.Foundation
