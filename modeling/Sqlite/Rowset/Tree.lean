import Mathlib.Data.List.Lattice
import Sqlite.Rowset.Lists

/-! Search trees of entries in memory: a tree is turned into the list of its entries in order, and a
list back into a tree. -/
namespace Sqlite.Rowset

open Foundation

variable {m m' : Heap} {p q : Option ℕ} {l F : List ℕ} {a n d : ℕ} {x : ℤ}

/-- The entries of a tree. -/
inductive Shape
  | nil
  | node (left : Shape) (a : ℕ) (right : Shape)

def Shape.toList : Shape → List ℕ
  | nil => []
  | node l a r => l.toList ++ a :: r.toList

def IsTree (m : Heap) : Option ℕ → Shape → Prop
  | p, .nil => p = none
  | p, .node l a r => p = some a ∧ IsTree m (m a).pLeft l ∧ IsTree m (m a).pRight r

variable {t : Shape}

theorem IsTree.congr (h : IsTree m p t) (hm : ∀ a ∈ t.toList, m' a = m a) : IsTree m' p t := by
  induction t generalizing p with
  | nil => exact h
  | node l a r ihl ihr =>
    obtain ⟨rfl, hl, hr⟩ := h
    simp only [Shape.toList, List.mem_append, List.mem_cons] at hm
    refine ⟨rfl, ?_, ?_⟩
    · rw [hm a (by simp)]
      exact ihl hl fun b hb => hm b (Or.inl hb)
    · rw [hm a (by simp)]
      exact ihr hr fun b hb => hm b (Or.inr (Or.inr hb))

theorem IsTree.keeps (h : IsTree m p t) (hk : Keeps F m m') (hd : F.Disjoint t.toList) :
    IsTree m' p t :=
  h.congr fun a ha => hk.out a fun hF => hd hF ha

theorem IsTree.nil_of_none (h : IsTree m none t) : t = .nil := by
  cases t with
  | nil => rfl
  | node l a r => cases h.1

theorem IsTree.node_of_some (h : IsTree m (some a) t) : ∃ l r, t = .node l a r := by
  cases t with
  | nil => cases h
  | node l b r =>
    obtain rfl := Option.some.inj h.1
    exact ⟨l, r, rfl⟩

theorem leftToList_spec {f : Heap → ℕ → Option (Heap × ℕ × ℕ)} {l : Shape}
    (hf : ∀ b, IsTree m (some b) l → ∃ m' first last, f m b = some (m', first, last) ∧
      Chain (right m') (some first) l.toList ∧ l.toList.getLast? = some last ∧
      Keeps l.toList m m')
    (h : IsTree m (m a).pLeft l) (hnd : l.toList.Nodup) (ha : a ∉ l.toList) :
    ∃ m' first, leftToList f m a = some (m', first) ∧
      Seg (right m') (some first) l.toList (some a) ∧ Keeps l.toList m m' := by
  rw [leftToList]
  cases hleft : (m a).pLeft with
  | none =>
    rw [hleft] at h
    obtain rfl := h.nil_of_none
    exact ⟨m, a, rfl, rfl, Keeps.refl _ m⟩
  | some b =>
    rw [hleft] at h
    obtain ⟨m', first, last, hm, hchain, hlast, hkeep⟩ := hf b h
    refine ⟨m'.setRight last (some a), first, by dsimp only; rw [hm]; rfl, ?_, hkeep.trans ?_⟩
    · rw [right_setRight]
      exact hchain.redirect_last hnd hlast
    · apply (keeps_setRight m' last (some a)).mono
      simpa using List.mem_of_getLast? hlast

theorem rowSetTreeToList_spec (h : IsTree m (some a) t) (hnd : t.toList.Nodup)
    (hn : t.toList.length ≤ n) :
    ∃ m' first last, rowSetTreeToList n m a = some (m', first, last) ∧
      Chain (right m') (some first) t.toList ∧ t.toList.getLast? = some last ∧
      Keeps t.toList m m' := by
  induction n generalizing m a t with
  | zero =>
    obtain ⟨l, r, rfl⟩ := h.node_of_some
    simp [Shape.toList] at hn
  | succ n ih =>
    obtain ⟨l, r, rfl⟩ := h.node_of_some
    obtain ⟨-, hl, hr⟩ := h
    simp only [Shape.toList, List.nodup_append', List.nodup_cons, List.disjoint_cons_right,
      List.length_append, List.length_cons] at hnd hn ⊢
    obtain ⟨hndl, ⟨har, hndr⟩, hal, hlr⟩ := hnd
    obtain ⟨m₁, first, hleft, hseg, hkeep₁⟩ :=
      leftToList_spec (fun b hb => ih hb hndl (by omega)) hl hndl hal
    have ha₁ : m₁ a = m a := hkeep₁.out a hal
    have hr₁ : IsTree m₁ (m₁ a).pRight r := by
      rw [ha₁]
      exact hr.keeps hkeep₁ hlr
    rw [rowSetTreeToList, hleft, Option.bind_some, rightToList]
    cases hright : (m₁ a).pRight with
    | none =>
      rw [hright] at hr₁
      obtain rfl := hr₁.nil_of_none
      refine ⟨m₁, first, a, by simp [hright], hseg.chain ⟨rfl, hright⟩, by simp [Shape.toList],
        hkeep₁.mono (by simp)⟩
    | some b =>
      rw [hright] at hr₁
      obtain ⟨m₂, first₂, last, hm₂, hchain, hlast, hkeep₂⟩ := ih hr₁ hndr (by omega)
      have hset := keeps_setRight m₂ a (some first₂)
      have hkeepr : Keeps (a :: r.toList) m₁ (m₂.setRight a (some first₂)) :=
        (hkeep₂.mono (by simp)).trans (hset.mono (by simp))
      have hchain' : Chain (right (m₂.setRight a (some first₂))) (some a) (a :: r.toList) := by
        refine ⟨rfl, ?_⟩
        rw [right_setRight, Function.update_self, ← right_setRight]
        exact hset.chain hchain (by simpa using har)
      have hseg' : Seg (right (m₂.setRight a (some first₂))) (some first) l.toList (some a) := by
        apply hseg.congr
        intro c hc
        rw [right, right, hkeepr.out c (by
          simp only [List.mem_cons, not_or]
          exact ⟨fun heq => hal (heq ▸ hc), fun hcr => hlr hc hcr⟩)]
      have hlast' : (l.toList ++ a :: r.toList).getLast? = some last := by
        rw [List.getLast?_append_of_ne_nil _ (by simp), List.getLast?_cons]
        simp [hlast]
      have hend := (hseg'.chain hchain').last_none hlast'
      refine ⟨m₂.setRight a (some first₂), first, last, ?_, hseg'.chain hchain', hlast',
        (hkeep₁.mono (by simp)).trans (hkeepr.mono (by simp))⟩
      dsimp only
      rw [hm₂, Option.map_some, Option.bind_some]
      exact if_pos hend

theorem rowSetNDeepTree_spec (hd : 0 < d) (h : Chain (right m) p l) (hnd : l.Nodup) :
    ∃ m' root p' t l', rowSetNDeepTree d m p = some (m', root, p') ∧ IsTree m' root t ∧
      l = t.toList ++ l' ∧ Chain (right m') p' l' ∧ Keeps t.toList m m' := by
  induction d generalizing m p l with
  | zero => omega
  | succ d ih =>
    cases p with
    | none =>
      obtain rfl := h.nil_of_none
      exact ⟨m, none, none, .nil, [], by rw [rowSetNDeepTree], rfl, rfl, rfl, Keeps.refl _ m⟩
    | some b =>
      cases d with
      | zero =>
        cases l with
        | nil => cases h
        | cons c l =>
          obtain rfl := Option.some.inj h.1
          refine ⟨_, some b, (m b).pRight, .node .nil b .nil, l, rfl, ⟨rfl, ?_, ?_⟩, rfl, ?_, ?_⟩
          · simp [IsTree]
          · simp [IsTree]
          · apply h.2.congr
            intro c hc
            rw [right, right, Function.update_of_ne]
            rintro rfl
            exact (List.nodup_cons.mp hnd).1 hc
          · refine ⟨fun c => ?_, fun c hc => Function.update_of_ne (by simpa [Shape.toList] using hc) _ _⟩
            rw [Function.update_apply]
            split_ifs with hcb <;> simp [hcb]
      | succ d =>
        obtain ⟨m₁, pLeft, p₁, t₁, l₁, hm₁, ht₁, rfl, hchain₁, hkeep₁⟩ := ih (by omega) h hnd
        rw [rowSetNDeepTree, hm₁, Option.bind_some]
        dsimp only
        cases p₁ with
        | none =>
          obtain rfl := hchain₁.nil_of_none
          exact ⟨m₁, pLeft, none, t₁, [], rfl, ht₁, rfl, rfl, hkeep₁⟩
        | some c =>
          cases l₁ with
          | nil => cases hchain₁
          | cons c' l₁ =>
            obtain rfl := Option.some.inj hchain₁.1
            simp only [List.nodup_append', List.nodup_cons, List.disjoint_cons_right] at hnd
            obtain ⟨-, ⟨hcl, hndl⟩, hct, htl⟩ := hnd
            have hset := keeps_setLeft m₁ c pLeft
            have hchain₂ : Chain (right (m₁.setLeft c pLeft)) (m₁ c).pRight l₁ := by
              rw [right_setLeft]
              exact hchain₁.2
            obtain ⟨m₂, root, p₂, t₂, l₂, hm₂, ht₂, rfl, hchain₃, hkeep₂⟩ :=
              ih (by omega) hchain₂ hndl
            simp only [List.mem_append, not_or, List.disjoint_append_right] at hcl htl
            have hsetR := keeps_setRight m₂ c root
            have hc₂ : m₂ c = (m₁.setLeft c pLeft) c := hkeep₂.out c hcl.1
            dsimp only
            rw [hm₂, Option.map_some]
            refine ⟨m₂.setRight c root, some c, p₂, .node t₁ c t₂, l₂, rfl, ⟨rfl, ?_, ?_⟩, ?_, ?_, ?_⟩
            · rw [setRight_self, hc₂, setLeft_self]
              exact ((ht₁.keeps hset (by simpa using hct)).keeps hkeep₂
                (List.disjoint_symm htl.1)).keeps hsetR (by simpa using hct)
            · rw [setRight_self]
              exact ht₂.keeps hsetR (by simpa using hcl.1)
            · simp [Shape.toList]
            · exact hsetR.chain hchain₃ (by simpa using hcl.2)
            · refine ((hkeep₁.mono ?_).trans (hset.mono ?_)).trans
                ((hkeep₂.mono ?_).trans (hsetR.mono ?_)) <;> simp [Shape.toList]

theorem listToTreeLoop_spec (hd : 0 < d) (ht : IsTree m (some a) t) (h : Chain (right m) p l)
    (hnd : (t.toList ++ l).Nodup) (hn : l.length < n) :
    ∃ m' a' t', listToTreeLoop n m d a p = some (m', a') ∧ IsTree m' (some a') t' ∧
      t'.toList = t.toList ++ l ∧ Keeps (t.toList ++ l) m m' := by
  induction n generalizing m a t p l d with
  | zero => omega
  | succ n ih =>
    cases p with
    | none =>
      obtain rfl := h.nil_of_none
      exact ⟨m, a, t, rfl, ht, by simp, Keeps.refl _ m⟩
    | some b =>
      cases l with
      | nil => cases h
      | cons c l =>
        obtain rfl := Option.some.inj h.1
        simp only [List.nodup_append', List.nodup_cons, List.disjoint_cons_right,
          List.length_cons] at hnd hn
        obtain ⟨hndt, ⟨hbl, hndl⟩, hbt, htl⟩ := hnd
        have hset := keeps_setLeft m b (some a)
        have hchain : Chain (right (m.setLeft b (some a))) (m b).pRight l := by
          rw [right_setLeft]
          exact h.2
        obtain ⟨m₂, root, p₂, t₂, l₂, hm₂, ht₂, rfl, hchain₂, hkeep₂⟩ :=
          rowSetNDeepTree_spec hd hchain hndl
        simp only [List.mem_append, not_or, List.disjoint_append_right, List.nodup_append',
          List.length_append] at hbl htl hndl hn
        have hsetR := keeps_setRight m₂ b root
        have hb₂ : m₂ b = (m.setLeft b (some a)) b := hkeep₂.out b hbl.1
        have hkeep : Keeps (b :: (t₂.toList)) m (m₂.setRight b root) :=
          ((hset.mono (by simp)).trans (hkeep₂.mono (by simp))).trans (hsetR.mono (by simp))
        have htree : IsTree (m₂.setRight b root) (some b) (.node t b t₂) := by
          refine ⟨rfl, ?_, ?_⟩
          · rw [setRight_self, hb₂, setLeft_self]
            apply ht.keeps hkeep
            rw [List.disjoint_cons_left]
            exact ⟨hbt, List.disjoint_symm htl.1⟩
          · rw [setRight_self]
            exact ht₂.keeps hsetR (by simpa using hbl.1)
        obtain ⟨m', a', t', hloop, ht', hlist, hkeep'⟩ := ih (Nat.succ_pos d) htree
          (hsetR.chain hchain₂ (by simpa using hbl.2))
          (by
            simp only [Shape.toList, List.nodup_append', List.nodup_cons,
              List.disjoint_cons_right, List.disjoint_append_left, List.disjoint_cons_left]
            tauto)
          (by omega)
        refine ⟨m', a', t', ?_, ht', ?_, (hkeep.mono ?_).trans (hkeep'.mono ?_)⟩
        · rw [listToTreeLoop, hm₂]
          exact hloop
        · rw [hlist]
          simp [Shape.toList]
        · intro c hc
          simp only [List.mem_cons, List.mem_append] at hc ⊢
          tauto
        · intro c hc
          simp only [Shape.toList, List.mem_cons, List.mem_append] at hc ⊢
          tauto

theorem rowSetListToTree_spec (h : Chain (right m) p l) (hne : l ≠ []) (hnd : l.Nodup)
    (hn : l.length ≤ n) :
    ∃ m' a t, rowSetListToTree n m p = some (m', a) ∧ IsTree m' (some a) t ∧ t.toList = l ∧
      Keeps l m m' := by
  cases l with
  | nil => exact absurd rfl hne
  | cons b l =>
    obtain ⟨rfl, hrest⟩ := h
    obtain ⟨hbl, hndl⟩ := List.nodup_cons.mp hnd
    rw [rowSetListToTree]
    generalize hm₁ : Function.update m b { m b with pLeft := none, pRight := none } = m₁
    have hkeep : Keeps [b] m m₁ := by
      subst hm₁
      refine ⟨fun c => ?_, fun c hc => Function.update_of_ne (by simpa using hc) _ _⟩
      rw [Function.update_apply]
      split_ifs with hcb <;> simp [hcb]
    have hb : m₁ b = { m b with pLeft := none, pRight := none } := by
      rw [← hm₁, Function.update_self]
    have htree : IsTree m₁ (some b) (.node .nil b .nil) := by
      refine ⟨rfl, ?_, ?_⟩ <;> simp [hb, IsTree]
    obtain ⟨m', a', t', hloop, ht', hlist, hkeep'⟩ := listToTreeLoop_spec (n := n) one_pos htree
      (hkeep.chain hrest (by simpa using hbl)) (by simpa [Shape.toList] using hnd)
      (by rw [List.length_cons] at hn; omega)
    exact ⟨m', a', t', hloop, ht', hlist,
      (hkeep.mono (by simp)).trans (hkeep'.mono (by simp [Shape.toList]))⟩

/-- The search finds the values of a sorted tree. -/
theorem treeSearch_spec (h : IsTree m p t) (hs : (vals m t.toList).Pairwise (· < ·))
    (hn : t.toList.length < n) :
    ∃ found, treeSearch n m x p = some found ∧ (found = true ↔ x ∈ vals m t.toList) := by
  induction n generalizing p t with
  | zero => omega
  | succ n ih =>
    cases t with
    | nil =>
      obtain rfl : p = none := h
      exact ⟨false, rfl, by simp [Shape.toList]⟩
    | node l a r =>
      obtain ⟨rfl, hl, hr⟩ := h
      simp only [Shape.toList, vals_append, vals_cons, List.pairwise_append, List.pairwise_cons,
        List.length_append, List.length_cons, List.mem_append, List.mem_cons] at hs hn ⊢
      obtain ⟨hsl, ⟨har, hsr⟩, hlr⟩ := hs
      rw [treeSearch]
      split_ifs with hlt hgt
      · obtain ⟨found, hfound, hiff⟩ := ih hr hsr (by omega)
        refine ⟨found, hfound, hiff.trans ⟨fun hx => Or.inr (Or.inr hx), ?_⟩⟩
        rintro (hx | hx | hx)
        · exact absurd (hlr x hx (m a).v (by simp)) (not_lt.mpr hlt.le)
        · exact absurd hx (ne_of_gt hlt)
        · exact hx
      · obtain ⟨found, hfound, hiff⟩ := ih hl hsl (by omega)
        refine ⟨found, hfound, hiff.trans ⟨fun hx => Or.inl hx, ?_⟩⟩
        rintro (hx | hx | hx)
        · exact hx
        · exact absurd hx (ne_of_lt hgt)
        · exact absurd (har x hx) (not_lt.mpr hgt.le)
      · have heq : x = (m a).v := le_antisymm (not_lt.mp hlt) (not_lt.mp hgt)
        exact ⟨true, rfl, by simp [heq]⟩

end Sqlite.Rowset
