import Sqlite.HashTable.Insert

/-! Keys that agree up to the case of ASCII letters, and the search for a key. -/
namespace Sqlite.HashTable

open Foundation

variable {H : Hash} {l : List ℕ} {x h : ℕ} {key : List UInt8} {extra : Option ℕ}

/-- The key with upper case folded to lower case. -/
def fold (z : List UInt8) : List UInt8 := z.map sqlite3UpperToLower

theorem sqlite3UpperToLower_zero_iff (c : UInt8) : sqlite3UpperToLower c = 0 ↔ c = 0 := by
  unfold sqlite3UpperToLower
  split
  · next hc =>
    obtain ⟨h1, h2⟩ := hc
    rw [UInt8.le_iff_toNat_le] at h1 h2
    have h3 : (c + 32).toNat = (c.toNat + 32) % 256 := UInt8.toNat_add c 32
    constructor
    · intro h
      rw [h] at h3
      change 65 ≤ c.toNat at h1
      change c.toNat ≤ 90 at h2
      change 0 = _ at h3
      omega
    · rintro rfl
      exact absurd h1 (by decide)
  · rfl

/-- Keys that agree after folding fall into the same bucket. -/
theorem strHash_eq_of_fold {z w : List UInt8} (h : fold z = fold w) : strHash z = strHash w := by
  have hf : ∀ z, strHash z = (fold z).foldl (fun (h : UInt32) c => (h <<< 3) ^^^ h ^^^ c.toUInt32) 0 := by
    intro z
    unfold fold
    rw [List.foldl_map]
    rfl
  rw [hf, hf, h]

theorem slotOf_eq_of_fold {z w : List UInt8} (h : fold z = fold w) (size : ℕ) :
    slotOf size z = slotOf size w := by
  unfold slotOf
  rw [strHash_eq_of_fold h]

theorem sqlite3StrNICmp_cons (n : ℕ) (a b : UInt8) (z w : List UInt8) :
    sqlite3StrNICmp (n + 1) (a :: z) (b :: w) =
      if a ≠ 0 ∧ sqlite3UpperToLower a = sqlite3UpperToLower b then sqlite3StrNICmp n z w
      else (sqlite3UpperToLower a).toNat - (sqlite3UpperToLower b).toNat :=
  rfl

/-- Where the left key has no NUL byte, the comparison sees all bytes of both. -/
theorem sqlite3StrNICmp_eq_zero_iff {z w : List UInt8} (hz : 0 ∉ z) (hlen : z.length = w.length) :
    sqlite3StrNICmp w.length z w = 0 ↔ fold z = fold w := by
  induction z generalizing w with
  | nil =>
    obtain rfl := List.eq_nil_of_length_eq_zero hlen.symm
    exact ⟨fun _ => rfl, fun _ => rfl⟩
  | cons a z ih =>
    cases w with
    | nil => cases hlen
    | cons b w =>
      have ha : a ≠ 0 := fun hc => hz (List.mem_cons.mpr (Or.inl hc.symm))
      have hiff := ih (fun hc => hz (List.mem_cons_of_mem _ hc)) (Nat.succ.inj hlen)
      have hf : fold (a :: z) = sqlite3UpperToLower a :: fold z := rfl
      have hg : fold (b :: w) = sqlite3UpperToLower b :: fold w := rfl
      rw [List.length_cons, sqlite3StrNICmp_cons, hf, hg]
      by_cases hab : sqlite3UpperToLower a = sqlite3UpperToLower b
      · rw [if_pos ⟨ha, hab⟩, hiff, hab]
        exact ⟨fun e => congrArg _ e, fun e => (List.cons.inj e).2⟩
      · rw [if_neg (fun hc => hab hc.2)]
        constructor
        · intro h0
          exact absurd (UInt8.toNat.inj (by omega)) hab
        · intro e
          exact absurd (List.cons.inj e).1 hab

theorem keyMatch_iff (hz : 0 ∉ H.pKey x) :
    keyMatch H key x = true ↔ fold (H.pKey x) = fold key := by
  have hlen : fold (H.pKey x) = fold key → (H.pKey x).length = key.length := by
    intro e
    have := congrArg List.length e
    rwa [fold, fold, List.length_map, List.length_map] at this
  unfold keyMatch
  rw [decide_eq_true_iff]
  constructor
  · rintro ⟨h1, h2⟩
    rw [← h1] at h2
    rw [h1] at h2
    exact (sqlite3StrNICmp_eq_zero_iff hz h1).mp h2
  · intro e
    exact ⟨hlen e, (sqlite3StrNICmp_eq_zero_iff hz (hlen e)).mpr e⟩

/-- The search loop over consecutive elements of the list. -/
theorem findLoop_spec {a seg b : List ℕ} {p q : Option ℕ}
    (hl : Links H.next H.prev p (a ++ (seg ++ b))) (hq : seg ≠ [] → q = seg.head?) :
    findLoop H key seg.length q = seg.find? (fun z => keyMatch H key z) := by
  induction seg generalizing a q with
  | nil => cases q <;> rfl
  | cons x seg ih =>
    obtain rfl := hq (List.cons_ne_nil _ _)
    have hnx : H.next x = (seg ++ b).head? := Links.next_of_append hl
    have hl' : Links H.next H.prev p ((a ++ [x]) ++ (seg ++ b)) := by
      rwa [List.append_assoc]
    rw [List.length_cons, List.head?_cons, findLoop, List.find?_cons]
    cases keyMatch H key x with
    | true => exact if_pos rfl
    | false =>
      refine (if_neg Bool.false_ne_true).trans (ih hl' (fun hne => ?_))
      rw [hnx, List.head?_append_of_ne_nil _ hne]

/-- The bucket number that the search and the insertion compute. -/
def hashOf (H : Hash) (key : List UInt8) : ℕ := if H.ht.isSome then slotOf H.htsize key else 0

theorem Linked.hashOf_eq (hl : Linked H l) (key : List UInt8) :
    (if H.htsize ≠ 0 then slotOf H.htsize key else 0) = hashOf H key := by
  unfold hashOf
  cases ht : H.ht with
  | none =>
    rw [hl.noArray ht]
    rfl
  | some t => exact if_pos (hl.array t ht).1.ne'

/-- The search looks at the elements of one bucket, or at all of them. -/
theorem Inv.find (hi : Inv H l) (key : List UInt8) :
    ∃ seg : List ℕ, (∀ z, z ∈ seg ↔ z ∈ l ∧ hashOf H (H.pKey z) = hashOf H key) ∧
      findElementGivenHash H key (hashOf H key) = seg.find? (fun z => keyMatch H key z) := by
  unfold findElementGivenHash hashOf
  cases ht : H.ht with
  | none =>
    have hl : Links H.next H.prev none ([] ++ (l ++ [])) := by
      rw [List.append_nil]
      exact hi.links
    refine ⟨l, fun z => ⟨fun hz => ⟨hz, rfl⟩, fun hz => hz.1⟩, ?_⟩
    dsimp only
    rw [hi.count]
    exact findLoop_spec hl (fun _ => hi.first)
  | some t =>
    obtain ⟨a, seg, b, hab, h1, h2, h3, h4⟩ := (hi.array t ht).2 (slotOf H.htsize key)
    refine ⟨seg, fun z => ⟨fun hz => ⟨?_, h3 z hz⟩, fun hz => ?_⟩, ?_⟩
    · rw [hab]
      exact List.mem_append_right _ (List.mem_append_left _ hz)
    · have hm := hz.1
      rw [hab] at hm
      rcases List.mem_append.mp hm with hm | hm
      · exact absurd hz.2 (h4 z (List.mem_append_left _ hm))
      · exact (List.mem_append.mp hm).resolve_right
          (fun hc => h4 z (List.mem_append_right _ hc) hz.2)
    · have hl := hi.links
      rw [hab] at hl
      show findLoop H key (t (slotOf H.htsize key)).count (t (slotOf H.htsize key)).chain = _
      rw [← h1]
      exact findLoop_spec hl h2

theorem Inv.find_some (hi : Inv H l) (hf : findElementGivenHash H key (hashOf H key) = some x) :
    x ∈ l ∧ hashOf H (H.pKey x) = hashOf H key ∧ keyMatch H key x = true := by
  obtain ⟨seg, h1, h2⟩ := hi.find key
  rw [h2] at hf
  obtain ⟨h3, h4⟩ := (h1 x).mp (List.mem_of_find?_eq_some hf)
  exact ⟨h3, h4, List.find?_some hf⟩

theorem Inv.find_none (hi : Inv H l) (hf : findElementGivenHash H key (hashOf H key) = none)
    (hx : x ∈ l) (hh : hashOf H (H.pKey x) = hashOf H key) : keyMatch H key x = false := by
  obtain ⟨seg, h1, h2⟩ := hi.find key
  rw [h2, List.find?_eq_none] at hf
  exact Bool.eq_false_iff.mpr (hf x ((h1 x).mpr ⟨hx, hh⟩))

theorem hashOf_eq_of_fold {z w : List UInt8} (h : fold z = fold w) (H : Hash) :
    hashOf H z = hashOf H w := by
  unfold hashOf
  rw [slotOf_eq_of_fold h]

section Remove

/-- Removing an element, and clearing the table with the last one. -/
theorem Inv.remove (hi : Inv H l) (hx : x ∈ l) (hh : hashOf H (H.pKey x) = h) :
    ∃ H', removeElementGivenHash H x h = some H' ∧ Inv H' (l.erase x) ∧
      H'.pKey = H.pKey ∧ H'.data = H.data := by
  have hu := hi.unlink (h := h) hx (fun t ht => by
    rw [← hh, hashOf, ht]
    rfl)
  obtain ⟨-, h2, h3, -, -⟩ := unlinkElement_rest H x h
  unfold removeElementGivenHash
  dsimp only
  by_cases hc : (unlinkElement H x h).count = 0
  · rw [if_pos hc]
    obtain ⟨H', h4, h5⟩ := hu.clear
    rw [hu.count] at hc
    rw [List.eq_nil_of_length_eq_zero hc]
    refine ⟨H', h4, h5, ?_⟩
    unfold sqlite3HashClear at h4
    split at h4
    · cases h4
    · obtain rfl := Option.some.inj h4
      exact ⟨h2, h3⟩
  · rw [if_neg hc]
    exact ⟨_, rfl, hu, h2, h3⟩

end Remove

section Add

theorem Linked.congr {H' : Hash} (hl : Linked H l) (hs : H'.htsize = H.htsize)
    (hf : H'.first = H.first) (ht : H'.ht = H.ht) (hn : H'.next = H.next) (hp : H'.prev = H.prev)
    (hk : ∀ z ∈ l, H'.pKey z = H.pKey z) : Linked H' l := by
  refine ⟨?_, hf.trans hl.first, hl.nodup, fun h0 => ?_, fun t h0 => ?_⟩
  · rw [hn, hp]
    exact hl.links
  · rw [hs]
    exact hl.noArray (ht ▸ h0)
  · rw [hs]
    obtain ⟨h1, h2⟩ := hl.array t (ht ▸ h0)
    exact ⟨h1, fun k => (h2 k).congr (fun z hz => congrArg (slotOf H.htsize) (hk z hz))⟩

/-- A new element in a block that was not in use. -/
theorem Inv.add (hi : Inv H l) (hx : H.live x = false) (key : List UInt8) (data : ℕ)
    (extra : Option ℕ) :
    ∃ H' l', addElement H key data x (hashOf H key) extra = some H' ∧ Inv H' l' ∧
      l'.Perm (x :: l) ∧ H'.pKey = Function.update H.pKey x key ∧
      H'.data = Function.update H.data x data := by
  have hxl : x ∉ l := fun hc => Bool.false_ne_true (hx.symm.trans ((hi.live x).mpr hc))
  unfold addElement
  dsimp only
  -- the table with the new element counted but not yet linked
  let H1 : Hash := { H with
    live := Function.update H.live x true
    pKey := Function.update H.pKey x key
    data := Function.update H.data x data
    count := H.count + 1 }
  have hl1 : Linked H1 l := hi.toLinked.congr rfl rfl rfl rfl rfl
    (fun z hz => Function.update_of_ne (ne_of_mem_of_not_mem hz hxl) _ _)
  have hlive : ∀ z, H1.live z = true ↔ z ∈ x :: l := by
    intro z
    show Function.update H.live x true z = true ↔ _
    rw [Function.update_apply, List.mem_cons]
    by_cases hz : z = x
    · rw [if_pos hz]
      exact ⟨fun _ => Or.inl hz, fun _ => rfl⟩
    · rw [if_neg hz, hi.live z]
      exact ⟨Or.inr, fun hc => hc.resolve_left hz⟩
  have hgrow : ∃ b H2 l2, (if 10 ≤ H1.count ∧ H1.count > 2 * H1.htsize then
        rehash H1 (H1.count * 2) extra else some (false, H1)) = some (b, H2) ∧
      Linked H2 l2 ∧ l2.Perm l ∧ (b = true → H2.ht ≠ none) ∧ (b = false → H2 = H1) ∧
      H2.count = H1.count ∧ H2.pKey = H1.pKey ∧ H2.data = H1.data ∧ H2.live = H1.live := by
    split
    · exact rehash_spec hl1 (hi.count ▸ Nat.le_succ _) (Nat.mul_pos (Nat.succ_pos _) (Nat.succ_pos 1)) extra
    · exact ⟨false, H1, l, rfl, hl1, List.Perm.refl _, nofun, fun _ => rfl, rfl, rfl, rfl, rfl⟩
  obtain ⟨b, H2, l2, h1, h2, h3, h4, h5, h6, h7, h8, h9⟩ := hgrow
  have hx2 : x ∉ l2 := fun hc => hxl (h3.mem_iff.mp hc)
  have hkey : H2.pKey x = key := by
    rw [h7]
    exact Function.update_self ..
  have hfin : ∀ H' l', Linked H' l' → l'.Perm (x :: l2) → H'.count = H2.count →
      H'.live = H2.live → Inv H' l' ∧ l'.Perm (x :: l) := by
    intro H' l' hl' hp' hc' hv'
    have hp : l'.Perm (x :: l) := hp'.trans (h3.cons x)
    refine ⟨⟨hl', ?_, fun z => ?_⟩, hp⟩
    · rw [hc', h6, hp.length_eq, List.length_cons, ← hi.count]
    · rw [hv', h9, hlive z, hp.mem_iff]
  have hslot : ∀ t, H2.ht = some t →
      (if b then slotOf H2.htsize key else hashOf H key) = slotOf H2.htsize (H2.pKey x) := by
    intro t ht
    rw [hkey]
    cases b with
    | true => rfl
    | false =>
      obtain rfl := h5 rfl
      have ht' : H.ht = some t := ht
      rw [if_neg Bool.false_ne_true, hashOf, ht']
      rfl
  rw [h1]
  dsimp only
  cases ht : H2.ht with
  | none =>
    have hl' := h2.insert_none hx2 ht
    obtain ⟨hi', hp'⟩ := hfin _ _ hl' (List.Perm.refl _) (insertElement_count ..)
      (insertElement_live ..)
    refine ⟨_, x :: l2, rfl, hi', hp', ?_, ?_⟩
    · exact (insertElement_pKey ..).trans h7
    · exact (insertElement_data ..).trans h8
  | some t =>
    obtain ⟨l', hp', hl', -⟩ := h2.insert_some hx2 ht
    rw [hslot t ht]
    obtain ⟨hi', hp''⟩ := hfin _ _ hl' hp' (insertElement_count ..) (insertElement_live ..)
    refine ⟨_, l', rfl, hi', hp'', ?_, ?_⟩
    · exact (insertElement_pKey ..).trans h7
    · exact (insertElement_data ..).trans h8

end Add

end Sqlite.HashTable
