import Sqlite.HashTable.Buckets

/-! Linking and unlinking one element, and the loops over all elements. -/
namespace Sqlite.HashTable

open Foundation

variable {H : Hash} {l : List ℕ} {x h n : ℕ} {o : Option ℕ} {t : ℕ → HtEntry}

section Push

theorem bucketPush_links (H : Hash) (o : Option ℕ) (x : ℕ) :
    (bucketPush H o x).next = H.next ∧ (bucketPush H o x).prev = H.prev ∧
      (bucketPush H o x).first = H.first := by
  unfold bucketPush
  split <;> exact ⟨rfl, rfl, rfl⟩

theorem insertElement_ht (H : Hash) (o : Option ℕ) (x : ℕ) :
    (insertElement H o x).ht = (bucketPush H o x).ht := by
  unfold insertElement
  dsimp only
  repeat' split
  all_goals rfl

theorem bucketPush_ht_some (ht : H.ht = some t) (h x : ℕ) :
    (bucketPush H (some h) x).ht = some (Function.update t h ⟨(t h).count + 1, some x⟩) := by
  unfold bucketPush
  rw [ht]

theorem bucketPush_ht_none (ht : H.ht = none) (o : Option ℕ) (x : ℕ) :
    (bucketPush H o x).ht = none := by
  unfold bucketPush
  rw [ht]
  exact ht

/-- Without a bucket to join, an element goes to the front of the list. -/
theorem insertElement_front (hl : Links H.next H.prev none l) (hf : H.first = l.head?)
    (hnd : l.Nodup) (hx : x ∉ l) (hb : bucketHead H o = none) :
    Links (insertElement H o x).next (insertElement H o x).prev none (x :: l) ∧
      (insertElement H o x).first = some x ∧
      ∀ z, z ≠ x → (insertElement H o x).next z = H.next z := by
  obtain ⟨hn, hp, hfst⟩ := bucketPush_links H o x
  unfold insertElement
  rw [hb]
  dsimp only
  rw [hn, hp, hfst, hf]
  cases l with
  | nil => exact ⟨⟨Function.update_self .., Function.update_self .., trivial⟩, rfl,
      fun z hz => Function.update_of_ne hz _ _⟩
  | cons w l =>
    have hne : ∀ z ∈ w :: l, z ≠ x := fun z hz => ne_of_mem_of_not_mem hz hx
    refine ⟨hl.push hx (Function.update_self ..) (Function.update_self ..) (fun z hz => ?_)
      (fun z hz => ?_) hnd, rfl, fun z hz => Function.update_of_ne hz _ _⟩
    · exact Function.update_of_ne (hne z hz) _ _
    · show Function.update (Function.update H.prev w (some x)) x none z = _
      rw [Function.update_of_ne (hne z hz), Function.update_apply, List.head?_cons]
      by_cases hzw : z = w
      · rw [if_pos hzw, if_pos (congrArg some hzw.symm)]
      · rw [if_neg hzw, if_neg (fun hc => hzw (Option.some.inj hc).symm)]

/-- An element that joins a bucket goes in front of the bucket's first element. -/
theorem insertElement_before {y : ℕ} (hl : Links H.next H.prev none l) (hf : H.first = l.head?)
    (hnd : l.Nodup) (hx : x ∉ l) (hb : bucketHead H o = some y) (hy : y ∈ l) :
    Links (insertElement H o x).next (insertElement H o x).prev none (insertBefore x y l) ∧
      (insertElement H o x).first = (insertBefore x y l).head? ∧
      ∀ z, z ∉ x :: l → (insertElement H o x).next z = H.next z := by
  obtain ⟨hn, hp, hfst⟩ := bucketPush_links H o x
  have hyx : y ≠ x := ne_of_mem_of_not_mem hy hx
  have hne : ∀ z ∈ l, z ≠ x := fun z hz => ne_of_mem_of_not_mem hz hx
  have hout : ∀ z, (none : Option ℕ) = some z → z ∉ l := nofun
  have hhead := hl.prev_eq_iff hout hnd hy
  unfold insertElement
  rw [hb]
  dsimp only
  rw [hn, hp, Function.update_of_ne hyx]
  have hv : ∀ z ∈ l, Function.update (Function.update H.prev x (H.prev y)) y (some x) z =
      if z = y then some x else H.prev z := by
    intro z hz
    rw [Function.update_apply, Function.update_of_ne (hne z hz)]
  have hpx : Function.update (Function.update H.prev x (H.prev y)) y (some x) x = H.prev y := by
    rw [Function.update_of_ne hyx.symm, Function.update_self]
  cases hq : H.prev y with
  | none =>
    rw [hq] at hpx hv
    dsimp only
    refine ⟨hl.insertBefore hout hnd hy (Function.update_self ..) (hpx.trans hq.symm)
      (fun z hz => ?_) hv, ?_, fun z hz => ?_⟩
    · rw [hq, if_neg nofun]
      exact Function.update_of_ne (hne z hz) _ _
    · exact (head?_insertBefore x (hhead.mp hq)).symm
    · exact Function.update_of_ne (fun e => hz (List.mem_cons.mpr (Or.inl e))) _ _
  | some q =>
    rw [hq] at hpx hv
    dsimp only
    have hql : q ∈ l := (hl.prev_mem hy hq).resolve_left nofun
    refine ⟨hl.insertBefore hout hnd hy ?_ (hpx.trans hq.symm) (fun z hz => ?_) hv, ?_,
      fun z hz => ?_⟩
    · rw [Function.update_of_ne (hne q hql).symm, Function.update_self]
    · rw [hq, Function.update_apply, Function.update_of_ne (hne z hz)]
      by_cases hzq : z = q
      · rw [if_pos hzq, if_pos (congrArg some hzq.symm)]
      · rw [if_neg hzq, if_neg (fun hc => hzq (Option.some.inj hc).symm)]
    · rw [head?_insertBefore_of_ne x (fun hc => ?_)]
      · exact hfst.trans hf
      · exact absurd (hq.symm.trans (hhead.mpr hc)) nofun
    · have hzq : z ≠ q := fun e => hz (List.mem_cons_of_mem _ (e ▸ hql))
      rw [Function.update_of_ne hzq, Function.update_of_ne
        (fun e => hz (List.mem_cons.mpr (Or.inl e)))]

/-- Linking an element into a table without an array. -/
theorem Linked.insert_none (hl : Linked H l) (hx : x ∉ l) (ht : H.ht = none) :
    Linked (insertElement H none x) (x :: l) := by
  have hb : bucketHead H none = none := by
    unfold bucketHead
    rw [ht]
  obtain ⟨h1, h2, -⟩ := insertElement_front hl.links hl.first hl.nodup hx hb
  have hht : (insertElement H none x).ht = none := by
    rw [insertElement_ht, bucketPush_ht_none ht]
  refine ⟨h1, h2, List.nodup_cons.mpr ⟨hx, hl.nodup⟩, fun _ => ?_, fun t' ht' => ?_⟩
  · rw [insertElement_htsize]
    exact hl.noArray ht
  · rw [hht] at ht'
    cases ht'

/-- Linking an element into its bucket. -/
theorem Linked.insert_some (hl : Linked H l) (hx : x ∉ l) (ht : H.ht = some t) :
    ∃ l', l'.Perm (x :: l) ∧ Linked (insertElement H (some (slotOf H.htsize (H.pKey x))) x) l' ∧
      ∀ z, z ∉ x :: l →
        (insertElement H (some (slotOf H.htsize (H.pKey x))) x).next z = H.next z := by
  obtain ⟨hpos, hbk⟩ := hl.array t ht
  have hht := (insertElement_ht H (some (slotOf H.htsize (H.pKey x))) x).trans
    (bucketPush_ht_some ht _ x)
  have hslot : (fun z => slotOf H.htsize (H.pKey z)) x = slotOf H.htsize (H.pKey x) := rfl
  -- the buckets of any list in which the new element has its place
  have hfinish : ∀ l', l'.Perm (x :: l) →
      IsBucket (fun z => slotOf H.htsize (H.pKey z)) l' (slotOf H.htsize (H.pKey x))
        ⟨(t (slotOf H.htsize (H.pKey x))).count + 1, some x⟩ →
      (∀ h, h ≠ slotOf H.htsize (H.pKey x) →
        IsBucket (fun z => slotOf H.htsize (H.pKey z)) l' h (t h)) →
      Links (insertElement H (some (slotOf H.htsize (H.pKey x))) x).next
        (insertElement H (some (slotOf H.htsize (H.pKey x))) x).prev none l' →
      (insertElement H (some (slotOf H.htsize (H.pKey x))) x).first = l'.head? →
      Linked (insertElement H (some (slotOf H.htsize (H.pKey x))) x) l' := by
    intro l' hperm hb1 hb2 hlk hfst
    have hnd : l'.Nodup := (hperm.nodup_iff).mpr (List.nodup_cons.mpr ⟨hx, hl.nodup⟩)
    refine ⟨hlk, hfst, hnd, fun hc => ?_, fun t' ht' => ?_⟩
    · rw [hht] at hc
      cases hc
    · rw [hht] at ht'
      obtain rfl := Option.some.inj ht'
      rw [insertElement_htsize, insertElement_pKey]
      refine ⟨hpos, fun h => ?_⟩
      by_cases hh : h = slotOf H.htsize (H.pKey x)
      · subst hh
        rw [Function.update_self]
        exact hb1
      · rw [Function.update_of_ne hh]
        exact hb2 h hh
  by_cases hc : (t (slotOf H.htsize (H.pKey x))).count = 0
  · have hb : bucketHead H (some (slotOf H.htsize (H.pKey x))) = none := by
      unfold bucketHead
      rw [ht]
      exact if_neg (not_not.mpr hc)
    obtain ⟨h1, h2, h3⟩ := insertElement_front hl.links hl.first hl.nodup hx hb
    refine ⟨x :: l, List.Perm.refl _, hfinish _ (List.Perm.refl _) ?_ (fun h hh => ?_) h1 h2,
      fun z hz => h3 z (fun e => hz (List.mem_cons.mpr (Or.inl e)))⟩
    · exact (hbk _).pushFront hc
    · exact (hbk h).pushFront_other (fun e => hh e.symm)
  · obtain ⟨y, hy1, hy2, hy3, hy4⟩ := IsBucket.push (x := x) (hbk _) hc
    have hb : bucketHead H (some (slotOf H.htsize (H.pKey x))) = some y := by
      unfold bucketHead
      rw [ht]
      exact (if_pos hc).trans hy1
    obtain ⟨h1, h2, h3⟩ := insertElement_before hl.links hl.first hl.nodup hx hb hy2
    refine ⟨insertBefore x y l, insertBefore_perm hy2,
      hfinish _ (insertBefore_perm hy2) hy4 (fun h hh => ?_) h1 h2, h3⟩
    exact (hbk h).push_other (fun e => hh e.symm) hy2 (fun e => hh (e.symm.trans hy3))

end Push

section Walk

theorem freeElems_spec {next : ℕ → Option ℕ} {p : Option ℕ} (live : ℕ → Bool)
    (hc : Chain next p l) (hn : l.length ≤ n) :
    ∃ live', freeElems next n p live = some live' ∧
      ∀ z, live' z = (live z && decide (z ∉ l)) := by
  induction l generalizing n p live with
  | nil =>
    obtain rfl := hc
    refine ⟨live, by cases n <;> rfl, fun z => ?_⟩
    rw [decide_eq_true List.not_mem_nil, Bool.and_true]
  | cons x l ih =>
    obtain ⟨rfl, hc'⟩ := hc
    obtain ⟨m, rfl⟩ : ∃ m, n = m + 1 := ⟨n - 1, by rw [List.length_cons] at hn; omega⟩
    obtain ⟨live', h1, h2⟩ := ih (Function.update live x false) hc'
      (Nat.le_of_succ_le_succ hn)
    refine ⟨live', h1, fun z => ?_⟩
    rw [h2 z, Function.update_apply]
    by_cases hz : z = x
    · subst hz
      simp
    · simp [hz]

/-- Clearing a table leaves an empty one, with all elements freed. -/
theorem Inv.clear (hi : Inv H l) : ∃ H', sqlite3HashClear H = some H' ∧ Inv H' [] := by
  have hc := hi.links.chain
  rw [← hi.first] at hc
  obtain ⟨live', h1, h2⟩ := freeElems_spec H.live hc (Nat.le_of_eq hi.count.symm)
  unfold sqlite3HashClear
  rw [h1]
  refine ⟨_, rfl, ⟨trivial, rfl, List.nodup_nil, fun _ => rfl, nofun⟩, rfl, fun z => ?_⟩
  dsimp only
  rw [h2 z]
  have := hi.live z
  by_cases hz : z ∈ l
  · simp [hz]
  · have hf : H.live z = false := by
      rw [← Bool.not_eq_true]
      exact fun hc => hz (this.mp hc)
    simp [hf]

/-- The elements met by the loop of `rehash` move over to the new array one by one. -/
theorem rehashLoop_spec {size : ℕ} {r : List ℕ} {p : Option ℕ} (hl : Linked H l)
    (ht : H.ht ≠ none) (hs : H.htsize = size) (hc : Chain H.next p r) (hn : r.length ≤ n)
    (hnd : (r ++ l).Nodup) :
    ∃ H' l', rehashLoop size n p H = some H' ∧ Linked H' l' ∧ l'.Perm (r ++ l) ∧
      H'.ht ≠ none ∧ H'.htsize = size ∧ H'.count = H.count ∧ H'.pKey = H.pKey ∧
      H'.data = H.data ∧ H'.live = H.live := by
  induction r generalizing n p H l with
  | nil =>
    obtain rfl := hc
    exact ⟨H, l, by cases n <;> rfl, hl, List.Perm.refl _, ht, hs, rfl, rfl, rfl, rfl⟩
  | cons x r ih =>
    obtain ⟨rfl, hc'⟩ := hc
    obtain ⟨m, rfl⟩ : ∃ m, n = m + 1 := ⟨n - 1, by rw [List.length_cons] at hn; omega⟩
    obtain ⟨hxrl, hndrl⟩ := List.nodup_cons.mp hnd
    have hx : x ∉ l := fun hc => hxrl (List.mem_append_right _ hc)
    obtain ⟨t, ht'⟩ := Option.ne_none_iff_exists'.mp ht
    obtain ⟨l1, hp1, hl1, hnext⟩ := hl.insert_some hx ht'
    rw [hs] at hl1 hnext
    have hht1 : (insertElement H (some (slotOf size (H.pKey x))) x).ht ≠ none := by
      rw [insertElement_ht, bucketPush_ht_some ht']
      exact nofun
    have hc1 : Chain (insertElement H (some (slotOf size (H.pKey x))) x).next (H.next x) r := by
      refine hc'.congr (fun z hz => hnext z (fun hm => ?_))
      rcases List.mem_cons.mp hm with rfl | hm
      · exact hxrl (List.mem_append_left _ hz)
      · exact (List.nodup_append.mp hndrl).2.2 z hz z hm rfl
    have hperm : (r ++ l1).Perm (x :: (r ++ l)) := (hp1.append_left r).trans List.perm_middle
    obtain ⟨H', l', h1, h2, h3, h4, h5, h6, h7, h8, h9⟩ := ih hl1 hht1
      ((insertElement_htsize _ _ _).trans hs) hc1 (Nat.le_of_succ_le_succ hn)
      (hperm.nodup_iff.mpr hnd)
    refine ⟨H', l', h1, h2, h3.trans hperm, h4, h5, ?_, ?_, ?_, ?_⟩
    · rw [h6, insertElement_count]
    · rw [h7, insertElement_pKey]
    · rw [h8, insertElement_data]
    · rw [h9, insertElement_live]

/-- The new array, if there is one, has all elements in its buckets. -/
theorem rehash_spec (hl : Linked H l) (hn : l.length ≤ H.count) {size : ℕ} (hs : 0 < size)
    (extra : Option ℕ) :
    ∃ b H' l', rehash H size extra = some (b, H') ∧ Linked H' l' ∧ l'.Perm l ∧
      (b = true → H'.ht ≠ none) ∧ (b = false → H' = H) ∧
      H'.count = H.count ∧ H'.pKey = H.pKey ∧ H'.data = H.data ∧ H'.live = H.live := by
  unfold rehash
  have hsize : 0 < (if size * SIZEOF_HT > SQLITE_MALLOC_SOFT_LIMIT then
      SQLITE_MALLOC_SOFT_LIMIT / SIZEOF_HT else size) := by
    split
    · decide
    · exact hs
  generalize (if size * SIZEOF_HT > SQLITE_MALLOC_SOFT_LIMIT then
    SQLITE_MALLOC_SOFT_LIMIT / SIZEOF_HT else size) = m at hsize
  have hkeep : ∃ b H' l', some (false, H) = some (b, H') ∧ Linked H' l' ∧ l'.Perm l ∧
      (b = true → H'.ht ≠ none) ∧ (b = false → H' = H) ∧
      H'.count = H.count ∧ H'.pKey = H.pKey ∧ H'.data = H.data ∧ H'.live = H.live :=
    ⟨false, H, l, rfl, hl, List.Perm.refl _, nofun, fun _ => rfl, rfl, rfl, rfl, rfl⟩
  dsimp only
  by_cases hm : m = H.htsize
  · rw [if_pos hm]
    exact hkeep
  · rw [if_neg hm]
    cases extra with
    | none => exact hkeep
    | some extra =>
      have h16 : SIZEOF_HT = 16 := rfl
      have hpos : 0 < (m * SIZEOF_HT + extra) / SIZEOF_HT := by
        rw [h16]
        omega
      dsimp only
      generalize (m * SIZEOF_HT + extra) / SIZEOF_HT = size' at hpos
      have hempty : Linked { H with
          ht := some (fun _ => ⟨0, none⟩), htsize := size', first := none } [] := by
        refine ⟨trivial, rfl, List.nodup_nil, nofun, fun t ht => ?_⟩
        obtain rfl := Option.some.inj ht
        exact ⟨hpos, fun h => IsBucket.empty h none⟩
      have hc := hl.links.chain
      rw [← hl.first] at hc
      have hnd : (l ++ []).Nodup := by
        rw [List.append_nil]
        exact hl.nodup
      obtain ⟨H', l', h1, h2, h3, h4, h5, h6, h7, h8, h9⟩ :=
        rehashLoop_spec hempty nofun rfl hc hn hnd
      rw [List.append_nil] at h3
      rw [h1]
      exact ⟨true, H', l', rfl, h2, h3, fun _ => h4, nofun, h6, h7, h8, h9⟩

end Walk

section Unlink

theorem unlinkElement_next (hq : ∀ q, H.prev x = some q → q ≠ x) (h z : ℕ) :
    (unlinkElement H x h).next z = if H.prev x = some z then H.next x else H.next z := by
  unfold unlinkElement
  cases hp : H.prev x with
  | none =>
    rw [if_neg nofun]
    dsimp only
    cases H.next x <;> cases H.ht <;> rfl
  | some q =>
    dsimp only
    rw [Function.update_of_ne (hq q hp).symm]
    have hz : Function.update H.next q (H.next x) z =
        if some q = some z then H.next x else H.next z := by
      rw [Function.update_apply]
      by_cases hzq : z = q
      · rw [if_pos hzq, if_pos (congrArg some hzq.symm)]
      · rw [if_neg hzq, if_neg (fun hc => hzq (Option.some.inj hc).symm)]
    rw [← hz]
    cases H.next x <;> cases H.ht <;> rfl

theorem unlinkElement_prev (hq : ∀ q, H.prev x = some q → q ≠ x) (h z : ℕ) :
    (unlinkElement H x h).prev z = if H.next x = some z then H.prev x else H.prev z := by
  have hz : ∀ r, Function.update H.prev r (H.prev x) z =
      if some r = some z then H.prev x else H.prev z := by
    intro r
    rw [Function.update_apply]
    by_cases hzr : z = r
    · rw [if_pos hzr, if_pos (congrArg some hzr.symm)]
    · rw [if_neg hzr, if_neg (fun hc => hzr (Option.some.inj hc).symm)]
  unfold unlinkElement
  cases hp : H.prev x with
  | none =>
    rw [hp] at hz
    dsimp only
    cases H.next x with
    | none => cases H.ht <;> rfl
    | some r =>
      rw [← hz r, ← hp]
      cases H.ht <;> rfl
  | some q =>
    rw [hp] at hz
    dsimp only
    rw [Function.update_of_ne (hq q hp).symm]
    cases H.next x with
    | none => cases H.ht <;> rfl
    | some r =>
      rw [← hz r, ← hp]
      cases H.ht <;> rfl

theorem unlinkElement_first (hq : ∀ q, H.prev x = some q → q ≠ x) (h : ℕ) :
    (unlinkElement H x h).first = if H.prev x = none then H.next x else H.first := by
  unfold unlinkElement
  cases hp : H.prev x with
  | none =>
    rw [if_pos rfl]
    dsimp only
    cases H.next x <;> cases H.ht <;> rfl
  | some q =>
    rw [if_neg nofun]
    dsimp only
    rw [Function.update_of_ne (hq q hp).symm]
    cases H.next x <;> cases H.ht <;> rfl

theorem unlinkElement_ht (hq : ∀ q, H.prev x = some q → q ≠ x) (h : ℕ) :
    (unlinkElement H x h).ht = H.ht.map (fun t => Function.update t h
      ⟨(t h).count - 1, if (t h).chain = some x then H.next x else (t h).chain⟩) := by
  unfold unlinkElement
  cases hp : H.prev x with
  | none =>
    dsimp only
    cases hn : H.next x <;> cases H.ht <;> simp [hn]
  | some q =>
    dsimp only
    rw [Function.update_of_ne (hq q hp).symm]
    cases hn : H.next x <;> cases H.ht <;> simp [hn, Function.update_of_ne (hq q hp).symm]

theorem unlinkElement_rest (H : Hash) (x h : ℕ) :
    (unlinkElement H x h).htsize = H.htsize ∧ (unlinkElement H x h).pKey = H.pKey ∧
      (unlinkElement H x h).data = H.data ∧ (unlinkElement H x h).count = H.count - 1 ∧
      (unlinkElement H x h).live = Function.update H.live x false := by
  unfold unlinkElement
  dsimp only
  repeat' split
  all_goals exact ⟨rfl, rfl, rfl, rfl, rfl⟩

/-- Unlinking takes the element out of the list, of its bucket and of the allocated blocks. -/
theorem Inv.unlink (hi : Inv H l) (hx : x ∈ l)
    (hh : ∀ t, H.ht = some t → h = slotOf H.htsize (H.pKey x)) :
    Inv (unlinkElement H x h) (l.erase x) := by
  have hout : ∀ z, (none : Option ℕ) = some z → z ∉ l := nofun
  have hprev : H.prev x = none ↔ l.head? = some x := hi.links.prev_eq_iff hout hi.nodup hx
  have hq : ∀ q, H.prev x = some q → q ≠ x := by
    rintro q hp rfl
    exact hi.links.prev_ne_self hi.nodup hx hp
  obtain ⟨h1, h2, -, h4, h5⟩ := unlinkElement_rest H x h
  refine ⟨⟨?_, ?_, hi.nodup.erase x, fun ht => ?_, fun t' ht' => ?_⟩, ?_, fun z => ?_⟩
  · exact hi.links.unlink hout hi.nodup hx (fun z _ _ => unlinkElement_next hq h z)
      (fun z _ _ => unlinkElement_prev hq h z)
  · rw [unlinkElement_first hq, ← hi.links.head_unlink (x := x), hi.first]
    by_cases hp : H.prev x = none
    · rw [if_pos hp, if_pos (hprev.mp hp)]
    · rw [if_neg hp, if_neg (fun hc => hp (hprev.mpr hc))]
  · rw [unlinkElement_ht hq, Option.map_eq_none_iff] at ht
    rw [h1]
    exact hi.noArray ht
  · rw [unlinkElement_ht hq, Option.map_eq_some_iff] at ht'
    obtain ⟨t, ht, rfl⟩ := ht'
    obtain ⟨hpos, hb⟩ := hi.array t ht
    obtain rfl := hh t ht
    rw [h1, h2]
    refine ⟨hpos, fun k => ?_⟩
    by_cases hk : k = slotOf H.htsize (H.pKey x)
    · subst hk
      rw [Function.update_self]
      exact IsBucket.erase (x := x) (hb _) hi.links hi.nodup hx
    · rw [Function.update_of_ne hk]
      exact (hb k).erase_other (fun e => hk e.symm)
  · rw [h4, hi.count, List.length_erase_of_mem hx]
  · rw [h5, hi.nodup.mem_erase_iff, Function.update_apply]
    by_cases hz : z = x
    · rw [if_pos hz]
      exact ⟨nofun, fun hc => absurd hz hc.1⟩
    · rw [if_neg hz, hi.live z]
      exact ⟨fun hc => ⟨hz, hc⟩, fun hc => hc.2⟩

end Unlink

end Sqlite.HashTable
