import Sqlite.MemJrnl.Model

/-! Appending to the journal. A chunk is added when the last one is full, and the bytes then go
into the last chunk. -/
namespace Sqlite.MemJrnl

open Foundation

variable {p : MemJournal} {l : List ℕ} {z w : List UInt8} {c : ℕ}

/-- The journal when its last chunk `c` has room for the next byte. -/
structure Room (p : MemJournal) (l : List ℕ) (z : List UInt8) (c : ℕ) : Prop where
  chain : Chain p.pNext p.pFirst l
  nodup : l.Nodup
  live : ∀ c ∈ l, c ∈ p.live
  size : p.endpoint.iOffset = z.length
  last : p.endpoint.pChunk = some c
  getLast : l.getLast? = some c
  chunks : l.length = z.length / JOURNAL_CHUNKSIZE + 1
  bytes : ∀ k c, l[k / JOURNAL_CHUNKSIZE]? = some c → ∀ b, z[k]? = some b →
    p.zChunk c (k % JOURNAL_CHUNKSIZE) = b
  cache : p.readpoint.iOffset = 0 ∨ p.readpoint.pChunk = none ∨
    p.readpoint.pChunk = l[p.readpoint.iOffset / JOURNAL_CHUNKSIZE]?

/-- Inside a chunk there is room. -/
theorem Inv.room (hi : Inv p l z) (hm : z.length % JOURNAL_CHUNKSIZE ≠ 0) : ∃ c, Room p l z c := by
  have hc := hi.chunks
  have hlen : l.length = z.length / JOURNAL_CHUNKSIZE + 1 := by
    rw [chunkSize] at hc hm ⊢
    omega
  have hne : l ≠ [] := by
    rintro rfl
    cases hlen
  have hlast := List.getLast?_eq_some_getLast hne
  exact ⟨l.getLast hne, hi.chain, hi.nodup, hi.live, hi.size, hi.last.trans hlast, hlast, hlen,
    hi.bytes, hi.cache⟩

theorem addChunk_rest (p : MemJournal) (c : ℕ) :
    (addChunk p c).zChunk = p.zChunk ∧ (addChunk p c).readpoint = p.readpoint ∧
      (addChunk p c).live = insert c p.live ∧ (addChunk p c).endpoint = ⟨p.endpoint.iOffset, some c⟩ := by
  unfold addChunk
  cases p.endpoint.pChunk <;> exact ⟨rfl, rfl, rfl, rfl⟩

/-- At the end of a chunk a new one makes room. -/
theorem Inv.addChunk (hi : Inv p l z) (hm : z.length % JOURNAL_CHUNKSIZE = 0) (hc : c ∉ p.live) :
    Room (addChunk p c) (l ++ [c]) z c := by
  have hcl : c ∉ l := fun h => hc (hi.live c h)
  obtain ⟨h1, h2, h3, h4⟩ := addChunk_rest p c
  have hlen := hi.chunks
  refine ⟨?_, ?_, fun d hd => ?_, ?_, ?_, List.getLast?_concat .., ?_, fun k d hd b hb => ?_, ?_⟩
  · unfold MemJrnl.addChunk
    rw [hi.last]
    cases hl : l.getLast? with
    | none =>
      obtain rfl := List.getLast?_eq_none_iff.mp hl
      exact ⟨rfl, Function.update_self ..⟩
    | some y => exact hi.chain.snoc hi.nodup hl hcl
  · exact List.nodup_append.mpr ⟨hi.nodup, List.nodup_singleton c,
      fun a ha b hb e => hcl (List.mem_singleton.mp hb ▸ e ▸ ha)⟩
  · rw [h3]
    rcases List.mem_append.mp hd with hd | hd
    · exact Finset.mem_insert_of_mem (hi.live d hd)
    · rw [List.mem_singleton.mp hd]
      exact Finset.mem_insert_self c _
  · rw [h4]
    exact hi.size
  · rw [h4]
  · rw [List.length_append, List.length_singleton]
    rw [chunkSize] at hlen hm ⊢
    omega
  · rw [h1]
    have hk := (List.getElem?_eq_some_iff.mp hb).1
    rw [List.getElem?_append_left] at hd
    · exact hi.bytes k d hd b hb
    · rw [chunkSize] at hlen hm ⊢
      omega
  · rw [h2]
    rcases hi.cache with h | h | h
    · exact Or.inl h
    · exact Or.inr (Or.inl h)
    · cases hd : l[p.readpoint.iOffset / JOURNAL_CHUNKSIZE]? with
      | none => exact Or.inr (Or.inl (h.trans hd))
      | some d =>
        rw [List.getElem?_append_left (List.getElem?_eq_some_iff.mp hd).1]
        exact Or.inr (Or.inr h)

/-- The bytes that fit into the last chunk are appended to the file. -/
theorem Room.copyIn (hr : Room p l z c) (h0 : 0 < w.length)
    (hw : w.length ≤ JOURNAL_CHUNKSIZE - z.length % JOURNAL_CHUNKSIZE) :
    Inv (copyIn p c (z.length % JOURNAL_CHUNKSIZE) w) l (z ++ w) := by
  have hlen := hr.chunks
  have hcs := chunkSize
  have hidx : l[z.length / JOURNAL_CHUNKSIZE]? = some c := by
    rw [← hr.getLast, List.getLast?_eq_getElem?, hlen, Nat.add_sub_cancel]
  refine ⟨hr.chain, hr.nodup, hr.live, ?_, hr.last.trans hr.getLast.symm, ?_,
    fun k d hd b hb => ?_, hr.cache⟩
  · rw [List.length_append]
    exact congrArg (· + w.length) hr.size
  · rw [List.length_append]
    rw [hcs] at hlen hw ⊢
    omega
  · have hk := (List.getElem?_eq_some_iff.mp hb).1
    rw [List.length_append] at hk
    show Function.update p.zChunk c _ d (k % JOURNAL_CHUNKSIZE) = b
    by_cases hkz : k < z.length
    · rw [List.getElem?_append_left hkz] at hb
      have hold := hr.bytes k d hd b hb
      rw [Function.update_apply]
      by_cases hdc : d = c
      · -- an older byte of the last chunk lies before those copied
        have hsame : k / JOURNAL_CHUNKSIZE = z.length / JOURNAL_CHUNKSIZE := by
          apply (List.getElem?_inj (List.getElem?_eq_some_iff.mp hd).1 hr.nodup).mp
          rw [hd, hidx, hdc]
        rw [if_pos hdc, if_neg, ← hdc, hold]
        rw [hcs] at hsame ⊢
        omega
      · rw [if_neg hdc, hold]
    · have hsame : k / JOURNAL_CHUNKSIZE = z.length / JOURNAL_CHUNKSIZE := by
        rw [hcs] at hw ⊢
        omega
      rw [hsame, hidx] at hd
      obtain rfl := Option.some.inj hd
      rw [List.getElem?_append_right (Nat.le_of_not_lt hkz)] at hb
      have hsub : k % JOURNAL_CHUNKSIZE - z.length % JOURNAL_CHUNKSIZE = k - z.length := by
        rw [hcs] at hsame ⊢
        omega
      rw [Function.update_self, if_pos, hsub, List.getD_eq_getElem?_getD, hb]
      · rfl
      · rw [hcs] at hsame ⊢
        omega

/-- What `sqlite3_malloc` hands out was not allocated. -/
def Fresh (malloc : Finset ℕ → Option ℕ) : Prop := ∀ s c, malloc s = some c → c ∉ s

/-- What a write with the result `rc` has appended of its bytes `w` to a file of `n` bytes. Without
memory it ends at a chunk boundary. -/
def Appended (n : ℕ) (w ys : List UInt8) : Rc → Prop
  | .SQLITE_OK => ys = w
  | .SQLITE_IOERR_NOMEM =>
    ys <+: w ∧ ys.length < w.length ∧ (n + ys.length) % JOURNAL_CHUNKSIZE = 0

theorem Appended.after {n : ℕ} {u ys : List UInt8} {rc : Rc}
    (ha : Appended (n + u.length) w ys rc) : Appended n (u ++ w) (u ++ ys) rc := by
  cases rc with
  | SQLITE_OK => exact congrArg (u ++ ·) ha
  | SQLITE_IOERR_NOMEM =>
    obtain ⟨hpre, hlt, hmod⟩ := ha
    refine ⟨(List.prefix_append_right_inj u).mpr hpre, ?_, ?_⟩
    · simp only [List.length_append]
      omega
    · rwa [List.length_append, ← Nat.add_assoc]

/-- A write appends its bytes, or a part of them when memory for some chunk cannot be had. -/
theorem Inv.append (hi : Inv p l z) {malloc : Finset ℕ → Option ℕ} (hm : Fresh malloc)
    (w : List UInt8) : ∃ rc p' l' ys, memjrnlWrite p w malloc = some (rc, p') ∧
      Inv p' l' (z ++ ys) ∧ p'.readpoint = p.readpoint ∧ Appended z.length w ys rc ∧
      (rc = .SQLITE_IOERR_NOMEM → ∃ s, malloc s = none) ∧ ((∀ s, malloc s = none) → l' = l) := by
  unfold memjrnlWrite
  induction hn : w.length using Nat.strong_induction_on generalizing p l z w with
  | _ n ih =>
    subst hn
    rw [writeLoop]
    have hcs := chunkSize
    by_cases h0 : w.length = 0
    · rw [if_pos h0, List.eq_nil_of_length_eq_zero h0]
      refine ⟨_, p, l, [], rfl, ?_, rfl, rfl, nofun, fun _ => rfl⟩
      rwa [List.append_nil]
    · rw [if_neg h0, hi.size]
      dsimp only
      -- the state in which the bytes are copied, unless there is no memory
      have hroom : (z.length % JOURNAL_CHUNKSIZE = 0 ∧ malloc p.live = none) ∨
          ∃ q l' c, (if z.length % JOURNAL_CHUNKSIZE = 0 then
            (malloc p.live).map (MemJrnl.addChunk p) else some p) = some q ∧ Room q l' z c ∧
            q.readpoint = p.readpoint ∧ ((∀ s, malloc s = none) → l' = l) := by
        by_cases hz : z.length % JOURNAL_CHUNKSIZE = 0
        · cases hnew : malloc p.live with
          | none => exact .inl ⟨hz, rfl⟩
          | some c =>
            rw [if_pos hz]
            exact .inr ⟨_, _, c, rfl, hi.addChunk hz (hm _ _ hnew), (addChunk_rest p c).2.1,
              fun h => by simp [h] at hnew⟩
        · obtain ⟨c, hc⟩ := hi.room hz
          rw [if_neg hz]
          exact .inr ⟨p, l, c, rfl, hc, rfl, fun _ => rfl⟩
      rcases hroom with ⟨hz, hnone⟩ | ⟨q, l', c, hq, hr, hrp, hsame⟩
      · rw [if_pos hz, hnone]
        refine ⟨_, p, l, [], rfl, ?_, rfl, ⟨List.nil_prefix, ?_, hz⟩, fun _ => ⟨_, hnone⟩,
          fun _ => rfl⟩
        · rwa [List.append_nil]
        · exact Nat.pos_of_ne_zero h0
      rw [hq]
      dsimp only
      rw [hr.last]
      dsimp only
      have hmod : z.length % JOURNAL_CHUNKSIZE < JOURNAL_CHUNKSIZE :=
        Nat.mod_lt _ (hcs ▸ Nat.succ_pos _)
      generalize hs : min w.length (JOURNAL_CHUNKSIZE - z.length % JOURNAL_CHUNKSIZE) = n
      have htake : (w.take n).length = n := by
        rw [List.length_take]
        omega
      have hi' := hr.copyIn (w := w.take n) (by omega) (by omega)
      obtain ⟨rc, p', l'', ys, h1, h2, h3, h4, h5, h6⟩ := ih (w.drop n).length
        (by rw [List.length_drop]; omega) hi' (w.drop n) rfl
      rw [List.length_append] at h4
      have h7 := h4.after
      rw [List.take_append_drop] at h7
      rw [List.append_assoc] at h2
      exact ⟨rc, p', l'', w.take n ++ ys, h1, h2, h3.trans hrp, h7, h5,
        fun h => (h6 h).trans (hsame h)⟩

/-- A write appends its bytes, when memory for every chunk can be had. -/
theorem Inv.write (hi : Inv p l z) (malloc : Finset ℕ → Option ℕ)
    (hm : ∀ s, ∃ c, malloc s = some c ∧ c ∉ s) (w : List UInt8) :
    ∃ p' l', memjrnlWrite p w malloc = some (.SQLITE_OK, p') ∧ Inv p' l' (z ++ w) ∧
      p'.readpoint = p.readpoint := by
  have hfresh : Fresh malloc := by
    intro s c hc
    obtain ⟨c', hc', hnew⟩ := hm s
    exact Option.some.inj (hc.symm.trans hc') ▸ hnew
  obtain ⟨rc, p', l', ys, h1, h2, h3, h4, h5, -⟩ := hi.append hfresh w
  cases rc with
  | SQLITE_OK =>
    rw [h4] at h2
    exact ⟨p', l', h1, h2, h3⟩
  | SQLITE_IOERR_NOMEM =>
    obtain ⟨s, hs⟩ := h5 rfl
    obtain ⟨c, hc, -⟩ := hm s
    rw [hs] at hc
    cases hc

end Sqlite.MemJrnl
