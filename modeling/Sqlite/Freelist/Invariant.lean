import Sqlite.Freelist.Chain

/-! What a list of unused pages is, and what the pointer-map says of them. -/
namespace Sqlite.Freelist
open Sqlite.Foundation

section
variable (c : Config)

/-- A page of the file that a b-tree or a chain of overflow pages can have, or that can be unused. -/
structure Ordinary (s : BtShared) (p : ℕ) : Prop where
  ge : 2 ≤ p
  le : p ≤ s.nPage
  pending : p ≠ PENDING_BYTE_PAGE c
  map : c.autoVacuum → PTRMAP_ISPAGE c p = false

/-- The trunks and leaves of `L` are the unused pages. -/
structure Inv (s : BtShared) (L : Chain) : Prop where
  linked : Seg s.page (link s.page none) L 0
  count : get4byte s.page 1 36 = (free L).length
  nodup : (free L).Nodup
  ordinary : ∀ p ∈ free L, Ordinary c s p
  room : ∀ x ∈ L, x.2.length ≤ c.usableSize / 4 - 2
  entry : c.autoVacuum → ∀ p ∈ free L, ptrmapGet c s p = (.SQLITE_OK, PTRMAP_FREEPAGE, 0)
  nPage_pos : 1 ≤ s.nPage
  nPage_le : s.nPage ≤ c.mxPgno

/-- A page in use. -/
def Used (s : BtShared) (L : Chain) (p : ℕ) : Prop := Ordinary c s p ∧ p ∉ free L

end

section
variable {c : Config} {s : BtShared} {L : Chain} {p : ℕ}

theorem Ordinary.getPage (h : Ordinary c s p) : (btreeGetPage c s p false).1 = .SQLITE_OK := by
  have hge := h.ge
  rw [btreeGetPage, if_neg (by rintro (h0 | h0); omega; exact h.pending h0)]
  simp

theorem Ordinary.lt (h : Ordinary c s p) (hn : s.nPage ≤ c.mxPgno) : p < 2 ^ 32 := by
  have hle := h.le
  have hmx := c.mxPgno_le
  omega

theorem ptrmapPageno_ge {key : ℕ} (hkey : 2 ≤ key) : 2 ≤ ptrmapPageno c key := by
  unfold ptrmapPageno
  rw [if_neg (by omega)]
  dsimp only
  split_ifs <;> omega

/-- The entries of a group of pages are on its first page, or behind the pending byte. -/
def mapPage (c : Config) (m : ℕ) : ℕ :=
  let ret := m * (c.usableSize / 5 + 1) + 2
  if ret = PENDING_BYTE_PAGE c then ret + 1 else ret

theorem ptrmapPageno_eq {m k : ℕ} (hk : k < c.usableSize / 5 + 1) :
    ptrmapPageno c (m * (c.usableSize / 5 + 1) + 2 + k) = mapPage c m := by
  have hdiv : (m * (c.usableSize / 5 + 1) + 2 + k - 2) / (c.usableSize / 5 + 1) = m := by
    have hsub : m * (c.usableSize / 5 + 1) + 2 + k - 2 = (c.usableSize / 5 + 1) * m + k := by
      rw [Nat.mul_comm]
      omega
    rw [hsub, Nat.mul_add_div (by omega), Nat.div_eq_of_lt hk, Nat.add_zero]
  unfold ptrmapPageno mapPage
  rw [if_neg (by omega)]
  dsimp only
  rw [hdiv]

theorem exists_group {key : ℕ} (hkey : 2 ≤ key) :
    ∃ m k, k < c.usableSize / 5 + 1 ∧ key = m * (c.usableSize / 5 + 1) + 2 + k := by
  refine ⟨(key - 2) / (c.usableSize / 5 + 1), (key - 2) % (c.usableSize / 5 + 1),
    Nat.mod_lt _ (by omega), ?_⟩
  have hdiv := Nat.div_add_mod (key - 2) (c.usableSize / 5 + 1)
  rw [Nat.mul_comm] at hdiv
  omega

/-- The page that has the entry of a page is a pointer-map page. -/
theorem isPage_ptrmapPageno {key : ℕ} (hkey : 2 ≤ key) :
    PTRMAP_ISPAGE c (ptrmapPageno c key) = true := by
  have husable := c.usableSize_ge
  obtain ⟨m, k, hk, rfl⟩ := exists_group (c := c) hkey
  unfold PTRMAP_ISPAGE
  rw [decide_eq_true_iff, ptrmapPageno_eq hk]
  by_cases hp : m * (c.usableSize / 5 + 1) + 2 = PENDING_BYTE_PAGE c
  · have hnext := ptrmapPageno_eq (c := c) (m := m) (k := 1) (by omega)
    have hself : mapPage c m = m * (c.usableSize / 5 + 1) + 2 + 1 := by simp [mapPage, hp]
    rw [hself, hnext, hself]
  · have hfirst := ptrmapPageno_eq (c := c) (m := m) (k := 0) (by omega)
    have hself : mapPage c m = m * (c.usableSize / 5 + 1) + 2 + 0 := by simp [mapPage, hp]
    rw [hself, hfirst, hself]

/-- The entry of an ordinary page is behind the start of a pointer-map page. -/
theorem Ordinary.ptrmapPageno_lt (h : Ordinary c s p) (ha : c.autoVacuum) :
    ptrmapPageno c p < p := by
  have hge := h.ge
  have hmap := h.map ha
  have hpending := h.pending
  unfold PTRMAP_ISPAGE at hmap
  rw [decide_eq_false_iff_not] at hmap
  unfold ptrmapPageno at hmap ⊢
  rw [if_neg (by omega)] at hmap ⊢
  dsimp only at hmap ⊢
  have hle := Nat.div_mul_le_self (p - 2) (c.usableSize / 5 + 1)
  generalize (p - 2) / (c.usableSize / 5 + 1) * (c.usableSize / 5 + 1) = m at *
  split_ifs at hmap ⊢ <;> omega

theorem ptrmapGet_congr {s' : BtShared} {key : ℕ}
    (h : s'.page (ptrmapPageno c key) = s.page (ptrmapPageno c key)) :
    ptrmapGet c s' key = ptrmapGet c s key := by
  simp only [ptrmapGet, get4byte, h]

/-- Ordinary pages are not pointer-map pages. -/
theorem Ordinary.ne_ptrmapPageno (h : Ordinary c s p) (ha : c.autoVacuum) {key : ℕ}
    (hkey : 2 ≤ key) : ptrmapPageno c key ≠ p := by
  intro e
  have hpage := isPage_ptrmapPageno (c := c) hkey
  rw [e, h.map ha] at hpage
  cases hpage

theorem ptroffset_eq {key iPtrmap : ℕ} (h : iPtrmap < key) :
    PTRMAP_PTROFFSET iPtrmap key = (5 * (key - iPtrmap - 1) : ℕ) := by
  unfold PTRMAP_PTROFFSET
  omega

/-- The entry of an ordinary page, read byte by byte. -/
theorem Ordinary.ptrmapGet_eq (h : Ordinary c s p) (ha : c.autoVacuum) (s' : BtShared) :
    ptrmapGet c s' p =
      (if (s'.page (ptrmapPageno c p) (5 * (p - ptrmapPageno c p - 1))).toNat < 1 ∨
          5 < (s'.page (ptrmapPageno c p) (5 * (p - ptrmapPageno c p - 1))).toNat
        then .SQLITE_CORRUPT else .SQLITE_OK,
        (s'.page (ptrmapPageno c p) (5 * (p - ptrmapPageno c p - 1))).toNat,
        get4byte s'.page (ptrmapPageno c p) (5 * (p - ptrmapPageno c p - 1) + 1)) := by
  have hlt := h.ptrmapPageno_lt ha
  have hge := ptrmapPageno_ge (c := c) h.ge
  unfold ptrmapGet
  dsimp only
  rw [ptroffset_eq hlt, if_neg (by omega), Int.toNat_natCast]

section
variable (m : Pages) (i a eType parent : ℕ)

theorem putEntry_of_ne {q : ℕ} (h : q ≠ i) : putEntry m i a eType parent q = m q := by
  simp [putEntry, put4byte, h]

theorem putEntry_type : putEntry m i a eType parent i a = .ofNat eType := by
  simp only [putEntry, put4byte, Function.update_self]
  rw [putBE_of_outside (by omega), Function.update_self]

theorem putEntry_parent (h : parent < 2 ^ 32) :
    get4byte (putEntry m i a eType parent) i (a + 1) = parent := get4byte_put4byte h

theorem putEntry_outside {x : ℕ} (h : x < a ∨ a + 5 ≤ x) :
    putEntry m i a eType parent i x = m i x := by
  simp only [putEntry, put4byte, Function.update_self]
  rw [putBE_of_outside (by omega), Function.update_of_ne (by omega)]

end

/-- An entry is written, and the other ones stay. -/
theorem ptrmapPut_spec (h : Ordinary c s p) (ha : c.autoVacuum) (eType parent : ℕ)
    (ht : 1 ≤ eType ∧ eType ≤ 5) (hparent : parent < 2 ^ 32) :
    ∃ s', ptrmapPut c s p eType parent = (.SQLITE_OK, s') ∧ s'.nPage = s.nPage ∧
      s'.pHasContent = s.pHasContent ∧ ptrmapGet c s' p = (.SQLITE_OK, eType, parent) ∧
      (∀ q, PTRMAP_ISPAGE c q = false → s'.page q = s.page q) ∧
      ∀ q, Ordinary c s q → q ≠ p → ptrmapGet c s' q = ptrmapGet c s q := by
  have hlt := h.ptrmapPageno_lt ha
  have hge := ptrmapPageno_ge (c := c) h.ge
  have hpage := isPage_ptrmapPageno (c := c) h.ge
  let a := 5 * (p - ptrmapPageno c p - 1)
  let s' : BtShared := { s with page := putEntry s.page (ptrmapPageno c p) a eType parent }
  have hput : ptrmapPut c s p eType parent = (.SQLITE_OK, s') := by
    unfold ptrmapPut
    dsimp only
    rw [ptroffset_eq hlt, if_neg (by omega), Int.toNat_natCast]
  refine ⟨s', hput, rfl, rfl, ?_, fun q hq => ?_, fun q hq hne => ?_⟩
  · have htype : (UInt8.ofNat eType).toNat = eType := by
      rw [UInt8.toNat_ofNat']
      omega
    rw [h.ptrmapGet_eq ha]
    simp only [s', a, putEntry_type, putEntry_parent _ _ _ _ _ hparent, htype]
    rw [if_neg (by omega)]
  · have hqp : q ≠ ptrmapPageno c p := by
      rintro rfl
      rw [hpage] at hq
      cases hq
    exact putEntry_of_ne _ _ _ _ _ hqp
  · have hqlt := hq.ptrmapPageno_lt ha
    by_cases hmap : ptrmapPageno c q = ptrmapPageno c p
    · have hout {x : ℕ} (hx : 5 * (q - ptrmapPageno c p - 1) ≤ x)
          (hx' : x < 5 * (q - ptrmapPageno c p - 1) + 5) :
          s'.page (ptrmapPageno c p) x = s.page (ptrmapPageno c p) x := by
        rw [hmap] at hqlt
        exact putEntry_outside _ _ _ _ _ (by omega)
      rw [hq.ptrmapGet_eq ha, hq.ptrmapGet_eq ha, hmap, hout le_rfl (by omega)]
      have hparent' : get4byte s'.page (ptrmapPageno c p) (5 * (q - ptrmapPageno c p - 1) + 1) =
          get4byte s.page (ptrmapPageno c p) (5 * (q - ptrmapPageno c p - 1) + 1) :=
        getBE_congr fun x hx hx' => hout (by omega) (by omega)
      rw [hparent']
    · exact ptrmapGet_congr (putEntry_of_ne _ _ _ _ _ hmap)

end

end Sqlite.Freelist
