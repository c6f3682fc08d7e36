import Sqlite.FileLock.Lock

/-! `posixUnlock` and `unixCheckReservedLock` keep the invariant. -/
namespace Sqlite.FileLock
open Foundation

variable {m m₀ : UnixInodeInfo} {held held₀ : ℕ → LockType} {f e : ℕ} {p r s : LockType}
  {c : Call Op UnixInodeInfo} {rc : Rc}

/-- The level of the inode after its handle with the level `lv` gave its lock up. -/
def below (lv top : ℕ) : ℕ := if SHARED_LOCK < lv then SHARED_LOCK else top

/-- The memory when a handle is at a new level, after the counters were changed. -/
theorem levels_counted {n l : ℤ} {t : ℕ} :
    levels (setFileLock { m with nShared := n, eFileLock := t, nLock := l } f e) =
      Function.update (levels m) f e := levels_setFileLock

theorem frame_counted {n l : ℤ} {t : ℕ} :
    Frame m (setFileLock { m with nShared := n, eFileLock := t, nLock := l } f e) :=
  ⟨rfl, Frame.setFileLock.ctrlFlags⟩

section Drop

variable (hf : f ∈ m.files) (hL : Levels m.files (levels m) m.nShared m.eFileLock)
  (h1 : SHARED_LOCK ≤ levels m f)
include h1

theorem grants_dropped {m' : UnixInodeInfo} (h₀ : levels m₀ = levels m)
    (h : levels m' = Function.update (levels m) f e) : Grants m₀ held₀ m' held := by
  apply grants_update _ (h.trans (by rw [h₀]))
  rw [h₀]
  exact Nat.one_le_iff_ne_zero.mp h1

include hf hL

/-- The last handle unlocks the whole file. -/
theorem last_levels (hn : m.nShared - 1 = 0) (g : ℕ) (hg : g ∈ m.files) :
    Function.update (levels m) f NO_LOCK g = NO_LOCK :=
  Nat.le_zero.mp ((hL.last hf h1 hn).le g hg)

theorem after_dropShared (hop : c.op = .unlock f NO_LOCK) (hpl : Plain m)
    (hR : m.nShared - 1 ≠ 0 → Ranges (below (levels m f) m.eFileLock) p r s)
    (h₀ : levels m₀ = levels m) :
    After c m₀ held₀ (dropShared { m with eFileLock := below (levels m f) m.eFileLock } f NO_LOCK)
      (bytes p r s) := by
  unfold dropShared
  rw [if_pos rfl]
  simp only
  split
  · rename_i hn
    have hpl' : ∀ n t, Plain { m with nShared := n, eFileLock := t } := fun _ _ => hpl
    apply after_request (hpl' (m.nShared - 1) (below (levels m f) m.eFileLock)) hf
    · rw [hop]
      apply guards_none
      have hmin : min NO_LOCK (levels m f) = NO_LOCK := Nat.zero_min _
      show ∀ g ∈ m.files, Function.update (levels m) f (min NO_LOCK (levels m f)) g = NO_LOCK
      rw [hmin]
      exact last_levels hf hL h1 hn
    · exact grants_same h₀.symm
    · exact fun hc => absurd rfl hc
    · rw [set_all]
      apply after_ret
      · refine idle_plain hpl frame_counted rfl ?_ Ranges.none
        rw [levels_counted]
        exact hL.last hf h1 hn
      · exact grants_dropped h1 rfl levels_counted
  · rename_i hn
    apply after_ret
    · refine idle_plain hpl frame_counted rfl ?_ (hR hn)
      rw [levels_counted]
      exact hL.leave hf h1 hn
    · exact grants_dropped h1 h₀ levels_counted

theorem after_dropShared_owner (how : Owner m) (hb : m.bProcessLock = true)
    (h₀ : levels m₀ = levels m) :
    After c m₀ held₀ (dropShared { m with eFileLock := below (levels m f) m.eFileLock } f NO_LOCK)
      (bytes .F_UNLCK .F_UNLCK .F_WRLCK) := by
  unfold dropShared
  rw [if_pos rfl]
  simp only
  split
  · rename_i hn
    have how' : ∀ n t, Owner { m with nShared := n, eFileLock := t } := fun _ _ => how
    rw [request_owner (how' (m.nShared - 1) (below (levels m f) m.eFileLock)) hf hb]
    apply after_ret
    · refine idle_owner how frame_counted hb ?_
      rw [levels_counted]
      exact hL.last hf h1 hn
    · exact grants_dropped h1 h₀ levels_counted
  · rename_i hn
    apply after_ret
    · refine idle_owner how frame_counted hb ?_
      rw [levels_counted]
      exact hL.leave hf h1 hn
    · exact grants_dropped h1 h₀ levels_counted

end Drop

section High

variable (hf : f ∈ m.files) (hL : Levels m.files (levels m) m.nShared m.eFileLock)
  (h1 : SHARED_LOCK < levels m f)
include h1

theorem below_high : below (levels m f) m.eFileLock = SHARED_LOCK := if_pos h1

include hf hL

/-- While the handle with the highest lock is unlocked, there are SHARED locks only. -/
theorem mid_unlock (hop : c.op = .unlock f e) (he : e ≤ SHARED_LOCK) (hs : s ≠ .F_UNLCK) :
    Guards m.files (c.op.levels (levels m)) (bytes p r s) := by
  rw [hop]
  apply guards_shared _ hs
  intro g hg
  show Function.update (levels m) f (min e (levels m f)) g ≤ SHARED_LOCK
  by_cases hgf : g = f
  · rw [hgf, Function.update_self]
    exact (min_le_left _ _).trans he
  · rw [Function.update_of_ne hgf]
    by_contra hc
    exact hgf (hL.one g hg f hf (not_le.mp hc) h1)

/-- Another handle has a lock, so that this one has no EXCLUSIVE lock. -/
theorem not_exclusive (hn : m.nShared - 1 ≠ 0) : m.eFileLock ≠ EXCLUSIVE_LOCK := by
  intro hx
  have hfx : levels m f = EXCLUSIVE_LOCK := (hL.top_of_shared hf h1).trans hx
  have hcard : m.files.filter (fun g => SHARED_LOCK ≤ levels m g) = {f} := by
    ext g
    rw [Finset.mem_filter, Finset.mem_singleton]
    constructor
    · rintro ⟨hg, hg1⟩
      by_contra hgf
      rw [hL.alone f hf hfx g hg hgf] at hg1
      exact absurd hg1 (by decide)
    · rintro rfl
      exact ⟨hf, h1.le⟩
  apply hn
  rw [hL.nShared, hcard]
  rfl

theorem after_dropBytes (hop : c.op = .unlock f e) (he : e = NO_LOCK ∨ e = SHARED_LOCK)
    (hpl : Plain m) (hs : s ≠ .F_UNLCK) (hs1 : e = SHARED_LOCK → s = .F_RDLCK)
    (hs0 : m.eFileLock ≠ EXCLUSIVE_LOCK → s = .F_RDLCK) (hg : Grants m₀ held₀ m (bytes p r s)) :
    After c m₀ held₀ (dropBytes m f e) (bytes p r s) := by
  unfold dropBytes
  have hle : e ≤ SHARED_LOCK := by
    rcases he with rfl | rfl
    · decide
    · exact le_refl _
  apply after_request hpl hf (mid_unlock hf hL h1 hop hle hs) hg
  · exact fun hc => absurd rfl hc
  rw [set_both]
  show After c m _ (dropShared { m with eFileLock := SHARED_LOCK } f e) _
  rcases he with rfl | rfl
  · rw [← below_high h1]
    refine after_dropShared hf hL h1.le hop hpl ?_ rfl
    intro hn
    rw [below_high h1, hs0 (not_exclusive hf hL h1 hn)]
    exact Ranges.one
  · rw [hs1 rfl]
    apply after_ret
    · refine idle_plain hpl frame_counted rfl ?_ Ranges.one
      rw [levels_counted]
      exact hL.lower hf h1
    · exact grants_dropped h1.le rfl levels_counted

theorem after_dropBytes_owner (he : e = NO_LOCK ∨ e = SHARED_LOCK) (how : Owner m)
    (hb : m.bProcessLock = true) :
    After c m held₀ (dropBytes m f e) (bytes .F_UNLCK .F_UNLCK .F_WRLCK) := by
  unfold dropBytes
  rw [request_owner how hf hb]
  show After c m _ (dropShared { m with eFileLock := SHARED_LOCK } f e) _
  rcases he with rfl | rfl
  · rw [← below_high h1]
    exact after_dropShared_owner hf hL h1.le how hb rfl
  · apply after_ret
    · refine idle_owner how frame_counted hb ?_
      rw [levels_counted]
      exact hL.lower hf h1
    · exact grants_dropped h1.le rfl levels_counted

end High

theorem posixUnlock_keeps (hI : Idle m held) (hop : c.op = .unlock f e)
    (hl : (Op.unlock f e).Legal m) : After c m held (posixUnlock m f e) held := by
  obtain ⟨hf, hle⟩ := hl
  have hL := hI.levels
  have he : e = NO_LOCK ∨ e = SHARED_LOCK := by
    unfold SHARED_LOCK at hle ⊢
    unfold NO_LOCK
    omega
  unfold posixUnlock
  split
  · exact after_ret hI (grants_same rfl)
  rename_i hlt
  have hlt' : e < levels m f := not_le.mp hlt
  split
  · rename_i h1
    rcases hI.bytes with ⟨hpl, p, r, s, rfl, hR⟩ | ⟨how, hb⟩
    · have hs : s ≠ .F_UNLCK := by
        have := (hL.guards hR).shared f hf (le_of_lt h1)
        rwa [bytes_shared] at this
      have hs0 : m.eFileLock ≠ EXCLUSIVE_LOCK → s = .F_RDLCK := by
        intro hx
        have hne : m.eFileLock ≠ NO_LOCK := by
          rw [← hL.top_of_shared hf h1]
          exact Nat.one_le_iff_ne_zero.mp (le_of_lt h1)
        have := hR.shared
        rwa [if_neg hne, if_neg hx] at this
      split
      · rename_i hes
        apply after_request hpl hf (mid_unlock hf hL h1 hop hle hs) (grants_same rfl)
        · exact fun _ _ => after_ret hI (grants_same rfl)
        rw [set_shared]
        exact after_dropBytes hf hL h1 hop he hpl (by decide) (fun _ => rfl) (fun _ => rfl)
          (grants_same rfl)
      · rename_i hes
        exact after_dropBytes hf hL h1 hop he hpl hs (fun hc => absurd hc hes) hs0 (grants_same rfl)
    · unfold ownerBytes at hb
      split at hb
      · rename_i hproc
        rw [hb]
        split
        · rw [request_owner how hf hproc]
          exact after_dropBytes_owner hf hL h1 he how hproc
        · exact after_dropBytes_owner hf hL h1 he how hproc
      · have := hL.le f hf
        rw [hb.1] at this
        exact absurd (lt_of_lt_of_le h1 this) (by decide)
  · rename_i h1
    have he0 : e = NO_LOCK := by
      unfold SHARED_LOCK at h1
      unfold NO_LOCK
      have : ¬ 1 < levels m f := h1
      omega
    subst he0
    have hbelow : below (levels m f) m.eFileLock = m.eFileLock := if_neg h1
    have hself : m = { m with eFileLock := below (levels m f) m.eFileLock } := by rw [hbelow]
    have h1' : SHARED_LOCK ≤ levels m f := hlt'
    rw [hself]
    rcases hI.bytes with ⟨hpl, p, r, s, rfl, hR⟩ | ⟨how, hb⟩
    · refine after_dropShared hf hL h1' hop hpl ?_ rfl
      intro _
      rw [hbelow]
      exact hR
    · unfold ownerBytes at hb
      split at hb
      · rename_i hproc
        rw [hb]
        exact after_dropShared_owner hf hL h1' how hproc rfl
      · have := hL.le f hf
        rw [hb.1] at this
        exact absurd (h1'.trans this) (by decide)

theorem unixCheckReservedLock_keeps (hI : Idle m held) (hop : c.op = .checkReserved f) :
    After c m held (unixCheckReservedLock m) held := by
  have hret : ∀ rc b, After c m held (.ret m ⟨rc, b⟩) held :=
    fun rc b => ⟨grants_same rfl, hI, trivial⟩
  unfold unixCheckReservedLock
  split
  · exact hret _ _
  · split
    · rename_i hproc
      have hguards : Guards m.files (levels m) held := by
        rcases hI.bytes with ⟨hpl, p, r, s, rfl, hR⟩ | ⟨how, hb⟩
        · exact hI.levels.guards hR
        · unfold ownerBytes at hb
          rw [if_neg (by rw [hproc]; decide)] at hb
          apply guards_none
          intro g hg
          have := hI.levels.le g hg
          rw [hb.1] at this
          exact Nat.le_zero.mp this
      apply after_ask _ (grants_same rfl)
      · intro x held' hx
        cases hx with
        | told =>
          cases x with
          | failed _ => exact hret _ _
          | done _ => exact hret _ _
      · rw [hop]
        exact hguards
    · exact hret _ _

end Sqlite.FileLock
