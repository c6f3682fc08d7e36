import Sqlite.Bits.Repr

/-! Setting a bit, also when the hash table is full enough to be split up: the old values go into
smaller bit vectors then, which are set in the same way. -/
namespace Sqlite.Bits

open Foundation

variable {ptr n i : ℕ} {p : Bitvec} {S : ℕ → Prop} {aBitmap : ℕ → BitVec 8} {aHash : ℕ → ℕ} {apSub : ℕ → Bitvec}
  {T : Finset ℕ}

/-- A bit vector for numbers below `n` that is split into smaller ones. -/
inductive Split (ptr n : ℕ) : Bitvec → (ℕ → Prop) → Prop
  | mk {nSet d : ℕ} {aBitmap : ℕ → BitVec 8} {aHash : ℕ → ℕ} {apSub : ℕ → Bitvec} {S : ℕ → Prop}
      (hn : BITVEC_NBIT ptr < n) (hmax : n + BITVEC_NPTR ptr ≤ 2 ^ 32) (hd : 0 < d) (hdn : d < n)
      (hcap : n ≤ d * BITVEC_NPTR ptr) (hSn : ∀ x, S x → x < n)
      (hsub : ∀ bin < BITVEC_NPTR ptr, Repr ptr d (apSub bin) fun y => y < d ∧ S (bin * d + y)) :
      Split ptr n (.mk n nSet d aBitmap aHash apSub) S

theorem Split.repr (h : Split ptr n p S) : Repr ptr n p S := by
  cases h with
  | mk hn hmax hd hdn hcap hSn hsub => exact .sub hn hmax hd hdn hcap hSn hsub

theorem Split.ne_null (h : Split ptr n p S) : p ≠ .null := by
  cases h
  simp

theorem divisor_spec (hptr : ptr = 4 ∨ ptr = 8) (hn : BITVEC_NBIT ptr < n)
    (hmax : n + BITVEC_NPTR ptr ≤ 2 ^ 32) :
    0 < divisor ptr n ∧ divisor ptr n < n ∧ n ≤ divisor ptr n * BITVEC_NPTR ptr := by
  obtain ⟨h1, h2, h3⟩ := nptr_bounds hptr
  have hwidth : 2 ^ 32 ≤ 2 ^ (8 * ptr) := Nat.pow_le_pow_right (by decide) (by omega)
  rw [divisor]
  generalize BITVEC_NPTR ptr = N at h1 h2 hmax ⊢
  generalize BITVEC_NBIT ptr = B at hn h3
  rw [Nat.mod_eq_of_lt (by omega)]
  have hsplit := Nat.div_add_mod (n + N - 1) N
  have hmod := Nat.mod_lt (n + N - 1) (by omega : 0 < N)
  refine ⟨Nat.div_pos (by omega) (by omega), ?_, ?_⟩
  · have hle := Nat.add_le_mul (by omega : 2 ≤ N) (by omega : 2 ≤ n)
    exact Nat.div_lt_of_lt_mul (by omega)
  · rw [mul_comm]
    omega

/-- A hash table with room takes a value into a slot that is free for it. -/
theorem repr_hash_insert (hn : BITVEC_NBIT ptr < n) (hmax : n + BITVEC_NPTR ptr ≤ 2 ^ 32)
    (hS : ∀ x, S x ↔ x + 1 ∈ T) (hSn : ∀ x, S x → x < n) (hi : i < n) (hnew : i + 1 ∉ T) {h : ℕ}
    (hins : Stored (BITVEC_NINT ptr) (home ptr) (Function.update aHash h (i + 1)) (insert (i + 1) T))
    (hroom : T.card + 1 < BITVEC_NINT ptr) :
    Repr ptr n (.mk n (T.card + 1) 0 aBitmap (Function.update aHash h (i + 1)) apSub)
      fun x => S x ∨ x = i := by
  have hcard := Finset.card_insert_of_notMem hnew
  rw [← hcard]
  refine .hash hn hmax _ hins (by omega) (fun x => ?_) fun x hx => ?_
  · rw [Finset.mem_insert, hS]
    simp only [Nat.add_right_cancel_iff]
    exact or_comm
  · rcases hx with hx | rfl
    · exact hSn x hx
    · exact hi

theorem repr_bitmap_set {nSet : ℕ} (hn : n ≤ BITVEC_NBIT ptr)
    (hS : ∀ x, S x ↔ x < n ∧ aBitmap (x / BITVEC_SZELEM) &&& bitMask x ≠ 0) (hi : i < n) :
    Repr ptr n (.mk n nSet 0 (Function.update aBitmap (i / BITVEC_SZELEM)
      (aBitmap (i / BITVEC_SZELEM) ||| bitMask i)) aHash apSub) fun x => S x ∨ x = i := by
  refine .bitmap hn fun x => ?_
  have heq := eq_iff_byte_bit (x := x) (i := i)
  rw [bit_update, hS, or_bitMask, heq]
  by_cases hx : x / BITVEC_SZELEM = i / BITVEC_SZELEM
  · by_cases hxi : i % 8 = x % 8
    · have hlt : x < n := (heq.mpr ⟨hx, hxi⟩).symm ▸ hi
      simp [hx, hxi, hlt]
    · simp [hx, hxi]
  · simp [hx]

/-- The search for a new value ends at its home slot if that is free. -/
theorem seek_home {h : ℕ} (h0 : 0 < BITVEC_NINT ptr) (hfree : aHash (BITVEC_HASH ptr i) = 0)
    (hseek : seek (nextSlot ptr) aHash (i + 1) (BITVEC_NINT ptr) (BITVEC_HASH ptr i) = some h) :
    h = BITVEC_HASH ptr i := by
  obtain ⟨b, hb⟩ := Nat.exists_eq_succ_of_ne_zero h0.ne'
  rw [hb, seek, if_pos (Or.inl hfree)] at hseek
  exact (Option.some.inj hseek).symm

end Sqlite.Bits
