import Sqlite.Bits.Alloc

/-! What a call that runs out of memory leaves of a bit vector. -/
namespace Sqlite.Bits.Alloc

open Foundation

variable {ptr n d i x k count : ℕ} {alloc : ℕ → Bool} {p : Bitvec} {S S' : ℕ → Prop} {rc : Rc}
  {f : Bitvec → ℕ → ℕ → Option Result} {aBitmap : ℕ → BitVec 8} {aHash : ℕ → ℕ} {apSub : ℕ → Bitvec}
  {T : Finset ℕ}

/-- The set behind a call for `i` on a bit vector for `S`: a success adds `i`, and a failure can lose
numbers of the hash table that is split up. -/
structure After (ptr : ℕ) (alloc : ℕ → Bool) (p : Bitvec) (S : ℕ → Prop) (i count : ℕ) (rc : Rc)
    (S' : ℕ → Prop) : Prop where
  ok : rc = .SQLITE_OK → ∀ x, S' x ↔ S x ∨ x = i
  sub : ∀ x, S' x → S x ∨ x = i
  lost : ∀ x, S x → x ≠ i → ¬ S' x → alloc count = true ∧ Rehashes ptr p i ∧ SameTable p i x
  fails : rc = .SQLITE_NOMEM → ∃ k, alloc k = false

theorem After.of_iff (h : ∀ x, S' x ↔ S x ∨ x = i) : After ptr alloc p S i count .SQLITE_OK S' :=
  ⟨fun _ => h, fun x hx => (h x).mp hx, fun x hx _ hn => absurd ((h x).mpr (.inl hx)) hn, nofun⟩

theorem After.of_unchanged (h : ∃ k, alloc k = false) : After ptr alloc p S i count .SQLITE_NOMEM S :=
  ⟨nofun, fun _ => .inl, fun _ hx _ hn => absurd hx hn, fun _ => h⟩

theorem After.rc_eq (h : After ptr alloc p S i count rc S') (halloc : ∀ k, alloc k = true) :
    rc = .SQLITE_OK := by
  cases hrc : rc with
  | SQLITE_OK => rfl
  | SQLITE_NOMEM =>
    obtain ⟨k, hk⟩ := h.fails hrc
    rw [halloc k] at hk
    cases hk

/-- `f` sets bits of bit vectors for numbers below `n`. -/
def Sets (ptr : ℕ) (alloc : ℕ → Bool) (f : Bitvec → ℕ → ℕ → Option Result) (n : ℕ) : Prop :=
  ∀ p S i count, Repr ptr n p S → p ≠ .null → i < n →
    ∃ r S', f p i count = some r ∧ r.p ≠ .null ∧ Repr ptr n r.p S' ∧
      After ptr alloc p S i count r.rc S'

/-- The same for bit vectors that are split. -/
def SetsSplit (ptr : ℕ) (alloc : ℕ → Bool) (f : Bitvec → ℕ → ℕ → Option Result) (n : ℕ) : Prop :=
  ∀ p S i count, Split ptr n p S → i < n →
    ∃ r S', f p i count = some r ∧ Split ptr n r.p S' ∧ After ptr alloc p S i count r.rc S'

theorem checkedSet_split (hf : SetsSplit ptr alloc f n) (h : Split ptr n p S) (h0 : 0 < i)
    (hi : i ≤ n) (count : ℕ) :
    ∃ r S', checkedSet f p i count = some r ∧ Split ptr n r.p S' ∧
      (r.rc = .SQLITE_OK → ∀ x, S' x ↔ S x ∨ x + 1 = i) ∧ (∀ x, S' x → S x ∨ x + 1 = i) ∧
      (r.rc = .SQLITE_NOMEM → ∃ k, alloc k = false) := by
  obtain ⟨r, S', hr, hsplit, hafter⟩ := hf p S (i - 1) count h (by omega)
  refine ⟨r, S', ?_, hsplit, fun hok x => ?_, fun x hx => ?_, hafter.fails⟩
  · rw [checkedSet, if_pos ⟨h0, by rwa [h.repr.iSize_eq h.ne_null]⟩, hr]
  · rw [hafter.ok hok]
    exact or_congr_right (by omega)
  · exact (hafter.sub x hx).imp_right (by omega)

theorem Rc.or_eq_ok {a b : Rc} : a.or b = .SQLITE_OK ↔ a = .SQLITE_OK ∧ b = .SQLITE_OK := by
  cases a <;> simp [Rc.or]

theorem Rc.or_eq_nomem {a b : Rc} : a.or b = .SQLITE_NOMEM ↔ a = .SQLITE_NOMEM ∨ b = .SQLITE_NOMEM := by
  cases a <;> simp [Rc.or]

/-- The old values are set again as far as allocations succeed. -/
theorem rehashLoop_spec {r₀ : Result} (hf : SetsSplit ptr alloc f n) (h : Split ptr n r₀.p S)
    (hvals : ∀ j < BITVEC_NINT ptr, aHash j ≤ n) {j : ℕ} (hj : j ≤ BITVEC_NINT ptr) :
    ∃ r S', rehashLoop f aHash j r₀ = some r ∧ Split ptr n r.p S' ∧
      (r.rc = .SQLITE_OK → r₀.rc = .SQLITE_OK ∧ ∀ x, S' x ↔ S x ∨ ∃ m < j, aHash m = x + 1) ∧
      (∀ x, S' x → S x ∨ ∃ m < j, aHash m = x + 1) ∧
      (r.rc = .SQLITE_NOMEM → r₀.rc = .SQLITE_NOMEM ∨ ∃ k, alloc k = false) := by
  induction j with
  | zero => exact ⟨r₀, S, rfl, h, fun hok => ⟨hok, fun x => by simp⟩, fun x => .inl, .inl⟩
  | succ j ih =>
    obtain ⟨r₁, S₁, hr₁, hsplit₁, hok₁, hsub₁, hno₁⟩ := ih (by omega)
    rw [rehashLoop, hr₁, Option.bind_some]
    split_ifs with hne
    · obtain ⟨r₂, S₂, hr₂, hsplit₂, hok₂, hsub₂, hno₂⟩ := checkedSet_split hf hsplit₁
        (Nat.pos_of_ne_zero hne) (hvals j (by omega)) r₁.count
      refine ⟨{ r₂ with rc := r₁.rc.or r₂.rc }, S₂, by rw [hr₂, Option.map_some], hsplit₂,
        fun hok => ?_, fun x hx => ?_, fun hno => ?_⟩
      · obtain ⟨h1, h2⟩ := Rc.or_eq_ok.mp hok
        refine ⟨(hok₁ h1).1, fun x => ?_⟩
        rw [hok₂ h2, (hok₁ h1).2]
        simp only [Nat.lt_succ_iff_lt_or_eq, or_and_right, exists_or, exists_eq_left, or_assoc,
          eq_comm (a := x + 1)]
      · rcases hsub₂ x hx with hx | hx
        · rcases hsub₁ x hx with hx | ⟨m, hm, hmx⟩
          · exact .inl hx
          · exact .inr ⟨m, by omega, hmx⟩
        · exact .inr ⟨j, Nat.lt_succ_self j, hx.symm⟩
      · exact (Rc.or_eq_nomem.mp hno).elim hno₁ fun h => .inr (hno₂ h)
    · refine ⟨r₁, S₁, rfl, hsplit₁, fun hok => ⟨(hok₁ hok).1, fun x => ?_⟩, fun x hx => ?_, hno₁⟩
      · have hj' : aHash j ≠ x + 1 := by omega
        rw [(hok₁ hok).2]
        simp only [Nat.lt_succ_iff_lt_or_eq, or_and_right, exists_or, exists_eq_left, hj', or_false]
      · rcases hsub₁ x hx with hx | ⟨m, hm, hmx⟩
        · exact .inl hx
        · exact .inr ⟨m, by omega, hmx⟩

/-- The set in which the numbers of one smaller bit vector are those of `Q`. -/
def putBin (d bin : ℕ) (Q S : ℕ → Prop) (x : ℕ) : Prop := (x / d = bin ∧ Q (x % d)) ∨ (x / d ≠ bin ∧ S x)

theorem putBin_of_eq {bin : ℕ} {Q : ℕ → Prop} (h : x / d = bin) : putBin d bin Q S x ↔ Q (x % d) := by
  simp [putBin, h]

theorem putBin_of_ne {bin : ℕ} {Q : ℕ → Prop} (h : x / d ≠ bin) : putBin d bin Q S x ↔ S x := by
  simp [putBin, h]

/-- The call in a bit vector that is split, from that in the smaller one. -/
theorem after_bin {nSet : ℕ} {Q : ℕ → Prop} (hd : 0 < d)
    (hQ : After ptr alloc (apSub (i / d)) (fun y => y < d ∧ S (i / d * d + y)) (i % d) count rc Q) :
    After ptr alloc (.mk n nSet d aBitmap aHash apSub) S i count rc (putBin d (i / d) Q S) := by
  have hmod : ∀ x, x / d = i / d → i / d * d + x % d = x ∧ (x % d = i % d ↔ x = i) := by
    intro x hx
    have h1 := bin_add x d
    have h2 := bin_add i d
    rw [hx] at h1
    omega
  have hout : ∀ x, x / d ≠ i / d → x ≠ i := by
    rintro x hx rfl
    exact hx rfl
  refine ⟨fun hok x => ?_, fun x hx => ?_, fun x hS hne hno => ?_, hQ.fails⟩
  · by_cases hx : x / d = i / d
    · obtain ⟨h1, h2⟩ := hmod x hx
      rw [putBin_of_eq hx, hQ.ok hok, h1, h2]
      simp [Nat.mod_lt x hd]
    · rw [putBin_of_ne hx]
      simp [hout x hx]
  · by_cases hbin : x / d = i / d
    · obtain ⟨h1, h2⟩ := hmod x hbin
      have hsub := hQ.sub _ ((putBin_of_eq hbin).mp hx)
      rw [h1, h2] at hsub
      exact hsub.imp_left And.right
    · exact .inl ((putBin_of_ne hbin).mp hx)
  · by_cases hbin : x / d = i / d
    · obtain ⟨h1, h2⟩ := hmod x hbin
      rw [putBin_of_eq hbin] at hno
      obtain ⟨ha, hr, ht⟩ := hQ.lost (x % d) ⟨Nat.mod_lt x hd, h1.symm ▸ hS⟩ (mt h2.mp hne) hno
      refine ⟨ha, ?_, fun _ => ⟨hbin.symm, ht⟩⟩
      rw [Rehashes, if_pos hd.ne']
      exact hr
    · exact absurd ((putBin_of_ne hbin).mpr hS) hno

/-- A smaller bit vector is replaced. -/
theorem split_bin {nSet : ℕ} {Q : ℕ → Prop} {sub : Bitvec} (hn : BITVEC_NBIT ptr < n)
    (hmax : n + BITVEC_NPTR ptr ≤ 2 ^ 32) (hd : 0 < d) (hdn : d < n) (hcap : n ≤ d * BITVEC_NPTR ptr)
    (hSn : ∀ x, S x → x < n) (hi : i < n)
    (hsub : ∀ bin < BITVEC_NPTR ptr, Repr ptr d (apSub bin) fun y => y < d ∧ S (bin * d + y))
    (hQ : Repr ptr d sub Q) (hQd : ∀ y, Q y → (y < d ∧ S (i / d * d + y)) ∨ y = i % d) :
    Split ptr n (.mk n nSet d aBitmap aHash (Function.update apSub (i / d) sub))
      (putBin d (i / d) Q S) := by
  have hQlt : ∀ y, Q y → y < d := fun y hy => by
    rcases hQd y hy with h | rfl
    · exact h.1
    · exact Nat.mod_lt i hd
  refine .mk hn hmax hd hdn hcap (fun x hx => ?_) (sub_update hsub (hQ.congr fun y => ?_)
    (fun x hx => putBin_of_ne hx) hd)
  · by_cases hbin : x / d = i / d
    · have h1 := bin_add x d
      have h2 := bin_add i d
      rw [hbin] at h1
      rcases hQd _ ((putBin_of_eq hbin).mp hx) with h | h
      · rw [h1] at h
        exact hSn x h.2
      · omega
    · exact hSn x ((putBin_of_ne hbin).mp hx)
  · have hbin : y < d → (i / d * d + y) / d = i / d ∧ (i / d * d + y) % d = y := fun hy => by
      rw [mul_comm, Nat.mul_add_div hd, Nat.div_eq_of_lt hy, Nat.mul_add_mod, Nat.mod_eq_of_lt hy]
      simp
    constructor
    · intro hy
      obtain ⟨h1, h2⟩ := hbin (hQlt y hy)
      rw [putBin_of_eq h1, h2]
      exact ⟨hQlt y hy, hy⟩
    · rintro ⟨hy, hput⟩
      obtain ⟨h1, h2⟩ := hbin hy
      rwa [putBin_of_eq h1, h2] at hput

theorem After.of_empty {S₀ Q : ℕ → Prop} {p₀ : Bitvec} {count₀ : ℕ}
    (h : After ptr alloc p₀ S₀ i count₀ rc Q) (hS₀ : ∀ x, ¬ S₀ x) (hS : ∀ x, ¬ S x) :
    After ptr alloc p S i count rc Q := by
  refine ⟨fun hok x => ?_, fun x hx => ?_, fun x hx => absurd hx (hS x), h.fails⟩
  · rw [h.ok hok]
    simp [hS₀ x, hS x]
  · exact .inr ((h.sub x hx).resolve_left (hS₀ x))

theorem subOrNew_spec (alloc : ℕ → Bool) (h0 : 0 < BITVEC_NINT ptr) (hmax : d + BITVEC_NPTR ptr ≤ 2 ^ 32)
    (h : Repr ptr d p S) (count : ℕ) : (subOrNew alloc d count p = none ∧ ∃ k, alloc k = false) ∨
      ∃ sub count', subOrNew alloc d count p = some (sub, count') ∧ sub ≠ .null ∧ Repr ptr d sub S ∧
        ((sub = p ∧ count' = count) ∨ ∀ x, ¬ S x) := by
  cases hp : p with
  | null =>
    rw [subOrNew]
    split_ifs with hal
    · subst hp
      cases h with
      | null hS =>
        exact .inr ⟨_, _, rfl, by simp [sqlite3BitvecCreate],
          (repr_create h0 hmax).congr fun x => by simp [hS x], .inr hS⟩
    · exact .inl ⟨rfl, count, Bool.eq_false_of_not_eq_true hal⟩
  | mk => exact .inr ⟨_, count, rfl, by simp, hp ▸ h, .inl ⟨rfl, rfl⟩⟩

theorem setLoop_split (h0 : 0 < BITVEC_NINT ptr)
    (hsets : ∀ d, d < n → Sets ptr alloc (setLoop ptr alloc k) d) :
    SetsSplit ptr alloc (setLoop ptr alloc (k + 1)) n := by
  intro p S i count h hi
  cases h with
  | @mk nSet d aBitmap aHash apSub _ hn hmax hd hdn hcap hSn hsub =>
    have hrepr := hsub _ (bin_lt hi hcap)
    rw [setLoop, if_pos ⟨hn, hd.ne'⟩]
    rcases subOrNew_spec alloc h0 (by omega) hrepr count with
      ⟨hnone, hal⟩ | ⟨sub, count', hsome, hne, hsubr, hwhich⟩
    · rw [hnone]
      exact ⟨_, S, rfl, .mk hn hmax hd hdn hcap hSn hsub, .of_unchanged hal⟩
    · obtain ⟨r, Q, hr, -, hQ, hafter⟩ := hsets d hdn _ _ (i % d) count' hsubr hne (Nat.mod_lt i hd)
      rw [hsome]
      dsimp only
      rw [hr, Option.map_some]
      refine ⟨_, _, rfl, split_bin hn hmax hd hdn hcap hSn hi hsub hQ hafter.sub, after_bin hd ?_⟩
      rcases hwhich with ⟨rfl, rfl⟩ | hempty
      · exact hafter
      · exact hafter.of_empty hempty hempty

/-- The hash table is split up, or the buffer for that cannot be had, or the table takes the value into
the free slot `h`. -/
theorem setRehash_spec (hptr : ptr = 4 ∨ ptr = 8) (hn : BITVEC_NBIT ptr < n)
    (hmax : n + BITVEC_NPTR ptr ≤ 2 ^ 32)
    (hT : Stored (BITVEC_NINT ptr) (home ptr) aHash T) (hlt : T.card < BITVEC_NINT ptr)
    (hS : ∀ x, S x ↔ x + 1 ∈ T) (hSn : ∀ x, S x → x < n) (hi : i < n) (hnew : i + 1 ∉ T) {h : ℕ}
    (hins : Stored (BITVEC_NINT ptr) (home ptr) (Function.update aHash h (i + 1)) (insert (i + 1) T))
    (hfull : aHash (BITVEC_HASH ptr i) ≠ 0 ∨ BITVEC_NINT ptr - 1 ≤ T.card)
    (hf : SetsSplit ptr alloc f n) :
    ∃ r S', setRehash ptr alloc f n T.card 0 aBitmap aHash apSub (i + 1) h count = some r ∧
      r.p ≠ .null ∧ Repr ptr n r.p S' ∧
      After ptr alloc (.mk n T.card 0 aBitmap aHash apSub) S i count r.rc S' := by
  have hmx := mxhash_le hptr
  have hpos := nint_pos hptr
  rw [setRehash]
  split_ifs with hmxhash hal
  · obtain ⟨hd, hdn, hcap⟩ := divisor_spec hptr hn hmax
    have hempty : Split ptr n (.mk n T.card (divisor ptr n) (fun _ => 0) (fun _ => 0)
        (fun _ => .null)) fun _ => False :=
      .mk hn hmax hd hdn hcap (by simp) fun bin _ => .null (by simp)
    obtain ⟨r₁, S₁, hr₁, hsplit₁, hok₁, hsub₁, hno₁⟩ :=
      checkedSet_split hf hempty (Nat.succ_pos i) hi (count + 1)
    have hvals : ∀ j < BITVEC_NINT ptr, aHash j ≤ n := by
      intro j hj
      by_cases hz : aHash j = 0
      · omega
      · have hmem := (hT.mem _).mpr ⟨hz, j, hj, rfl⟩
        obtain ⟨x, hx⟩ := Nat.exists_eq_succ_of_ne_zero hz
        rw [hx] at hmem ⊢
        exact hSn x ((hS x).mpr hmem)
    obtain ⟨r₂, S₂, hr₂, hsplit₂, hok₂, hsub₂, hno₂⟩ := rehashLoop_spec hf hsplit₁ hvals le_rfl
    have hold : ∀ x, (∃ m < BITVEC_NINT ptr, aHash m = x + 1) ↔ S x := fun x => by
      rw [hS, hT.mem]
      simp
    refine ⟨r₂, S₂, by rw [hr₁, Option.bind_some, hr₂], hsplit₂.ne_null, hsplit₂.repr,
      fun hok x => ?_, fun x hx => ?_, fun x _ _ _ => ⟨hal, ?_, ?_⟩, fun hno => (hno₂ hno).elim hno₁ id⟩
    · rw [(hok₂ hok).2, hok₁ (hok₂ hok).1, hold]
      simp [or_comm]
    · rcases hsub₂ x hx with hx | hx
      · exact .inr (by simpa using hsub₁ x hx)
      · exact .inl ((hold x).mp hx)
    · rw [Rehashes, if_neg (by simp)]
      refine ⟨hn, fun k hk hval => hnew ?_, hmxhash, hfull⟩
      exact hval ▸ (hT.mem _).mpr ⟨by simp [hval], k, hk, rfl⟩
    · exact fun h0 => absurd rfl h0
  · exact ⟨_, S, rfl, by simp, .hash hn hmax T hT hlt hS hSn,
      .of_unchanged ⟨count, Bool.eq_false_of_not_eq_true hal⟩⟩
  · exact ⟨_, _, rfl, by simp, repr_hash_insert hn hmax hS hSn hi hnew hins (by omega),
      After.of_iff fun _ => Iff.rfl⟩

theorem setLoop_step (hptr : ptr = 4 ∨ ptr = 8) (hsplit : SetsSplit ptr alloc (setLoop ptr alloc k) n)
    (hsplit' : SetsSplit ptr alloc (setLoop ptr alloc (k + 1)) n) :
    Sets ptr alloc (setLoop ptr alloc (k + 1)) n := by
  have h0 := nint_pos hptr
  intro p S i count h hp hi
  cases h with
  | null => exact absurd rfl hp
  | bitmap hn hS =>
    exact ⟨_, _, by rw [setLoop, if_neg (by omega), if_pos hn], by simp, repr_bitmap_set hn hS hi,
      After.of_iff fun _ => Iff.rfl⟩
  | @hash n aBitmap aHash apSub _ hn hmax T hT hlt hS hSn =>
    obtain ⟨h, -, hseek, hmem, hadd⟩ := hT.seek_spec (v := i + 1) nextSlot_eq
      (hash_lt h0 _) (by simp) hlt
    rw [home_succ] at hseek
    rw [setLoop, if_neg (by simp), if_neg (not_le.mpr hn)]
    by_cases hfree : aHash (BITVEC_HASH ptr i) = 0
    · have hh := seek_home h0 hfree hseek
      have hnew : i + 1 ∉ T := fun hc => by
        have hv := hmem hc
        rw [hh, hfree] at hv
        omega
      obtain ⟨-, hins⟩ := hadd hnew
      rw [hh] at hins
      rw [if_pos hfree]
      split_ifs with hroom
      · exact ⟨_, _, rfl, by simp, repr_hash_insert hn hmax hS hSn hi hnew hins (by omega),
          After.of_iff fun _ => Iff.rfl⟩
      · exact setRehash_spec hptr hn hmax hT hlt hS hSn hi hnew hins (.inr (by omega)) hsplit
    · rw [if_neg hfree, hseek, Option.bind_some]
      by_cases hin : i + 1 ∈ T
      · rw [if_pos (hmem hin)]
        refine ⟨_, S, rfl, by simp, .hash hn hmax T hT hlt hS hSn, After.of_iff fun x => ?_⟩
        simpa using fun hx : x = i => hx ▸ (hS i).mpr hin
      · obtain ⟨hzero, hins⟩ := hadd hin
        rw [if_neg (by omega)]
        exact setRehash_spec hptr hn hmax hT hlt hS hSn hi hin hins (.inl hfree) hsplit
  | sub hn hmax hd hdn hcap hSn hsub =>
    obtain ⟨r, S', hr, hs, hafter⟩ := hsplit' _ S i count (.mk hn hmax hd hdn hcap hSn hsub) hi
    exact ⟨r, S', hr, hs.ne_null, hs.repr, hafter⟩

theorem setLoop_sets (hptr : ptr = 4 ∨ ptr = 8) (alloc : ℕ → Bool) (k : ℕ) :
    (∀ n, 2 * n + 1 ≤ k → SetsSplit ptr alloc (setLoop ptr alloc k) n) ∧
      ∀ n, 2 * n + 2 ≤ k → Sets ptr alloc (setLoop ptr alloc k) n := by
  induction k with
  | zero => exact ⟨fun n hn => by omega, fun n hn => by omega⟩
  | succ k ih =>
    have hsplit : ∀ n, 2 * n + 1 ≤ k + 1 → SetsSplit ptr alloc (setLoop ptr alloc (k + 1)) n :=
      fun n hn => setLoop_split (nint_pos hptr) fun d hd => ih.2 d (by omega)
    exact ⟨hsplit, fun n hn => setLoop_step hptr (ih.1 n (by omega)) (hsplit n (by omega))⟩

/-! Runs in which allocations fail. -/

variable {iSize : ℕ} {ops : List BitvecOp} {op : BitvecOp}

/-- The bit vector holds some set of numbers in its range. -/
def Holds (ptr iSize : ℕ) (p : Bitvec) (S : ℕ → Prop) : Prop := p ≠ .null ∧ Repr ptr iSize p S

theorem Holds.test (hptr : ptr = 4 ∨ ptr = 8) (h : Holds ptr iSize p S) (i : ℕ) :
    ∃ b, sqlite3BitvecTest ptr p i = some b ∧ (b = true ↔ (1 ≤ i ∧ i ≤ iSize) ∧ S (i - 1)) := by
  obtain ⟨hp, hrepr⟩ := h
  rw [sqlite3BitvecTest, hrepr.iSize_eq hp]
  split_ifs with hout
  · refine ⟨false, rfl, ?_⟩
    simp only [Bool.false_eq_true, false_iff]
    omega
  · obtain ⟨b, hb, hiff⟩ := testLoop_spec (nint_pos hptr) hrepr (by omega : i - 1 < iSize)
    exact ⟨b, hb, by rw [hiff]; simp [show 1 ≤ i ∧ i ≤ iSize by omega]⟩

theorem Holds.set (hptr : ptr = 4 ∨ ptr = 8) (h : Holds ptr iSize p S) (alloc : ℕ → Bool)
    (hi : 1 ≤ i ∧ i ≤ iSize) : ∃ r S', sqlite3BitvecSet ptr alloc p i = some r ∧
      Holds ptr iSize r.p S' ∧ After ptr alloc p S (i - 1) 0 r.rc S' := by
  obtain ⟨hp, hrepr⟩ := h
  obtain ⟨r, S', hr, hne, hrepr', hafter⟩ := (setLoop_sets hptr alloc (2 * iSize + 2)).2 iSize le_rfl
    p S (i - 1) 0 hrepr hp (by omega)
  refine ⟨r, S', ?_, ⟨hne, hrepr'⟩, hafter⟩
  have hset : sqlite3BitvecSet ptr alloc p i =
      checkedSet (setLoop ptr alloc (2 * p.iSize + 2)) p i 0 := by
    cases p with
    | null => exact absurd rfl hp
    | mk => rfl
  have hpos : 0 < i ∧ i ≤ iSize := hi
  rw [hset, checkedSet, hrepr.iSize_eq hp, if_pos hpos, hr]

theorem Holds.step (hptr : ptr = 4 ∨ ptr = 8) (h : Holds ptr iSize p S) (hop : op.InRange iSize) :
    ∃ p' S', step ptr p op = some p' ∧ Holds ptr iSize p' S' := by
  cases op with
  | set alloc i =>
    obtain ⟨r, S', hr, hholds, -⟩ := h.set hptr alloc hop
    exact ⟨r.p, S', by rw [Alloc.step, hr, Option.map_some], hholds⟩
  | clear i =>
    obtain ⟨h1, hle⟩ := hop
    have hpos : 0 < i := h1
    obtain ⟨p', hp', hrepr', hne⟩ :=
      clearLoop_spec (nint_pos hptr) h.2 (by omega : i - 1 < iSize)
    have hclear : sqlite3BitvecClear ptr p i = if 0 < i then clearLoop ptr p (i - 1) else none := by
      cases p with
      | null => exact absurd rfl h.1
      | mk => rfl
    exact ⟨p', _, by rw [Alloc.step, hclear, if_pos hpos, hp'], hne h.1, hrepr'⟩
  | test i =>
    obtain ⟨b, hb, -⟩ := h.test hptr i
    exact ⟨p, S, by rw [Alloc.step, hb, Option.map_some], h⟩

theorem run_holds (hptr : ptr = 4 ∨ ptr = 8) (h : Holds ptr iSize p S)
    (hops : ∀ op ∈ ops, BitvecOp.InRange iSize op) :
    ∃ p' S', run ptr p ops = some p' ∧ Holds ptr iSize p' S' := by
  induction ops generalizing p S with
  | nil => exact ⟨p, S, rfl, h⟩
  | cons op ops ih =>
    obtain ⟨p₁, S₁, hstep, h₁⟩ := h.step hptr (hops op List.mem_cons_self)
    rw [run, hstep, Option.bind_some]
    exact ih h₁ fun o ho => hops o (List.mem_cons_of_mem _ ho)

/-- Whatever allocations fail, a call for `i` adds `i` when it succeeds; when it does not, it adds no
other number, and it loses others only from a hash table that it has begun to split up. -/
theorem bitvec_set_nomem (hptr : ptr = 4 ∨ ptr = 8) (hmax : iSize + BITVEC_NPTR ptr ≤ 2 ^ 32)
    (hops : ∀ op ∈ ops, BitvecOp.InRange iSize op) :
    ∃ p, run ptr (sqlite3BitvecCreate iSize) ops = some p ∧
      ∀ alloc i, 1 ≤ i ∧ i ≤ iSize → ∃ r, sqlite3BitvecSet ptr alloc p i = some r ∧
        ∀ j, ∃ b b', sqlite3BitvecTest ptr p j = some b ∧ sqlite3BitvecTest ptr r.p j = some b' ∧
          (r.rc = .SQLITE_OK → (b' = true ↔ b = true ∨ j = i)) ∧
          (r.rc = .SQLITE_NOMEM → j ≠ i → b' ≠ b →
            b = true ∧ alloc 0 = true ∧ Rehashes ptr p (i - 1) ∧ SameTable p (i - 1) (j - 1)) := by
  obtain ⟨p, S, hrun, h⟩ := run_holds hptr ⟨by simp [sqlite3BitvecCreate],
    repr_create (nint_pos hptr) hmax⟩ hops
  refine ⟨p, hrun, fun alloc i hi => ?_⟩
  obtain ⟨r, S', hr, h', hafter⟩ := h.set hptr alloc hi
  refine ⟨r, hr, fun j => ?_⟩
  obtain ⟨b, hb, hiff⟩ := h.test hptr j
  obtain ⟨b', hb', hiff'⟩ := h'.test hptr j
  refine ⟨b, b', hb, hb', fun hok => ?_, fun _ hne hdiff => ?_⟩
  · rw [hiff, hiff', hafter.ok hok]
    constructor
    · rintro ⟨hr, hS | heq⟩
      · exact .inl ⟨hr, hS⟩
      · exact .inr (by omega)
    · rintro (⟨hr, hS⟩ | rfl)
      · exact ⟨hr, .inl hS⟩
      · exact ⟨hi, .inr rfl⟩
  · have hj : 1 ≤ j ∧ j ≤ iSize → j - 1 ≠ i - 1 := by omega
    cases hb0 : b with
    | true =>
      obtain ⟨hr, hS⟩ := hiff.mp hb0
      have hno : ¬ S' (j - 1) := fun hS' => hdiff (by rw [hb0, hiff'.mpr ⟨hr, hS'⟩])
      exact ⟨rfl, hafter.lost (j - 1) hS (hj hr) hno⟩
    | false =>
      have hb1 : b' = true := by simpa [hb0] using hdiff
      obtain ⟨hr, hS'⟩ := hiff'.mp hb1
      have hS := (hafter.sub _ hS').resolve_right (hj hr)
      rw [hiff.mpr ⟨hr, hS⟩] at hb0
      cases hb0

theorem bitvec_set_nomem_split :
    (8 = 4 ∨ 8 = 8) ∧ 5000 + BITVEC_NPTR 8 ≤ 2 ^ 32 ∧
      (∀ op ∈ (List.range 62).map fun i => .set (fun _ => true) (i + 1), BitvecOp.InRange 5000 op) ∧
      ∃ p, run 8 (sqlite3BitvecCreate 5000) ((List.range 62).map fun i => .set (fun _ => true) (i + 1)) =
          some p ∧
        ∃ r, sqlite3BitvecSet 8 (· = 0) p 125 = some r ∧ r.rc = .SQLITE_NOMEM ∧
          ∀ j, ∃ b b', sqlite3BitvecTest 8 p j = some b ∧ sqlite3BitvecTest 8 r.p j = some b' ∧
            (j ≠ 125 → b' ≠ b → b = true ∧ Rehashes 8 p 124 ∧ SameTable p 124 (j - 1)) := by
  have hptr : 8 = 4 ∨ 8 = 8 := by decide
  have hmax : 5000 + BITVEC_NPTR 8 ≤ 2 ^ 32 := by decide
  have hops : ∀ op ∈ (List.range 62).map fun i => .set (fun _ => true) (i + 1),
      BitvecOp.InRange 5000 op := by
    intro op hop
    obtain ⟨i, hi, rfl⟩ := List.mem_map.mp hop
    have hlt := List.mem_range.mp hi
    exact ⟨Nat.succ_pos i, by omega⟩
  have hfails : ((run 8 (sqlite3BitvecCreate 5000)
      ((List.range 62).map fun i => .set (fun _ => true) (i + 1))).bind fun p =>
        (sqlite3BitvecSet 8 (· = 0) p 125).map fun r => r.rc) = some .SQLITE_NOMEM := by
    decide +kernel
  obtain ⟨p, hrun, hset⟩ := bitvec_set_nomem hptr hmax hops
  obtain ⟨r, hr, htest⟩ := hset (· = 0) 125 (by omega)
  rw [hrun, Option.bind_some, hr, Option.map_some] at hfails
  have hrc := Option.some.inj hfails
  refine ⟨hptr, hmax, hops, p, hrun, r, hr, hrc, fun j => ?_⟩
  obtain ⟨b, b', hb, hb', -, hlost⟩ := htest j
  refine ⟨b, b', hb, hb', fun hj hne => ?_⟩
  obtain ⟨h1, -, h2, h3⟩ := hlost hrc hj hne
  exact ⟨h1, h2, h3⟩

/-- The table of 62 values is split up for another one, and no smaller bit vector can be created. -/
theorem bitvec_set_loses :
    ((run 8 (sqlite3BitvecCreate 5000) ((List.range 62).map fun i => .set (fun _ => true) (i + 1))).bind
      fun p => (sqlite3BitvecSet 8 (· = 0) p 125).map fun r =>
        (r.rc, sqlite3BitvecTest 8 p 1, sqlite3BitvecTest 8 r.p 1)) =
      some (.SQLITE_NOMEM, some true, some false) := by
  decide +kernel

end Sqlite.Bits.Alloc
