import Sqlite.Mem5.Sound

/-! The accesses to the two arrays of the allocator. -/
namespace Sqlite.Mem5
open Foundation

/-- An access to `aiFreelist` or to `aCtrl`. -/
inductive Access
  | aiFreelist (i : ℤ)
  | aCtrl (i : ℤ)

def Access.InBounds (m : Mem5Global) : Access → Prop
  | .aiFreelist i => 0 ≤ i ∧ i ≤ LOGMAX
  | .aCtrl i => 0 ≤ i ∧ i < m.nBlock

/-- The test of the search, which reads the list before it looks at the bound. -/
def findBinBody (m : Mem5Global) (iBin : ℕ) : ℕ ⊕ ℕ :=
  if m.aiFreelist iBin < 0 ∧ iBin ≤ LOGMAX then .inl (iBin + 1) else .inr iBin

def splitBody (i iLogsize : ℕ) (s : Mem5Global × ℕ) : (Mem5Global × ℕ) ⊕ Mem5Global :=
  let (m, iBin) := s
  if iLogsize < iBin then
    let iBin := iBin - 1
    let newSize := 2 ^ iBin
    let m := m.setCtrl (i + newSize) (CTRL_FREE ||| .ofNat iBin)
    .inl (memsys5Link m (i + newSize) iBin, iBin)
  else .inr m

theorem findBin_body (m : Mem5Global) (iLogsize : ℕ) :
    findBin m iLogsize = loop (findBinBody m) (LOGMAX + 2) iLogsize := rfl

/-- Those of `memsys5Unlink`, with the one of its assertion. -/
def unlinkAccesses (m : Mem5Global) (i iLogsize : ℕ) : List Access :=
  .aCtrl i :: if m.prev i < 0 then [.aiFreelist iLogsize] else []

/-- Those of `memsys5Link`, with the one of its assertion. -/
def linkAccesses (i iLogsize : ℕ) : List Access :=
  [.aCtrl i, .aiFreelist iLogsize, .aiFreelist iLogsize]

def splitAccesses (i iLogsize : ℕ) (s : Mem5Global × ℕ) : List Access :=
  if iLogsize < s.2 then
    .aCtrl (i + 2 ^ (s.2 - 1) : ℕ) :: linkAccesses (i + 2 ^ (s.2 - 1)) (s.2 - 1)
  else []

/-- Those of `memsys5MallocUnsafe`, in the order in which it makes them. -/
def mallocAccesses (m : Mem5Global) (nByte : ℕ) : Option (List Access) := do
  if nByte > 0x40000000 then some []
  else
    let (_, iLogsize) ← roundRequest m.szAtom nByte
    let search := (visits (findBinBody m) (LOGMAX + 2) iLogsize).map fun iBin : ℕ =>
      Access.aiFreelist iBin
    let iBin ← findBin m iLogsize
    if iBin > LOGMAX then some search
    else
      let (m', i) ← memsys5UnlinkFirst m iBin
      let split := (visits (splitBody i iLogsize) (LOGMAX + 2) (m', iBin)).flatMap
        (splitAccesses i iLogsize)
      some (search ++ .aiFreelist iBin :: unlinkAccesses m i iBin ++ split ++ [.aCtrl i])

/-- A free block is as large as the request. -/
def Available (m : Mem5Global) (L : ℕ → List ℕ) (nByte : ℕ) : Prop :=
  ∃ k ≤ LOGMAX, L k ≠ [] ∧ nByte ≤ m.szAtom * 2 ^ k

section
variable {m : Mem5Global} {L : ℕ → List ℕ} {V : Set (ℕ × ℕ)} {nByte i b l : ℕ}

theorem available_iff : Available m L nByte ↔ ∃ b, Serves m L nByte b := by
  constructor
  · intro h
    have hne : {k | k ≤ LOGMAX ∧ L k ≠ [] ∧ nByte ≤ m.szAtom * 2 ^ k}.Nonempty := h
    obtain ⟨b, hb, hmin⟩ := WellFounded.has_min (r := (· < ·)) wellFounded_lt _ hne
    exact ⟨b, hb, fun k hk => not_lt.mp (hmin k hk)⟩
  · rintro ⟨b, hb, -⟩
    exact ⟨b, hb⟩

/-- The search reads the lists up to the one that it ends at, at most one beyond the last. -/
theorem search_visits (hfind : findBin m l = some b) (hl : l ≤ LOGMAX) :
    (∀ c ∈ visits (findBinBody m) (LOGMAX + 2) l, c ≤ b) ∧
      b ∈ visits (findBinBody m) (LOGMAX + 2) l ∧ b ≤ LOGMAX + 1 := by
  obtain ⟨b', hfind', hlb, hend, -⟩ := findBin_spec m hl
  obtain rfl : b = b' := Option.some.inj (hfind.symm.trans hfind')
  have hlast : b ∈ visits (findBinBody m) (LOGMAX + 2) l := by
    rw [findBin_body] at hfind
    obtain ⟨v, hv, hlast⟩ := exists_last_visit hfind
    unfold findBinBody at hlast
    split_ifs at hlast
    obtain rfl := Sum.inr.inj hlast
    exact hv
  refine ⟨forall_visits (I := (· ≤ b)) (fun c c' hc hbody => ?_) hlb, hlast,
    forall_visits (I := (· ≤ LOGMAX + 1)) (fun c c' _ hbody => ?_) (by omega) b hlast⟩
  · unfold findBinBody at hbody
    split_ifs at hbody with hcond
    obtain rfl := Sum.inl.inj hbody
    have hne : c ≠ b := by
      rintro rfl
      have := hend hcond.2
      omega
    omega
  · unfold findBinBody at hbody
    split_ifs at hbody with hcond
    obtain rfl := Sum.inl.inj hbody
    omega

/-- Splitting a block stays inside it. -/
theorem split_inBounds (hb : b ≤ LOGMAX) (hin : i + 2 ^ b ≤ m.nBlock) {n : ℕ} {m' : Mem5Global} :
    ∀ a ∈ (visits (splitBody i l) n (m', b)).flatMap (splitAccesses i l), a.InBounds m := by
  have hle := forall_visits (f := splitBody i l) (I := fun s => s.2 ≤ b)
    (fun s s' hs hbody => ?_) (n := n) (s := (m', b)) (le_refl b)
  · intro a ha
    obtain ⟨s, hs, ha⟩ := List.mem_flatMap.mp ha
    have hsb := hle s hs
    unfold splitAccesses linkAccesses at ha
    split_ifs at ha with hlt
    · have hpow : 2 ^ (s.2 - 1) < 2 ^ b := Nat.pow_lt_pow_right (by omega) (by omega)
      generalize 2 ^ (s.2 - 1) = newSize at hpow ha
      simp only [List.mem_cons, List.not_mem_nil, or_false] at ha
      rcases ha with rfl | rfl | rfl | rfl <;> simp only [Access.InBounds] <;> omega
    · simp at ha
  · obtain ⟨m₁, c⟩ := s
    simp only [splitBody] at hbody
    split_ifs at hbody
    obtain rfl := Sum.inl.inj hbody
    dsimp only at hs ⊢
    omega

/-- An allocation reads one beyond the lists just when it looks for a block and there is none. -/
theorem mallocAccesses_spec (h : Core m L V ∅) :
    ∃ t, mallocAccesses m nByte = some t ∧
      (∀ a ∈ t, a.InBounds m ∨ a = .aiFreelist (LOGMAX + 1)) ∧
      ((∀ a ∈ t, a.InBounds m) ↔ 0x40000000 < nByte ∨ Available m L nByte) := by
  unfold mallocAccesses
  by_cases hbig : nByte > 0x40000000
  · rw [if_pos hbig]
    exact ⟨[], rfl, by simp, by simp [hbig]⟩
  obtain ⟨l, b, hround, hl, -, hfind, -, hserves⟩ := findBin_serves h (not_lt.mp hbig)
  obtain ⟨hupto, hlast, hb⟩ := search_visits hfind hl
  rw [if_neg hbig, available_iff]
  simp only [hround, hfind, Option.bind_eq_bind, Option.bind_some]
  generalize visits (findBinBody m) (LOGMAX + 2) l = search at hupto hlast ⊢
  by_cases hover : b > LOGMAX
  · obtain rfl : b = LOGMAX + 1 := by omega
    rw [if_pos hover]
    refine ⟨_, rfl, fun a ha => ?_, fun hall => ?_, fun hsome => ?_⟩
    · obtain ⟨c, hc, rfl⟩ := List.mem_map.mp ha
      have hcb := hupto c hc
      by_cases hle : c ≤ LOGMAX
      · exact .inl ⟨by omega, by omega⟩
      · obtain rfl : c = LOGMAX + 1 := by omega
        exact .inr (by simp)
    · have hout := (hall _ (List.mem_map.mpr ⟨_, hlast, rfl⟩)).2
      omega
    · rcases hsome with hsome | ⟨c, hc⟩
      · exact absurd hsome hbig
      · have := ((hserves c).mp hc).2
        omega
  · have hb' : b ≤ LOGMAX := by omega
    have hserved : Serves m L nByte b := (hserves b).mpr ⟨rfl, hb'⟩
    have hi := pick_mem hserved.1.2.1
    have hin := h.tiling.inside _ (Core.free_mem (V := V) (H := ∅) hb' hi)
    have hun := memsys5UnlinkFirst_eq (h.lists b hb') hserved.1.2.1 fun x hx => by
      have hxin := h.tiling.inside _ (Core.free_mem (V := V) (H := ∅) hb' hx)
      have := Nat.two_pow_pos b
      dsimp only at hxin
      omega
    generalize pick (L b) = i at hi hin hun ⊢
    rw [if_neg hover]
    simp only [hun, Option.bind_some]
    have hpos := Nat.two_pow_pos b
    have hall : ∀ a ∈ search.map (fun iBin : ℕ => Access.aiFreelist iBin) ++
        .aiFreelist b :: unlinkAccesses m i b ++
        (visits (splitBody i l) (LOGMAX + 2) (memsys5Unlink m i b, b)).flatMap (splitAccesses i l) ++
        [.aCtrl i], a.InBounds m := by
      have hfree (c : ℕ) (hc : c ≤ b) : Access.InBounds m (.aiFreelist c) := ⟨by omega, by omega⟩
      have hctrl : Access.InBounds m (.aCtrl i) := by
        dsimp only at hin
        exact ⟨by omega, by omega⟩
      intro a ha
      simp only [List.mem_append, List.mem_cons, List.mem_map, List.not_mem_nil, or_false,
        unlinkAccesses] at ha
      rcases ha with ((⟨c, hc, rfl⟩ | rfl | rfl | ha) | ha) | rfl
      · exact hfree c (hupto c hc)
      · exact hfree b le_rfl
      · exact hctrl
      · split_ifs at ha
        · rw [List.mem_singleton.mp ha]
          exact hfree b le_rfl
        · simp at ha
      · exact split_inBounds hb' hin a ha
      · exact hctrl
    exact ⟨_, rfl, fun a ha => .inl (hall a ha), fun _ => .inr ⟨b, hserved⟩, fun _ => hall⟩

end

/-- In every reachable state, and for every request, the accesses of `memsys5MallocUnsafe` to
`aiFreelist` and `aCtrl` are inside the arrays if and only if the request is refused for its size or
there is a free block as large as it. The access outside is to `aiFreelist[LOGMAX+1]`. -/
theorem memsys5_accesses (m₀ : Mem5Global) (nHeap : ℕ) (mnReq : ℤ) (hHeap : nHeap < 2147483648)
    (hReq : mnReq ≤ 1073741824) :
    ∃ m, memsys5Init m₀ nHeap mnReq = some m ∧ ∀ s, Client.Reachable m s → ∃ L, s.Sound L ∧
      ∀ nByte, ∃ t, mallocAccesses s.mem nByte = some t ∧
        (∀ a ∈ t, a.InBounds s.mem ∨ a = .aiFreelist (LOGMAX + 1)) ∧
        ((∀ a ∈ t, a.InBounds s.mem) ↔ 0x40000000 < nByte ∨ Available s.mem L nByte) := by
  obtain ⟨m, L₀, hm, hc, -⟩ := memsys5Init_spec m₀ hHeap hReq
  refine ⟨m, hm, fun s hs => ?_⟩
  obtain ⟨L, V, hi⟩ := Inv.of_reachable hc hs
  exact ⟨L, hi.sound, fun nByte => mallocAccesses_spec hi.core⟩

theorem memsys5_accesses_kilobyte : ∃ m L t, memsys5Init zeroed 1000 8 = some m ∧
    Client.Sound ⟨m, fun _ => none⟩ L ∧ mallocAccesses m 8 = some t := by
  obtain ⟨m, hm, h⟩ := memsys5_accesses zeroed 1000 8 (by decide) (by decide)
  obtain ⟨L, hL, hall⟩ := h _ .init
  obtain ⟨t, ht, -⟩ := hall 8
  exact ⟨m, L, t, hm, hL, ht⟩

/-- A request for more than a pool of three blocks holds. -/
theorem mallocAccesses_exhausted : ∃ m t, memsys5Init zeroed 27 8 = some m ∧
    Client.Reachable m ⟨m, fun _ => none⟩ ∧ mallocAccesses m 32 = some t ∧
    Access.aiFreelist (LOGMAX + 1) ∈ t ∧ ¬ (Access.aiFreelist (LOGMAX + 1)).InBounds m := by
  let m := (memsys5Init zeroed 27 8).get (by decide +kernel)
  have hround : roundRequest m.szAtom 32 = some (32, 2) := by decide +kernel
  have hfind : findBin m 2 = some (LOGMAX + 1) := by decide +kernel
  have ht : mallocAccesses m 32 = some ((visits (findBinBody m) (LOGMAX + 2) 2).map
      fun iBin : ℕ => Access.aiFreelist iBin) := by
    unfold mallocAccesses
    rw [if_neg (by decide)]
    simp only [hround, hfind, Option.bind_eq_bind, Option.bind_some]
    rfl
  obtain ⟨-, hlast, -⟩ := search_visits hfind (by decide)
  refine ⟨m, _, (Option.some_get _).symm, .init, ht, List.mem_map.mpr ⟨_, hlast, rfl⟩, fun h => ?_⟩
  have := h.2
  omega

end Sqlite.Mem5
