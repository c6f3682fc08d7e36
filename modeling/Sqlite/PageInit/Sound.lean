import Mathlib.Data.Int.Basic
import Mathlib.Data.List.Pairwise
import Mathlib.Tactic.IntervalCases

/-! When the free space found on a page is what the page has. -/
namespace Sqlite.PageInit


/-! What is computed about a page when it is first read: the flags of its header and the free
space on it. -/

/-- Runs that C leaves undefined, and loops that the steps given do not end. -/
inductive Fault
  | overread
  | steps
  deriving DecidableEq

inductive Rc
  | SQLITE_OK
  | SQLITE_CORRUPT
  deriving DecidableEq

/-- The shared b-tree, as `lockBtree` lets it be. -/
structure BtShared where
  pageSize : ℕ
  usableSize : ℕ
  maxLocal : ℕ
  minLocal : ℕ
  maxLeaf : ℕ
  minLeaf : ℕ
  max1bytePayload : ℕ
  pageSize_ge : 512 ≤ pageSize
  pageSize_le : pageSize ≤ 65536
  usableSize_ge : 480 ≤ usableSize
  usableSize_le : usableSize ≤ pageSize

structure MemPage where
  isInit : ℕ := 0
  nOverflow : ℕ := 0
  intKey : ℕ := 0
  leaf : ℕ := 0
  hasData : ℕ := 0
  hdrOffset : ℕ := 0
  childPtrSize : ℕ := 0
  max1bytePayload : ℕ := 0
  maxLocal : ℕ := 0
  minLocal : ℕ := 0
  cellOffset : ℕ := 0
  nFree : ℕ := 0
  nCell : ℕ := 0
  maskPage : ℕ := 0
  /-- Pointers into the page, as offsets from its first byte. -/
  aDataEnd : ℕ := 0
  aCellIdx : ℕ := 0
  pgno : ℕ
  /-- The bytes of the page up to its usable size. -/
  aData : List UInt8

def PTF_INTKEY : ℕ := 1
def PTF_ZERODATA : ℕ := 2
def PTF_LEAFDATA : ℕ := 4
def MX_CELL (pBt : BtShared) : ℕ := (pBt.pageSize - 8) / 6

def byte (data : List UInt8) (i : ℕ) : Except Fault ℕ :=
  match data[i]? with
  | some b => .ok b.toNat
  | none => .error .overread

def get2byte (data : List UInt8) (i : ℕ) : Except Fault ℕ := do
  let b0 ← byte data i
  let b1 ← byte data (i + 1)
  return 256 * b0 + b1

/-- `((x-1)&0xffff)+1`, so that zero stands for 65536. -/
def notZero (x : ℕ) : ℕ := (((x : ℤ) - 1) % 65536).toNat + 1

def get2byteNotZero (data : List UInt8) (i : ℕ) : Except Fault ℕ := do
  return notZero (← get2byte data i)

def decodeFlags (pBt : BtShared) (pPage : MemPage) (flagByte : ℕ) : Rc × MemPage :=
  let leaf := flagByte / 8 % 256
  let pPage := { pPage with leaf, childPtrSize := ((4 - 4 * leaf : ℤ) % 256).toNat }
  let flagByte := flagByte / 16 * 16 + flagByte % 8
  if flagByte = PTF_LEAFDATA + PTF_INTKEY then
    (.SQLITE_OK, { pPage with
      intKey := 1, hasData := leaf, maxLocal := pBt.maxLeaf, minLocal := pBt.minLeaf,
      max1bytePayload := pBt.max1bytePayload })
  else if flagByte = PTF_ZERODATA then
    (.SQLITE_OK, { pPage with
      intKey := 0, hasData := 0, maxLocal := pBt.maxLocal, minLocal := pBt.minLocal,
      max1bytePayload := pBt.max1bytePayload })
  else (.SQLITE_CORRUPT, pPage)

/-- `while( pc>0 )`, for at most as many freeblocks as there are steps: the sum in `nFree` at the
end of the list, nothing where a freeblock is refused. -/
def freeblocks (data : List UInt8) (usableSize iCellFirst iCellLast : ℕ) :
    ℕ → ℕ → ℕ → Except Fault (Option ℕ)
  | 0, _, _ => .error .steps
  | n + 1, pc, nFree =>
    if pc = 0 then .ok (some nFree)
    else if pc < iCellFirst ∨ iCellLast < pc then .ok none
    else do
      let next ← get2byte data pc
      let size ← get2byte data (pc + 2)
      if (0 < next ∧ next ≤ pc + size + 3) ∨ usableSize < pc + size then return none
      else freeblocks data usableSize iCellFirst iCellLast n next (nFree + size)

def btreeInitPage (pBt : BtShared) (n : ℕ) (pPage : MemPage) : Except Fault (Rc × MemPage) :=
  if pPage.isInit ≠ 0 then .ok (.SQLITE_OK, pPage)
  else do
    let hdr := pPage.hdrOffset
    let data := pPage.aData
    match decodeFlags pBt pPage (← byte data hdr) with
    | (.SQLITE_CORRUPT, pPage) => return (.SQLITE_CORRUPT, pPage)
    | (.SQLITE_OK, pPage) =>
      let usableSize := pBt.usableSize
      let cellOffset := hdr + 12 - 4 * pPage.leaf
      let pPage := { pPage with
        maskPage := (pBt.pageSize - 1) % 65536, nOverflow := 0, cellOffset,
        aDataEnd := usableSize, aCellIdx := cellOffset }
      let top ← get2byteNotZero data (hdr + 5)
      let pPage := { pPage with nCell := ← get2byte data (hdr + 3) }
      if MX_CELL pBt < pPage.nCell then return (.SQLITE_CORRUPT, pPage)
      else
        let iCellFirst := cellOffset + 2 * pPage.nCell
        let iCellLast := usableSize - 4
        let pc ← get2byte data (hdr + 1)
        let nFree := (← byte data (hdr + 7)) + top
        match ← freeblocks data usableSize iCellFirst iCellLast n pc nFree with
        | none => return (.SQLITE_CORRUPT, pPage)
        | some nFree =>
          if usableSize < nFree then return (.SQLITE_CORRUPT, pPage)
          else
            let pPage := { pPage with
              nFree := (((nFree : ℤ) - iCellFirst) % 65536).toNat, isInit := 1 }
            return (.SQLITE_OK, pPage)

/-- The two-byte field at `i`. -/
def field (data : List UInt8) (i : ℕ) : ℕ :=
  256 * (data.getD i 0).toNat + (data.getD (i + 1) 0).toNat

/-- The chain of freeblocks, each with its offset and its size. -/
inductive Freeblocks (data : List UInt8) : ℕ → List (ℕ × ℕ) → Prop
  | nil : Freeblocks data 0 []
  | cons {pc : ℕ} {l : List (ℕ × ℕ)} (h : pc ≠ 0) (ht : Freeblocks data (field data pc) l) :
      Freeblocks data pc ((pc, field data (pc + 2)) :: l)

/-- Freeblocks within the page after the cell pointers, in ascending order and apart. -/
structure Regular (usableSize iCellFirst : ℕ) (l : List (ℕ × ℕ)) : Prop where
  ascending : l.Pairwise fun a b => a.1 + a.2 + 3 < b.1
  inside : ∀ b ∈ l, iCellFirst ≤ b.1 ∧ b.1 + 4 ≤ usableSize ∧ b.1 + b.2 ≤ usableSize

/-- The sizes of the freeblocks together. -/
def total (l : List (ℕ × ℕ)) : ℕ := (l.map Prod.snd).sum

section Header

variable (p : MemPage)

def MemPage.flagByte : ℕ := (p.aData.getD p.hdrOffset 0).toNat

/-- Start of the cell content area. -/
def MemPage.top : ℕ := notZero (field p.aData (p.hdrOffset + 5))

def MemPage.cells : ℕ := field p.aData (p.hdrOffset + 3)

def MemPage.fragments : ℕ := (p.aData.getD (p.hdrOffset + 7) 0).toNat

/-- The first byte after the cell-pointer array. -/
def MemPage.iCellFirst : ℕ :=
  p.hdrOffset + (if p.flagByte / 8 = 0 then 12 else 8) + 2 * p.cells

/-- The header is one of a page, and the freeblocks `l` are in order. -/
structure WellFormed (pBt : BtShared) (l : List (ℕ × ℕ)) : Prop where
  flags : p.flagByte ∈ [2, 5, 10, 13]
  cells_le : p.cells ≤ MX_CELL pBt
  chain : Freeblocks p.aData (field p.aData (p.hdrOffset + 1)) l
  regular : Regular pBt.usableSize p.iCellFirst l

/-- `nFree` is the gap, the freeblocks and the fragments of the page, whose freeblocks are in
order. -/
def FreeSpace (pBt : BtShared) (nFree : ℕ) : Prop :=
  ∃ l, Freeblocks p.aData (field p.aData (p.hdrOffset + 1)) l ∧
    Regular pBt.usableSize p.iCellFirst l ∧
    (nFree : ℤ) = ((p.top : ℤ) - p.iCellFirst) + total l + p.fragments ∧
    nFree + p.iCellFirst ≤ pBt.usableSize

/-- The content area begins so far before the end of the cell pointers that the free bytes do not
make up for it. -/
def Overrun (pBt : BtShared) : Prop :=
  ∃ l, WellFormed p pBt l ∧ p.top + total l + p.fragments ≤ pBt.usableSize ∧
    p.top + total l + p.fragments < p.iCellFirst

end Header

variable {pBt : BtShared} {p : MemPage} {data : List UInt8} {l l' : List (ℕ × ℕ)}
  {i n pc nFree usableSize iCellFirst : ℕ}

theorem byte_eq (h : i < data.length) : byte data i = .ok (data.getD i 0).toNat := by
  simp [byte, h]

theorem get2byte_eq (h : i + 1 < data.length) : get2byte data i = .ok (field data i) := by
  simp [get2byte, byte_eq h, byte_eq (by omega : i < data.length), field, bind, Except.bind,
    pure, Except.pure]

/-- A chain is determined by its start. -/
theorem Freeblocks.unique (h : Freeblocks data pc l) (h' : Freeblocks data pc l') : l = l' := by
  induction h generalizing l' with
  | nil =>
    cases h' with
    | nil => rfl
    | cons h _ => exact absurd rfl h
  | cons h _ ih =>
    cases h' with
    | nil => exact absurd rfl h
    | cons _ ht' => rw [ih ht']

theorem Freeblocks.of_eq (h : Freeblocks data pc l) (h0 : pc = 0) : l = [] := by
  cases h with
  | nil => rfl
  | cons h _ => exact absurd h0 h

theorem Freeblocks.of_ne (h : Freeblocks data pc l) (h0 : pc ≠ 0) :
    ∃ t, l = (pc, field data (pc + 2)) :: t := by
  cases h with
  | nil => exact absurd rfl h0
  | cons _ _ => exact ⟨_, rfl⟩

theorem Freeblocks.le (h : Freeblocks data pc l) (hr : Regular usableSize iCellFirst l)
    {b : ℕ × ℕ} (hb : b ∈ l) : pc ≤ b.1 := by
  cases h with
  | nil => exact absurd hb List.not_mem_nil
  | cons h ht =>
    rcases List.mem_cons.mp hb with rfl | hb
    · exact le_refl _
    · have := (List.pairwise_cons.mp hr.ascending).1 b hb
      dsimp only at this
      omega

theorem Regular.tail {b : ℕ × ℕ} (h : Regular usableSize iCellFirst (b :: l)) :
    Regular usableSize iCellFirst l :=
  ⟨(List.pairwise_cons.mp h.ascending).2, fun c hc => h.inside c (List.mem_cons_of_mem _ hc)⟩

/-- One freeblock more in front, checked against the next one. -/
theorem regular_cons (h : Freeblocks data (field data pc) l) :
    Regular usableSize iCellFirst ((pc, field data (pc + 2)) :: l) ↔
      (iCellFirst ≤ pc ∧ pc + 4 ≤ usableSize) ∧
      ¬((0 < field data pc ∧ field data pc ≤ pc + field data (pc + 2) + 3) ∨
        usableSize < pc + field data (pc + 2)) ∧
      Regular usableSize iCellFirst l := by
  constructor
  · intro hr
    obtain ⟨h1, h2, h3⟩ := hr.inside _ List.mem_cons_self
    refine ⟨⟨h1, h2⟩, ?_, hr.tail⟩
    rintro (⟨hpos, hle⟩ | hlt)
    · obtain ⟨t, rfl⟩ := h.of_ne (by omega)
      have := (List.pairwise_cons.mp hr.ascending).1 _ List.mem_cons_self
      dsimp only at this
      omega
    · dsimp only at h3
      omega
  · rintro ⟨⟨h1, h2⟩, h3, hr⟩
    refine ⟨List.pairwise_cons.mpr ⟨fun b hb => ?_, hr.ascending⟩, fun b hb => ?_⟩
    · have hle := h.le hr hb
      have hpos : 0 < field data pc := by
        refine Nat.pos_of_ne_zero fun h0 => ?_
        obtain rfl := h.of_eq h0
        exact absurd hb List.not_mem_nil
      dsimp only
      omega
    · rcases List.mem_cons.mp hb with rfl | hb
      · exact ⟨h1, h2, by dsimp only; omega⟩
      · exact hr.inside b hb

/-- The loop ends, and it ends with a sum exactly when the freeblocks are in order. -/
theorem freeblocks_spec (hlen : data.length = usableSize) (hu : 4 ≤ usableSize)
    (hn : 0 < n) (hpc : pc = 0 ∨ usableSize < n + pc) :
    ∃ r, freeblocks data usableSize iCellFirst (usableSize - 4) n pc nFree = .ok r ∧
      ∀ s, r = some s ↔
        ∃ l, Freeblocks data pc l ∧ Regular usableSize iCellFirst l ∧ s = nFree + total l := by
  induction n generalizing pc nFree with
  | zero => exact absurd hn (lt_irrefl 0)
  | succ n ih =>
    rw [freeblocks]
    by_cases h0 : pc = 0
    · subst h0
      rw [if_pos rfl]
      refine ⟨_, rfl, fun s => ⟨fun hs => ?_, ?_⟩⟩
      · obtain rfl := Option.some.inj hs
        exact ⟨[], .nil, ⟨.nil, by simp⟩, by simp [total]⟩
      · rintro ⟨l, hl, -, rfl⟩
        cases hl with
        | nil => simp [total]
        | cons h _ => exact absurd rfl h
    rw [if_neg h0]
    -- a chain from here starts with this freeblock
    have hchain {s : ℕ} : (∃ l, Freeblocks data pc l ∧ Regular usableSize iCellFirst l ∧
        s = nFree + total l) ↔ ∃ l, Freeblocks data (field data pc) l ∧
        Regular usableSize iCellFirst ((pc, field data (pc + 2)) :: l) ∧
        s = nFree + field data (pc + 2) + total l := by
      constructor
      · rintro ⟨l, hl, hr, rfl⟩
        cases hl with
        | nil => exact absurd rfl h0
        | cons _ ht => exact ⟨_, ht, hr, by simp [total]; omega⟩
      · rintro ⟨l, hl, hr, rfl⟩
        exact ⟨_, .cons h0 hl, hr, by simp [total]; omega⟩
    simp only [hchain]
    by_cases hin : pc < iCellFirst ∨ usableSize - 4 < pc
    · rw [if_pos hin]
      refine ⟨_, rfl, fun s => ⟨fun hs => absurd hs (by simp), ?_⟩⟩
      rintro ⟨l, hl, hr, -⟩
      have := ((regular_cons hl).mp hr).1
      omega
    rw [if_neg hin, get2byte_eq (by omega), get2byte_eq (by omega)]
    simp only [bind, Except.bind, pure, Except.pure]
    by_cases hord : (0 < field data pc ∧ field data pc ≤ pc + field data (pc + 2) + 3) ∨
        usableSize < pc + field data (pc + 2)
    · rw [if_pos hord]
      refine ⟨_, rfl, fun s => ⟨fun hs => absurd hs (by simp), ?_⟩⟩
      rintro ⟨l, hl, hr, -⟩
      exact absurd hord ((regular_cons hl).mp hr).2.1
    rw [if_neg hord]
    obtain ⟨r, hr, hiff⟩ := @ih (field data pc) (nFree + field data (pc + 2)) (by omega) (by omega)
    refine ⟨r, hr, fun s => (hiff s).trans ⟨?_, ?_⟩⟩
    · rintro ⟨l, hl, hreg, hs⟩
      exact ⟨l, hl, (regular_cons hl).mpr ⟨by omega, hord, hreg⟩, hs⟩
    · rintro ⟨l, hl, hreg, hs⟩
      exact ⟨l, hl, hreg.tail, hs⟩

theorem decodeFlags_ok {f : ℕ} (h : f ∈ [2, 5, 10, 13]) :
    ∃ q, decodeFlags pBt p f = (.SQLITE_OK, q) ∧ q.leaf = f / 8 := by
  simp only [List.mem_cons, List.not_mem_nil, or_false] at h
  rcases h with rfl | rfl | rfl | rfl <;> exact ⟨_, rfl, rfl⟩

theorem decodeFlags_corrupt {f : ℕ} (h : f ∉ [2, 5, 10, 13]) :
    ∃ q, decodeFlags pBt p f = (.SQLITE_CORRUPT, q) := by
  simp only [List.mem_cons, List.not_mem_nil, or_false, not_or] at h
  have h5 : ¬f / 16 * 16 + f % 8 = PTF_LEAFDATA + PTF_INTKEY := by
    simp only [PTF_LEAFDATA, PTF_INTKEY]
    omega
  have h2 : ¬f / 16 * 16 + f % 8 = PTF_ZERODATA := by
    simp only [PTF_ZERODATA]
    omega
  simp only [decodeFlags, if_neg h5, if_neg h2]
  exact ⟨_, rfl⟩

section Run

variable (h0 : p.isInit = 0) (hhdr : p.hdrOffset = if p.pgno = 1 then 100 else 0)
  (hlen : p.aData.length = pBt.usableSize) (hn : pBt.usableSize < n)

include hhdr in
theorem hdrOffset_le : p.hdrOffset ≤ 100 := by
  rw [hhdr]
  split_ifs <;> omega

include hhdr hlen

theorem flagByte_eq : byte p.aData p.hdrOffset = .ok p.flagByte := by
  have hle := hdrOffset_le hhdr
  have hu := pBt.usableSize_ge
  exact byte_eq (by omega)

theorem header_eq : get2byte p.aData (p.hdrOffset + 1) = .ok (field p.aData (p.hdrOffset + 1)) ∧
    get2byte p.aData (p.hdrOffset + 3) = .ok p.cells ∧
    get2byteNotZero p.aData (p.hdrOffset + 5) = .ok p.top ∧
    byte p.aData (p.hdrOffset + 7) = .ok p.fragments := by
  have hle := hdrOffset_le hhdr
  have hu := pBt.usableSize_ge
  refine ⟨get2byte_eq (by omega), get2byte_eq (by omega), ?_, byte_eq (by omega)⟩
  rw [get2byteNotZero, get2byte_eq (by omega)]
  rfl

include h0 hn

/-- The page is accepted when its header and its freeblocks are in order and the free bytes lie
within it; what is stored is narrowed to sixteen bits. -/
theorem btreeInitPage_spec : ∃ rc p', btreeInitPage pBt n p = .ok (rc, p') ∧
    (rc = .SQLITE_OK → ∃ l, WellFormed p pBt l ∧
      p'.nFree = ((((p.fragments + p.top + total l : ℕ) : ℤ) - p.iCellFirst) % 65536).toNat ∧
      p.fragments + p.top + total l ≤ pBt.usableSize) ∧
    ∀ l, WellFormed p pBt l → p.fragments + p.top + total l ≤ pBt.usableSize →
      rc = .SQLITE_OK := by
  have hle := hdrOffset_le hhdr
  have hu := pBt.usableSize_ge
  have h0' : ¬p.isInit ≠ 0 := not_not_intro h0
  obtain ⟨hpc, hcell, htop, hfrag⟩ := header_eq hhdr hlen
  by_cases h : p.flagByte ∈ [2, 5, 10, 13]
  · obtain ⟨q, hq, hleaf⟩ := @decodeFlags_ok pBt p _ h
    have hfirst : p.hdrOffset + 12 - 4 * q.leaf + 2 * p.cells = p.iCellFirst := by
      simp only [List.mem_cons, List.not_mem_nil, or_false] at h
      rw [hleaf, MemPage.iCellFirst]
      rcases h with hf | hf | hf | hf <;> simp only [hf] <;> norm_num <;> omega
    obtain ⟨r, hr, hiff⟩ := @freeblocks_spec p.aData n (field p.aData (p.hdrOffset + 1))
      (p.fragments + p.top) pBt.usableSize p.iCellFirst hlen (by omega) (by omega) (by omega)
    simp only [btreeInitPage, if_neg h0', flagByte_eq hhdr hlen, bind, Except.bind, pure,
      Except.pure, hq, hcell, htop, hpc, hfrag, hfirst]
    by_cases hmx : MX_CELL pBt < p.cells
    · simp only [if_pos hmx]
      exact ⟨_, _, rfl, fun hok => absurd hok (by decide), fun l hl _ => absurd hl.cells_le (by omega)⟩
    simp only [if_neg hmx, hr]
    cases r with
    | none =>
      refine ⟨_, _, rfl, fun hok => absurd hok (by decide), fun l hl _ => ?_⟩
      exact absurd ((hiff _).mpr ⟨l, hl.chain, hl.regular, rfl⟩) (by simp)
    | some s =>
      dsimp only
      obtain ⟨l, hl, hreg, rfl⟩ := (hiff s).mp rfl
      by_cases hs : pBt.usableSize < p.fragments + p.top + total l
      · simp only [if_pos hs]
        refine ⟨_, _, rfl, fun hok => absurd hok (by decide), fun l' hl' hle' => ?_⟩
        rw [hl'.chain.unique hl] at hle'
        exact absurd hs (by omega)
      · simp only [if_neg hs]
        exact ⟨_, _, rfl, fun _ => ⟨l, ⟨h, by omega, hl, hreg⟩, rfl, by omega⟩, fun _ _ _ => rfl⟩
  · obtain ⟨q, hq⟩ := @decodeFlags_corrupt pBt p _ h
    simp only [btreeInitPage, if_neg h0', flagByte_eq hhdr hlen, bind, Except.bind, pure,
      Except.pure, hq]
    exact ⟨_, _, rfl, fun hok => absurd hok (by decide), fun l hl _ => absurd hl.flags h⟩

omit h0

/-- The page is read inside its bytes, in a bounded number of steps, whatever they are. The free
space found is that of the page unless the content area begins too far inside the cell
pointers. -/
theorem btreeInitPage_iff :
    (∃ rc p', btreeInitPage pBt n p = .ok (rc, p') ∧
      (rc = .SQLITE_OK → p.isInit = 0 → FreeSpace p pBt p'.nFree)) ↔
    (p.isInit = 0 → ¬Overrun p pBt) := by
  by_cases h0 : p.isInit = 0
  · obtain ⟨rc, p', hrun, hacc, hback⟩ := btreeInitPage_spec h0 hhdr hlen hn
    constructor
    · rintro ⟨rc', p'', hrun', hfree⟩ - ⟨l, hw, hle, hlt⟩
      obtain ⟨rfl, rfl⟩ := Prod.mk.inj (Except.ok.inj (hrun.symm.trans hrun'))
      obtain ⟨l', hl', -, hsum, -⟩ := hfree (hback l hw (by omega)) h0
      rw [hl'.unique hw.chain] at hsum
      omega
    · intro hno
      refine ⟨rc, p', hrun, fun hok _ => ?_⟩
      obtain ⟨l, hw, hstored, hle⟩ := hacc hok
      have hge : p.iCellFirst ≤ p.top + total l + p.fragments :=
        not_lt.mp fun hlt => hno h0 ⟨l, hw, by omega, hlt⟩
      have hpos : 8 ≤ p.iCellFirst := by
        unfold MemPage.iCellFirst
        split_ifs <;> omega
      have hup := pBt.usableSize_le
      have hmax := pBt.pageSize_le
      exact ⟨l, hw.chain, hw.regular, by omega, by omega⟩
  · have hrun : btreeInitPage pBt n p = .ok (.SQLITE_OK, p) := by
      unfold btreeInitPage
      rw [if_pos h0]
    exact ⟨fun _ h => absurd h h0, fun _ => ⟨_, _, hrun, fun _ h => absurd h h0⟩⟩

end Run

section Pages

def smallPages : BtShared where
  pageSize := 512
  usableSize := 512
  maxLocal := 102
  minLocal := 39
  maxLeaf := 477
  minLeaf := 39
  max1bytePayload := 102
  pageSize_ge := by decide
  pageSize_le := by decide
  usableSize_ge := by decide
  usableSize_le := by decide

/-- A leaf whose content area, from byte 400, has a freeblock of 20 bytes at its end. -/
def leafPage : MemPage where
  pgno := 2
  aData := [13, 1, 236, 0, 1, 1, 144, 3] ++ List.replicate 484 0 ++ [0, 0, 0, 20] ++
    List.replicate 16 0

/-- The header says that there are 84 cells, and that the content area begins at byte 100. -/
def bentPage : MemPage where
  pgno := 2
  aData := [13, 0, 0, 0, 84, 0, 100, 0] ++ List.replicate 504 0

theorem btreeInitPage_iff_leaf :
    ∃ rc p', btreeInitPage smallPages 513 leafPage = .ok (rc, p') ∧
      (rc = .SQLITE_OK → leafPage.isInit = 0 → FreeSpace leafPage smallPages p'.nFree) := by
  have hlen : leafPage.aData.length = 512 := by
    simp only [leafPage, List.length_append, List.length_replicate, List.length_cons,
      List.length_nil]
  refine (btreeInitPage_iff rfl hlen (by decide)).mpr ?_
  rintro - ⟨l, -, -, hlt⟩
  have hlt : 400 + total l + 3 < 10 := hlt
  omega

/-- The end of the cell pointers, byte 176, less the 100 bytes before the content area wraps
around. -/
theorem btreeInitPage_wraps :
    ∃ p', btreeInitPage smallPages 513 bentPage = .ok (.SQLITE_OK, p') ∧ p'.nFree = 65460 ∧
      ¬FreeSpace bentPage smallPages p'.nFree := by
  refine ⟨_, rfl, rfl, ?_⟩
  rintro ⟨l, -, -, -, hle⟩
  have hle : 65460 + 176 ≤ 512 := hle
  omega

end Pages

end Sqlite.PageInit
