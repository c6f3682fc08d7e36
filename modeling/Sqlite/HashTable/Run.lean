import Sqlite.HashTable.Find

/-! Runs of calls on one table, and the map from folded keys to data that the table holds. -/
namespace Sqlite.HashTable

open Foundation

variable {H : Hash} {l : List ℕ} {m : List UInt8 → ℕ} {x : ℕ} {key : List UInt8}

/-- Insertion into a map; it fails when there is no memory for a new key. -/
def mapInsert (m : List UInt8 → ℕ) (key : List UInt8) (data : ℕ) (block : Option ℕ) :
    ℕ × (List UInt8 → ℕ) :=
  if data ≠ 0 ∧ m (fold key) = 0 ∧ block = none then (data, m)
  else (m (fold key), Function.update m (fold key) data)

/-- The elements of the table are the entries of the map. -/
structure Agrees (H : Hash) (l : List ℕ) (m : List UInt8 → ℕ) : Prop where
  noNul : ∀ z ∈ l, 0 ∉ H.pKey z
  data : ∀ z ∈ l, H.data z ≠ 0
  map : ∀ z ∈ l, m (fold (H.pKey z)) = H.data z
  inj : ∀ z ∈ l, ∀ w ∈ l, fold (H.pKey z) = fold (H.pKey w) → z = w
  onto : ∀ k, m k ≠ 0 → ∃ z ∈ l, fold (H.pKey z) = k

theorem Agrees.empty (H : Hash) : Agrees H [] (fun _ => 0) :=
  ⟨nofun, nofun, nofun, nofun, fun _ hk => absurd rfl hk⟩

theorem Inv.init : Inv sqlite3HashInit [] :=
  ⟨⟨trivial, rfl, List.nodup_nil, fun _ => rfl, nofun⟩, rfl, fun _ => ⟨nofun, nofun⟩⟩

theorem Agrees.find_some (ha : Agrees H l m) (hi : Inv H l)
    (hf : findElementGivenHash H key (hashOf H key) = some x) :
    x ∈ l ∧ fold (H.pKey x) = fold key ∧ m (fold key) = H.data x := by
  obtain ⟨h1, -, h3⟩ := hi.find_some hf
  have hk := (keyMatch_iff (ha.noNul x h1)).mp h3
  refine ⟨h1, hk, ?_⟩
  rw [← hk]
  exact ha.map x h1

theorem Agrees.find_none (ha : Agrees H l m) (hi : Inv H l)
    (hf : findElementGivenHash H key (hashOf H key) = none) :
    (∀ z ∈ l, fold (H.pKey z) ≠ fold key) ∧ m (fold key) = 0 := by
  have hne : ∀ z ∈ l, fold (H.pKey z) ≠ fold key := by
    intro z hz hk
    have h1 := hi.find_none hf hz (hashOf_eq_of_fold hk H)
    rw [(keyMatch_iff (ha.noNul z hz)).mpr hk] at h1
    cases h1
  refine ⟨hne, ?_⟩
  by_contra h0
  obtain ⟨z, hz, hk⟩ := ha.onto _ h0
  exact hne z hz hk

theorem Agrees.hashFind (ha : Agrees H l m) (hi : Inv H l) (key : List UInt8) :
    sqlite3HashFind H key = m (fold key) := by
  have hh : (if H.ht.isSome then slotOf H.htsize key else 0) = hashOf H key := rfl
  unfold sqlite3HashFind
  dsimp only
  rw [hh]
  cases hf : findElementGivenHash H key (hashOf H key) with
  | some x => exact (ha.find_some hi hf).2.2.symm
  | none => exact (ha.find_none hi hf).2.symm

/-- Replacing the data and the key of an element. -/
theorem Agrees.replace {H' : Hash} {data : ℕ} (ha : Agrees H l m) (hx : x ∈ l)
    (hk : fold (H.pKey x) = fold key) (hd : data ≠ 0) (hn : 0 ∉ key)
    (hkey : H'.pKey = Function.update H.pKey x key)
    (hdata : H'.data = Function.update H.data x data) :
    Agrees H' l (Function.update m (fold key) data) := by
  have hfold : ∀ z, fold (H'.pKey z) = fold (H.pKey z) := by
    intro z
    rw [hkey, Function.update_apply]
    by_cases hz : z = x
    · rw [if_pos hz, hz, hk]
    · rw [if_neg hz]
  refine ⟨fun z hz => ?_, fun z hz => ?_, fun z hz => ?_, fun z hz w hw he => ?_, fun k h0 => ?_⟩
  · rw [hkey, Function.update_apply]
    by_cases hzx : z = x
    · rwa [if_pos hzx]
    · rw [if_neg hzx]
      exact ha.noNul z hz
  · rw [hdata, Function.update_apply]
    by_cases hzx : z = x
    · rwa [if_pos hzx]
    · rw [if_neg hzx]
      exact ha.data z hz
  · rw [hfold, hdata, Function.update_apply, Function.update_apply]
    by_cases hzx : z = x
    · rw [if_pos hzx, hzx, if_pos hk]
    · rw [if_neg hzx, if_neg (fun hc => hzx (ha.inj z hz x hx (hc.trans hk.symm)))]
      exact ha.map z hz
  · rw [hfold, hfold] at he
    exact ha.inj z hz w hw he
  · rw [Function.update_apply] at h0
    by_cases hc : k = fold key
    · exact ⟨x, hx, by rw [hfold, hk, hc]⟩
    · rw [if_neg hc] at h0
      obtain ⟨z, hz, hzk⟩ := ha.onto k h0
      exact ⟨z, hz, by rw [hfold, hzk]⟩

/-- Taking out the element of a key takes the key out of the map. -/
theorem Agrees.erase {H' : Hash} (ha : Agrees H l m) (hnd : l.Nodup) (hx : x ∈ l)
    (hk : fold (H.pKey x) = fold key) (hkey : H'.pKey = H.pKey) (hdata : H'.data = H.data) :
    Agrees H' (l.erase x) (Function.update m (fold key) 0) := by
  have hmem : ∀ z, z ∈ l.erase x → z ≠ x ∧ z ∈ l := fun z hz => hnd.mem_erase_iff.mp hz
  refine ⟨fun z hz => ?_, fun z hz => ?_, fun z hz => ?_, fun z hz w hw he => ?_, fun k h0 => ?_⟩
  · rw [hkey]
    exact ha.noNul z (hmem z hz).2
  · rw [hdata]
    exact ha.data z (hmem z hz).2
  · have hne : fold (H.pKey z) ≠ fold key := fun hc =>
      (hmem z hz).1 (ha.inj z (hmem z hz).2 x hx (hc.trans hk.symm))
    rw [hkey, hdata, Function.update_of_ne hne]
    exact ha.map z (hmem z hz).2
  · rw [hkey] at he
    exact ha.inj z (hmem z hz).2 w (hmem w hw).2 he
  · rw [Function.update_apply] at h0
    by_cases hc : k = fold key
    · rw [if_pos hc] at h0
      exact absurd rfl h0
    · rw [if_neg hc] at h0
      obtain ⟨z, hz, hzk⟩ := ha.onto k h0
      have hzx : z ≠ x := fun e => hc (by rw [← hzk, e, hk])
      exact ⟨z, hnd.mem_erase_iff.mpr ⟨hzx, hz⟩, by rw [hkey, hzk]⟩

/-- A new element adds its key to the map. -/
theorem Agrees.add {H' : Hash} {l' : List ℕ} {data : ℕ} (ha : Agrees H l m) (hx : x ∉ l)
    (hk : ∀ z ∈ l, fold (H.pKey z) ≠ fold key) (hd : data ≠ 0) (hn : 0 ∉ key)
    (hp : l'.Perm (x :: l)) (hkey : H'.pKey = Function.update H.pKey x key)
    (hdata : H'.data = Function.update H.data x data) :
    Agrees H' l' (Function.update m (fold key) data) := by
  have hmem : ∀ z, z ∈ l' → z = x ∨ z ∈ l := fun z hz => List.mem_cons.mp (hp.mem_iff.mp hz)
  have hself : H'.pKey x = key ∧ H'.data x = data := by
    rw [hkey, hdata]
    exact ⟨Function.update_self .., Function.update_self ..⟩
  have hold : ∀ z ∈ l, H'.pKey z = H.pKey z ∧ H'.data z = H.data z := by
    intro z hz
    have hzx : z ≠ x := ne_of_mem_of_not_mem hz hx
    rw [hkey, hdata]
    exact ⟨Function.update_of_ne hzx _ _, Function.update_of_ne hzx _ _⟩
  refine ⟨fun z hz => ?_, fun z hz => ?_, fun z hz => ?_, fun z hz w hw he => ?_, fun k h0 => ?_⟩
  · rcases hmem z hz with rfl | hz
    · rwa [hself.1]
    · rw [(hold z hz).1]
      exact ha.noNul z hz
  · rcases hmem z hz with rfl | hz
    · rwa [hself.2]
    · rw [(hold z hz).2]
      exact ha.data z hz
  · rcases hmem z hz with rfl | hz
    · rw [hself.1, hself.2, Function.update_self]
    · rw [(hold z hz).1, (hold z hz).2, Function.update_of_ne (hk z hz)]
      exact ha.map z hz
  · rcases hmem z hz with rfl | hz
    · rcases hmem w hw with rfl | hw
      · rfl
      · rw [hself.1, (hold w hw).1] at he
        exact absurd he.symm (hk w hw)
    · rcases hmem w hw with rfl | hw
      · rw [hself.1, (hold z hz).1] at he
        exact absurd he (hk z hz)
      · rw [(hold z hz).1, (hold w hw).1] at he
        exact ha.inj z hz w hw he
  · rw [Function.update_apply] at h0
    by_cases hc : k = fold key
    · exact ⟨x, hp.mem_iff.mpr List.mem_cons_self, by rw [hself.1, hc]⟩
    · rw [if_neg hc] at h0
      obtain ⟨z, hz, hzk⟩ := ha.onto k h0
      exact ⟨z, hp.mem_iff.mpr (List.mem_cons_of_mem _ hz), by rw [(hold z hz).1, hzk]⟩

/-- What an insertion does to a table, whatever its keys are, and to the map it holds. -/
theorem Inv.insert (hi : Inv H l) (key : List UInt8) (data : ℕ) (block extra : Option ℕ)
    (hb : ∀ b, block = some b → H.live b = false) :
    ∃ r H' l', sqlite3HashInsert H key data block extra = some (r, H') ∧ Inv H' l' ∧
      ∀ m, Agrees H l m → r = (mapInsert m key data block).1 ∧
        (data ≠ 0 → m (fold key) = 0 → block = none → H' = H) ∧
        ((data ≠ 0 → 0 ∉ key) → Agrees H' l' (mapInsert m key data block).2) := by
  unfold sqlite3HashInsert
  dsimp only
  rw [hi.hashOf_eq]
  cases hf : findElementGivenHash H key (hashOf H key) with
  | some x =>
    obtain ⟨hx, hh, -⟩ := hi.find_some hf
    dsimp only
    by_cases hd : data = 0
    · subst hd
      rw [if_pos rfl]
      obtain ⟨H', h1, h2, h3, h4⟩ := hi.remove hx hh
      rw [h1]
      refine ⟨_, _, _, rfl, h2, fun m ha => ?_⟩
      obtain ⟨-, hk, hm⟩ := ha.find_some hi hf
      unfold mapInsert
      rw [if_neg (fun hc => hc.1 rfl)]
      exact ⟨hm.symm, fun hc => absurd rfl hc, fun _ => ha.erase hi.nodup hx hk h3 h4⟩
    · rw [if_neg hd]
      refine ⟨_, _, l, rfl, ?_, fun m ha => ?_⟩
      · have hl : Linked { H with
            data := Function.update H.data x data
            pKey := Function.update H.pKey x key } l := by
          refine ⟨hi.links, hi.first, hi.nodup, hi.noArray, fun t ht => ?_⟩
          obtain ⟨h1, h2⟩ := hi.array t ht
          refine ⟨h1, fun k => (h2 k).congr (fun z _ => ?_)⟩
          have ht' : H.ht = some t := ht
          show slotOf H.htsize (Function.update H.pKey x key z) = slotOf H.htsize (H.pKey z)
          rw [Function.update_apply]
          by_cases hz : z = x
          · unfold hashOf at hh
            rw [ht'] at hh
            rw [if_pos hz, hz]
            exact hh.symm
          · rw [if_neg hz]
        exact ⟨hl, hi.count, hi.live⟩
      · obtain ⟨-, hk, hm⟩ := ha.find_some hi hf
        have hne : m (fold key) ≠ 0 := hm ▸ ha.data x hx
        unfold mapInsert
        rw [if_neg (fun hc => hne hc.2.1)]
        exact ⟨hm.symm, fun _ hc => absurd hc hne, fun hn => ha.replace hx hk hd (hn hd) rfl rfl⟩
  | none =>
    dsimp only
    by_cases hd : data = 0
    · subst hd
      rw [if_pos rfl]
      refine ⟨_, _, l, rfl, hi, fun m ha => ?_⟩
      obtain ⟨-, hm⟩ := ha.find_none hi hf
      unfold mapInsert
      rw [if_neg (fun hc => hc.1 rfl)]
      refine ⟨hm.symm, fun hc => absurd rfl hc, fun _ => ?_⟩
      have hsame : Function.update m (fold key) 0 = m := by
        rw [← hm]
        exact Function.update_eq_self _ m
      dsimp only
      rwa [hsame]
    · rw [if_neg hd]
      cases block with
      | none =>
        refine ⟨_, _, l, rfl, hi, fun m ha => ?_⟩
        obtain ⟨-, hm⟩ := ha.find_none hi hf
        unfold mapInsert
        rw [if_pos ⟨hd, hm, rfl⟩]
        exact ⟨rfl, fun _ _ _ => rfl, fun _ => ha⟩
      | some b =>
        obtain ⟨H', l', h1, h2, h3, h4, h5⟩ := hi.add (hb b rfl) key data extra
        dsimp only
        rw [h1]
        refine ⟨_, _, l', rfl, h2, fun m ha => ?_⟩
        obtain ⟨hk, hm⟩ := ha.find_none hi hf
        have hbl : b ∉ l := fun hc =>
          Bool.false_ne_true ((hb b rfl).symm.trans ((hi.live b).mpr hc))
        unfold mapInsert
        rw [if_neg (fun hc => absurd hc.2.2 nofun)]
        exact ⟨hm.symm, nofun, fun hn => ha.add hbl hk hd (hn hd) h3 h4 h5⟩

/-- The table and the map after some calls, with new elements under keys that `P` allows. -/
inductive Reachable (P : List UInt8 → Prop) : Hash → (List UInt8 → ℕ) → Prop
  | init : Reachable P sqlite3HashInit (fun _ => 0)
  | insert {H H' : Hash} {m : List UInt8 → ℕ} {key : List UInt8} {data r : ℕ}
      {block extra : Option ℕ} : Reachable P H m → (data ≠ 0 → P key) →
      (∀ b, block = some b → H.live b = false) →
      sqlite3HashInsert H key data block extra = some (r, H') →
      Reachable P H' (mapInsert m key data block).2
  | clear {H H' : Hash} {m : List UInt8 → ℕ} : Reachable P H m → sqlite3HashClear H = some H' →
      Reachable P H' (fun _ => 0)

theorem Reachable.inv {P : List UInt8 → Prop} (h : Reachable P H m) : ∃ l, Inv H l := by
  induction h with
  | init => exact ⟨[], Inv.init⟩
  | insert _ _ hb he ih =>
    obtain ⟨l, hi⟩ := ih
    obtain ⟨r', H2, l', h1, h2, -⟩ := hi.insert _ _ _ _ hb
    obtain ⟨rfl, rfl⟩ := Prod.mk.inj (Option.some.inj (he.symm.trans h1))
    exact ⟨l', h2⟩
  | clear _ he ih =>
    obtain ⟨l, hi⟩ := ih
    obtain ⟨H2, h1, h2⟩ := hi.clear
    obtain rfl := Option.some.inj (he.symm.trans h1)
    exact ⟨[], h2⟩

theorem Reachable.agrees (h : Reachable (fun z => 0 ∉ z) H m) : ∃ l, Inv H l ∧ Agrees H l m := by
  induction h with
  | init => exact ⟨[], Inv.init, Agrees.empty _⟩
  | insert _ hP hb he ih =>
    obtain ⟨l, hi, ha⟩ := ih
    obtain ⟨r', H2, l', h1, h2, h3⟩ := hi.insert _ _ _ _ hb
    obtain ⟨rfl, rfl⟩ := Prod.mk.inj (Option.some.inj (he.symm.trans h1))
    exact ⟨l', h2, (h3 _ ha).2.2 hP⟩
  | clear _ he ih =>
    obtain ⟨l, hi, -⟩ := ih
    obtain ⟨H2, h1, h2⟩ := hi.clear
    obtain rfl := Option.some.inj (he.symm.trans h1)
    exact ⟨[], h2, Agrees.empty _⟩

/-- The table keeps its structure under any keys, and is the map as long as no key with a NUL
byte is inserted. -/
theorem hash_table_sound :
    (∀ H m, Reachable (fun _ => True) H m → (∃ l, Inv H l) ∧
      (∃ H', sqlite3HashClear H = some H') ∧
      ∀ key data block extra, (∀ b, block = some b → H.live b = false) →
        ∃ r H', sqlite3HashInsert H key data block extra = some (r, H')) ∧
    ∀ H m, Reachable (fun z => 0 ∉ z) H m →
      (∀ key, sqlite3HashFind H key = m (fold key)) ∧
      ∀ key data block extra, (∀ b, block = some b → H.live b = false) →
        ∃ H', sqlite3HashInsert H key data block extra =
            some ((mapInsert m key data block).1, H') ∧
          (data ≠ 0 → m (fold key) = 0 → block = none → H' = H) := by
  constructor
  · intro H m h
    obtain ⟨l, hi⟩ := h.inv
    obtain ⟨H', h1, -⟩ := hi.clear
    refine ⟨⟨l, hi⟩, ⟨H', h1⟩, fun key data block extra hb => ?_⟩
    obtain ⟨r, H2, -, h2, -⟩ := hi.insert key data block extra hb
    exact ⟨r, H2, h2⟩
  · intro H m h
    obtain ⟨l, hi, ha⟩ := h.agrees
    refine ⟨ha.hashFind hi, fun key data block extra hb => ?_⟩
    obtain ⟨r, H2, l', h2, -, h3⟩ := hi.insert key data block extra hb
    obtain ⟨rfl, h4, -⟩ := h3 m ha
    exact ⟨H2, h2, h4⟩

/-- The tenth of twelve elements brings the buckets in. -/
example : ((List.range 12).foldlM (fun H n => (sqlite3HashInsert H [.ofNat (n + 1)] (n + 1) (some n)
    (some 100)).map Prod.snd) sqlite3HashInit).map (fun H =>
      (H.htsize, (List.range 14).map fun i => sqlite3HashFind H [.ofNat i])) =
    some (26, [0, 1, 2, 3, 4, 5, 6, 7, 8, 9, 10, 11, 12, 0]) := by
  decide +kernel

/-- Two keys that differ behind a NUL byte are one to the table. -/
theorem hash_table_nul_confused :
    ∃ H m, Reachable (fun _ => True) H m ∧ ∃ key, sqlite3HashFind H key ≠ m (fold key) := by
  have hins : sqlite3HashInsert sqlite3HashInit [0, 1] 5 (some 0) none =
      some (0, (sqlite3HashInsert sqlite3HashInit [0, 1] 5 (some 0) none).get rfl |>.2) := rfl
  have hr := Reachable.insert (P := fun _ => True) Reachable.init (fun _ => trivial)
    (fun _ _ => rfl) hins
  refine ⟨_, _, hr, [0, 2], ?_⟩
  decide

end Sqlite.HashTable
