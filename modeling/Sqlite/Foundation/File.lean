import Mathlib.Data.Nat.Basic

/-! Random-access files: writes at an offset, truncation, and the bytes stored in a range. -/
namespace Sqlite.Foundation

structure File where
  size : ℕ
  byte : ℕ → UInt8

/-- A write past the end fills the gap with zeros. -/
def File.write (f : File) (off len : ℕ) (data : ℕ → UInt8) : File where
  size := max f.size (off + len)
  byte x := if off ≤ x ∧ x < off + len then data (x - off) else if x < f.size then f.byte x else 0

def File.truncate (f : File) (n : ℕ) : File := { f with size := min f.size n }

def File.read (f : File) (off : ℕ) : ℕ → UInt8 := fun x => f.byte (off + x)

/-- The range at `off` lies in the file and holds `data`. -/
def File.Stores (f : File) (off len : ℕ) (data : ℕ → UInt8) : Prop :=
  off + len ≤ f.size ∧ ∀ x < len, f.byte (off + x) = data x

namespace File

variable {f : File} {off len off' len' n : ℕ} {data data' : ℕ → UInt8}

theorem size_write : (f.write off len data).size = max f.size (off + len) := rfl

theorem byte_write_of_outside {x : ℕ} (h : x < off ∨ off + len ≤ x) (hx : x < f.size) :
    (f.write off len data).byte x = f.byte x := by
  unfold File.write
  dsimp only
  rw [if_neg (by omega), if_pos hx]

theorem stores_write (f : File) (off len : ℕ) (data : ℕ → UInt8) :
    (f.write off len data).Stores off len data := by
  refine ⟨Nat.le_max_right _ _, fun x hx => ?_⟩
  unfold File.write
  dsimp only
  rw [if_pos (by omega), Nat.add_sub_cancel_left]

theorem Stores.write (h : f.Stores off' len' data')
    (hd : off' + len' ≤ off ∨ off + len ≤ off') : (f.write off len data).Stores off' len' data' := by
  have h1 := h.1
  refine ⟨Nat.le_trans h1 (Nat.le_max_left _ _), fun x hx => ?_⟩
  rw [byte_write_of_outside (by omega) (by omega)]
  exact h.2 x hx

theorem Stores.truncate (h : f.Stores off len data) (hn : off + len ≤ n) :
    (f.truncate n).Stores off len data :=
  ⟨Nat.le_min.mpr ⟨h.1, hn⟩, h.2⟩

theorem Stores.congr (h : f.Stores off len data) (hd : ∀ x < len, data' x = data x) :
    f.Stores off len data' :=
  ⟨h.1, fun x hx => (h.2 x hx).trans (hd x hx).symm⟩

theorem Stores.append (h1 : f.Stores off len data) (h2 : f.Stores (off + len) len' data') :
    f.Stores off (len + len') (fun x => if x < len then data x else data' (x - len)) := by
  refine ⟨by have := h2.1; omega, fun x hx => ?_⟩
  dsimp only
  by_cases h : x < len
  · rw [if_pos h]
    exact h1.2 x h
  · rw [if_neg h]
    have := h2.2 (x - len) (by omega)
    rwa [Nat.add_assoc, Nat.add_sub_cancel' (by omega)] at this

theorem Stores.read (h : f.Stores off len data) {x : ℕ} (hx : x < len) :
    f.read off x = data x := h.2 x hx

end File

end Sqlite.Foundation
