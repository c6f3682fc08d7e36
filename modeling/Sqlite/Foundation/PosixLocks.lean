import Mathlib.Logic.Function.Basic
import Mathlib.Data.Nat.Notation

/-! Locks on the bytes of one file that belong to processes, and processes whose calls set such
locks. -/
namespace Sqlite.Foundation

inductive LockType
  | F_UNLCK
  | F_RDLCK
  | F_WRLCK
  deriving DecidableEq

/-- Two processes cannot have these locks on one byte. -/
def LockType.Clash (x y : LockType) : Prop :=
  x = .F_WRLCK ∧ y ≠ .F_UNLCK ∨ y = .F_WRLCK ∧ x ≠ .F_UNLCK

instance (x y : LockType) : Decidable (x.Clash y) := inferInstanceAs (Decidable (_ ∨ _))

structure Flock where
  l_type : LockType
  l_start : ℕ
  l_len : ℕ

/-- The length zero is that of all bytes from the first one on. -/
def Flock.Covers (lock : Flock) (b : ℕ) : Prop :=
  lock.l_start ≤ b ∧ (lock.l_len = 0 ∨ b < lock.l_start + lock.l_len)

instance (lock : Flock) (b : ℕ) : Decidable (lock.Covers b) := inferInstanceAs (Decidable (_ ∧ _))

/-- The locks of a process after it has set one. -/
def Flock.set (lock : Flock) (held : ℕ → LockType) (b : ℕ) : LockType :=
  if lock.Covers b then lock.l_type else held b

theorem Flock.covers_iff {t : LockType} {start len b : ℕ} (h : len ≠ 0) :
    (⟨t, start, len⟩ : Flock).Covers b ↔ start ≤ b ∧ b < start + len := by
  unfold Flock.Covers
  simp only [h, false_or]

/-- The commands `F_SETLK` and `F_GETLK`. -/
inductive Fcntl
  | F_SETLK (lock : Flock)
  | F_GETLK (lock : Flock)

/-- What a system call leaves: an error number, or the type of the lock. -/
inductive Answer
  | failed (errno : ℕ)
  | done (l_type : LockType)

/-- The answers to a process with the locks `held`, and the locks it has then. A request for a lock
can always be refused. -/
inductive Answers : Fcntl → (ℕ → LockType) → Answer → (ℕ → LockType) → Prop
  | granted (lock : Flock) (held : ℕ → LockType) :
    Answers (.F_SETLK lock) held (.done lock.l_type) (lock.set held)
  | refused {lock : Flock} (held : ℕ → LockType) (errno : ℕ) :
    lock.l_type ≠ .F_UNLCK → Answers (.F_SETLK lock) held (.failed errno) held
  | told (lock : Flock) (held : ℕ → LockType) (x : Answer) : Answers (.F_GETLK lock) held x held

variable {Proc Op σ ρ : Type*}

/-- Some other process has a lock that clashes with this one. -/
def Blocked (locks : Proc → ℕ → LockType) (a : Proc) (lock : Flock) : Prop :=
  ∃ c, c ≠ a ∧ ∃ b, lock.Covers b ∧ lock.l_type.Clash (locks c b)

/-- A lock is not granted when it is blocked, and `F_GETLK` tells of a lock that blocks. -/
def Allowed (locks : Proc → ℕ → LockType) (a : Proc) : Fcntl → Answer → Prop
  | .F_SETLK lock, .done _ => ¬ Blocked locks a lock
  | .F_SETLK _, .failed _ => True
  | .F_GETLK lock, .done l_type =>
    if l_type = .F_UNLCK then ¬ Blocked locks a lock
    else ∃ c, c ≠ a ∧ ∃ b, lock.Covers b ∧ lock.l_type.Clash (locks c b) ∧ locks c b = l_type
  | .F_GETLK _, .failed _ => True

/-- No byte has clashing locks of two processes. -/
def Compatible (locks : Proc → ℕ → LockType) : Prop :=
  ∀ a c, a ≠ c → ∀ b, ¬ (locks a b).Clash (locks c b)

theorem LockType.Clash.symm {x y : LockType} (h : x.Clash y) : y.Clash x := by
  rcases h with h | h
  · exact Or.inr h
  · exact Or.inl h

theorem not_clash_unlocked (x : LockType) : ¬ x.Clash .F_UNLCK := by
  rintro (⟨-, h⟩ | ⟨h, -⟩)
  · exact h rfl
  · cases h

section Grant
variable [DecidableEq Proc] {locks : Proc → ℕ → LockType} {a : Proc}

/-- Locks stay compatible when a process takes some that no other one blocks. -/
theorem Compatible.update {held : ℕ → LockType} (h : Compatible locks)
    (hb : ∀ c, c ≠ a → ∀ b, ¬ (held b).Clash (locks c b)) :
    Compatible (Function.update locks a held) := by
  intro c d hcd b
  by_cases hc : c = a
  · rw [hc] at hcd ⊢
    rw [Function.update_self, Function.update_of_ne (Ne.symm hcd)]
    exact hb d (Ne.symm hcd) b
  · rw [Function.update_of_ne hc]
    by_cases hd : d = a
    · rw [hd, Function.update_self]
      exact fun hx => hb c hc b hx.symm
    · rw [Function.update_of_ne hd]
      exact h c d hcd b

theorem Compatible.answered {q : Fcntl} {x : Answer} {held : ℕ → LockType} (h : Compatible locks)
    (ha : Allowed locks a q x) (hx : Answers q (locks a) x held) :
    Compatible (Function.update locks a held) := by
  cases hx with
  | granted lock _ =>
    apply h.update
    intro c hc b
    unfold Flock.set
    split
    · rename_i hb
      exact fun hx => ha ⟨c, hc, b, hb, hx⟩
    · exact h a c (Ne.symm hc) b
  | refused _ _ _ => exact h.update (fun c hc b => h a c (Ne.symm hc) b)
  | told _ _ _ => exact h.update (fun c hc b => h a c (Ne.symm hc) b)

end Grant

/-- A call up to its end, or up to its next system call, with the memory of the process there. -/
inductive Run (σ ρ : Type*)
  | ret (m : σ) (rc : ρ)
  | ask (m : σ) (q : Fcntl) (next : Answer → Run σ ρ)

def Run.mem : Run σ ρ → σ
  | .ret m _ => m
  | .ask m _ _ => m

/-- Something holds of the memory at every system call, and at the end. -/
def Run.All (P : σ → Prop) : Run σ ρ → Prop
  | .ret m _ => P m
  | .ask m _ next => P m ∧ ∀ x, (next x).All P

theorem Run.All.mem {P : σ → Prop} {r : Run σ ρ} (h : r.All P) : P r.mem := by
  cases r with
  | ret m rc => exact h
  | ask m q next => exact h.1

theorem Run.All.mono {P Q : σ → Prop} (hPQ : ∀ m, P m → Q m) {r : Run σ ρ} (h : r.All P) :
    r.All Q := by
  induction r with
  | ret m rc => exact hPQ m h
  | ask m q next ih => exact ⟨hPQ m h.1, fun x => ih x (h.2 x)⟩

/-- A call, with the memory and the locks of its process when it began. -/
structure Call (Op σ : Type*) where
  op : Op
  mem : σ
  held : ℕ → LockType

/-- A process is in its call as long as `run` asks for something. -/
structure Process (Op σ ρ : Type*) where
  call : Option (Call Op σ)
  run : Run σ ρ

structure World (Proc Op σ ρ : Type*) where
  proc : Proc → Process Op σ ρ
  locks : Proc → ℕ → LockType

section Steps
variable [DecidableEq Proc] (Legal : Op → σ → Prop) (start : Op → σ → Run σ ρ)

/-- A process starts a call, or gets the answer to a system call and goes on up to the next one. -/
inductive World.Step (w : World Proc Op σ ρ) : World Proc Op σ ρ → Prop
  | start (a : Proc) (op : Op) (m : σ) (rc : ρ) : (w.proc a).run = .ret m rc → Legal op m →
    World.Step w ⟨Function.update w.proc a ⟨some ⟨op, m, w.locks a⟩, start op m⟩, w.locks⟩
  | answer (a : Proc) (m : σ) (q : Fcntl) (next : Answer → Run σ ρ) (x : Answer)
    (held : ℕ → LockType) : (w.proc a).run = .ask m q next → Allowed w.locks a q x →
    Answers q (w.locks a) x held → World.Step w ⟨Function.update w.proc a
      ⟨(w.proc a).call, next x⟩, Function.update w.locks a held⟩

inductive World.Reach (w : World Proc Op σ ρ) : World Proc Op σ ρ → Prop
  | init : World.Reach w w
  | step {w₁ w₂ : World Proc Op σ ρ} : World.Reach w w₁ → World.Step Legal start w₁ w₂ →
    World.Reach w w₂

end Steps

/-- What a call comes to: `Mid` holds at each system call, `Moves` from one to the next, and `Post`
at the end. -/
def Run.Meets (Mid : σ → (ℕ → LockType) → Prop)
    (Moves : σ → (ℕ → LockType) → σ → (ℕ → LockType) → Prop)
    (Post : σ → ρ → (ℕ → LockType) → Prop) : Run σ ρ → (ℕ → LockType) → Prop
  | .ret m rc, held => Post m rc held
  | .ask m q next, held => Mid m held ∧ ∀ x held', Answers q held x held' →
    Moves m held (next x).mem held' ∧ (next x).Meets Mid Moves Post held'

/-- What is promised of the calls of an operation. -/
structure Contract (Op σ ρ : Type*) where
  Idle : σ → (ℕ → LockType) → Prop
  Mid : Call Op σ → σ → (ℕ → LockType) → Prop
  Moves : Call Op σ → σ → (ℕ → LockType) → σ → (ℕ → LockType) → Prop
  Post : Call Op σ → σ → ρ → (ℕ → LockType) → Prop

namespace Contract

variable (K : Contract Op σ ρ)

/-- The promise for a process. -/
def Holds (p : Process Op σ ρ) (held : ℕ → LockType) : Prop :=
  match p.call with
  | none => ∃ m rc, p.run = .ret m rc ∧ K.Idle m held
  | some c => p.run.Meets (K.Mid c) (K.Moves c)
      (fun m rc held => K.Idle m held ∧ K.Post c m rc held) held

variable {K}

theorem Holds.idle {p : Process Op σ ρ} {held : ℕ → LockType} (h : K.Holds p held) {m : σ} {rc : ρ}
    (hr : p.run = .ret m rc) : K.Idle m held := by
  unfold Holds at h
  split at h
  · obtain ⟨m', rc', h1, h2⟩ := h
    rw [hr] at h1
    cases h1
    exact h2
  · rw [hr] at h
    exact h.1

theorem Holds.mid {p : Process Op σ ρ} {held : ℕ → LockType} (h : K.Holds p held) {c : Call Op σ}
    (hc : p.call = some c) {m : σ} {q : Fcntl} {next : Answer → Run σ ρ}
    (hr : p.run = .ask m q next) : K.Mid c m held := by
  unfold Holds at h
  rw [hc, hr] at h
  exact h.1

theorem Holds.post {p : Process Op σ ρ} {held : ℕ → LockType} (h : K.Holds p held) {c : Call Op σ}
    (hc : p.call = some c) {m : σ} {rc : ρ} (hr : p.run = .ret m rc) : K.Post c m rc held := by
  unfold Holds at h
  rw [hc, hr] at h
  exact h.2

theorem Holds.answer {p : Process Op σ ρ} {held held' : ℕ → LockType} (h : K.Holds p held) {m : σ}
    {q : Fcntl} {next : Answer → Run σ ρ} (hr : p.run = .ask m q next) {x : Answer}
    (hx : Answers q held x held') :
    ∃ c, p.call = some c ∧ K.Moves c m held (next x).mem held' ∧ K.Holds ⟨p.call, next x⟩ held' := by
  unfold Holds at h
  split at h
  · obtain ⟨m', rc', h1, -⟩ := h
    rw [hr] at h1
    cases h1
  · rename_i c hc
    rw [hr] at h
    obtain ⟨h1, h2⟩ := h.2 x held' hx
    refine ⟨c, hc, h1, ?_⟩
    unfold Holds
    rw [hc]
    exact h2

end Contract

/-- The promise holds of all processes, and their locks are compatible. -/
structure World.Sound (K : Contract Op σ ρ) (w : World Proc Op σ ρ) : Prop where
  holds : ∀ a, K.Holds (w.proc a) (w.locks a)
  compatible : Compatible w.locks

section Sound
variable [DecidableEq Proc] {Legal : Op → σ → Prop} {start : Op → σ → Run σ ρ}
  {K : Contract Op σ ρ} {w w' : World Proc Op σ ρ}

theorem World.Sound.step
    (hK : ∀ op m held, K.Idle m held → Legal op m → K.Holds ⟨some ⟨op, m, held⟩, start op m⟩ held)
    (h : w.Sound K) (hs : w.Step Legal start w') : w'.Sound K := by
  cases hs with
  | start a op m rc hr hl =>
    constructor
    · intro c
      show K.Holds (Function.update w.proc a _ c) (w.locks c)
      by_cases hc : c = a
      · rw [hc, Function.update_self]
        exact hK op m _ ((h.holds a).idle hr) hl
      · rw [Function.update_of_ne hc]
        exact h.holds c
    · exact h.compatible
  | answer a m q next x held hr ha hx =>
    constructor
    · intro c
      show K.Holds (Function.update w.proc a _ c) (Function.update w.locks a held c)
      by_cases hc : c = a
      · rw [hc, Function.update_self, Function.update_self]
        obtain ⟨-, -, -, h3⟩ := (h.holds a).answer hr hx
        exact h3
      · rw [Function.update_of_ne hc, Function.update_of_ne hc]
        exact h.holds c
    · exact h.compatible.answered ha hx

/-- Calls that meet their contract from idle memories meet it in every interleaving. -/
theorem World.Sound.reach
    (hK : ∀ op m held, K.Idle m held → Legal op m → K.Holds ⟨some ⟨op, m, held⟩, start op m⟩ held)
    (h : w.Sound K) (hr : w.Reach Legal start w') : w'.Sound K := by
  induction hr with
  | init => exact h
  | step _ hs ih => exact ih.step hK hs

/-- A step moves one process. -/
theorem World.Sound.moves
    (hM : ∀ op m held, K.Idle m held → Legal op m → K.Moves ⟨op, m, held⟩ m held (start op m).mem held)
    (h : w.Sound K) (hs : w.Step Legal start w') (a : Proc) : w'.proc a = w.proc a ∨
      (∀ c, c ≠ a → w'.proc c = w.proc c ∧ w'.locks c = w.locks c) ∧
        ∃ c, K.Moves c (w.proc a).run.mem (w.locks a) (w'.proc a).run.mem (w'.locks a) := by
  cases hs with
  | start b op m rc hr hl =>
    by_cases hab : a = b
    · right
      subst hab
      constructor
      · exact fun c hc => ⟨Function.update_of_ne hc _ _, rfl⟩
      · have hm := hM op m _ ((h.holds a).idle hr) hl
        refine ⟨⟨op, m, w.locks a⟩, ?_⟩
        rw [hr]
        show K.Moves _ m (w.locks a) (Function.update w.proc a _ a).run.mem (w.locks a)
        rw [Function.update_self]
        exact hm
    · exact Or.inl (Function.update_of_ne hab _ _)
  | answer b m q next x held hr ha hx =>
    by_cases hab : a = b
    · right
      subst hab
      constructor
      · exact fun c hc => ⟨Function.update_of_ne hc _ _, Function.update_of_ne hc _ _⟩
      · obtain ⟨c, -, hm, -⟩ := (h.holds a).answer hr hx
        refine ⟨c, ?_⟩
        rw [hr]
        show K.Moves c m (w.locks a) (Function.update w.proc a _ a).run.mem
          (Function.update w.locks a held a)
        rw [Function.update_self, Function.update_self]
        exact hm
    · exact Or.inl (Function.update_of_ne hab _ _)

/-- What no call changes stays as it was. -/
theorem World.Reach.frame {τ : Type*} (f : σ → τ)
    (hf : ∀ op m, Legal op m → (start op m).All (fun m' => f m' = f m))
    (h0 : ∀ a, ∃ m rc, (w.proc a).run = .ret m rc) (hr : w.Reach Legal start w') (a : Proc) :
    f (w'.proc a).run.mem = f (w.proc a).run.mem := by
  suffices h : ∀ a, (w'.proc a).run.All (fun m => f m = f (w.proc a).run.mem) from (h a).mem
  induction hr with
  | init =>
    intro a
    obtain ⟨m, rc, hm⟩ := h0 a
    rw [hm]
    rfl
  | step _ hs ih =>
    intro c
    cases hs with
    | start b op m rc hrun hl =>
      show (Function.update (_ : Proc → Process Op σ ρ) b _ c).run.All _
      by_cases hc : c = b
      · have hm : f m = f (w.proc b).run.mem := by
          have := (ih b).mem
          rwa [hrun] at this
        rw [hc, Function.update_self, ← hm]
        exact hf op m hl
      · rw [Function.update_of_ne hc]
        exact ih c
    | answer b m q next x held hrun ha hx =>
      show (Function.update (_ : Proc → Process Op σ ρ) b _ c).run.All _
      by_cases hc : c = b
      · have hm := ih b
        rw [hrun] at hm
        rw [hc, Function.update_self]
        exact hm.2 x
      · rw [Function.update_of_ne hc]
        exact ih c

end Sound

end Sqlite.Foundation
