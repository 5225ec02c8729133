import Mathlib.Tactic.Common

/-! # Programs with a state that may stop

`Prog ε σ α` is a computation over a state `σ` that returns a value of type `α`, or stops
for a reason of type `ε` (a fault, an exit, a loop that never ends).  The rules below are
used in two directions: `run_bind_ok` runs a program forwards, one statement at a time, and
`run_bind_eq_ok` takes a run that returned apart. -/

namespace OsProjects

/-- A computation over `σ` that returns an `α` or stops with an `ε`. -/
def Prog (ε σ α : Type) := σ → Except ε (α × σ)

namespace Prog

variable {ε σ α β : Type}

/-- Run a program from a state. -/
def run (p : Prog ε σ α) (s : σ) : Except ε (α × σ) := p s

instance : Monad (Prog ε σ) where
  pure a := fun s => .ok (a, s)
  bind x f := fun s => match x s with
    | .ok (a, s') => f a s'
    | .error e => .error e

/-- Stop with the reason `e`. -/
def stop (e : ε) : Prog ε σ α := fun _ => .error e

/-- Read a component of the state. -/
def gets (f : σ → α) : Prog ε σ α := fun s => .ok (f s, s)

/-- Change the state. -/
def modify (f : σ → σ) : Prog ε σ Unit := fun s => .ok ((), f s)

@[simp] theorem run_pure (a : α) (s : σ) : (pure a : Prog ε σ α).run s = .ok (a, s) := rfl

@[simp] theorem run_stop (e : ε) (s : σ) : (stop e : Prog ε σ α).run s = .error e := rfl

@[simp] theorem run_gets (f : σ → α) (s : σ) : (gets f : Prog ε σ α).run s = .ok (f s, s) := rfl

@[simp] theorem run_modify (f : σ → σ) (s : σ) :
    (modify f : Prog ε σ Unit).run s = .ok ((), f s) := rfl

@[simp] theorem run_ite (c : Prop) [Decidable c] (p q : Prog ε σ α) (s : σ) :
    (if c then p else q).run s = if c then p.run s else q.run s := by
  split <;> rfl

/-- Forward rule: a statement that returns hands its result to the rest. -/
theorem run_bind_ok {x : Prog ε σ α} {f : α → Prog ε σ β} {s s' : σ} {a : α}
    (h : x.run s = .ok (a, s')) : (x >>= f).run s = (f a).run s' := by
  show (match x.run s with | .ok (a, s') => f a s' | .error e => .error e) = _
  rw [h]; rfl

/-- Inversion rule: a sequence returned iff its first statement did and the rest did. -/
theorem run_bind_eq_ok {x : Prog ε σ α} {f : α → Prog ε σ β} {s : σ} {r : β × σ} :
    (x >>= f).run s = .ok r ↔ ∃ a s', x.run s = .ok (a, s') ∧ (f a).run s' = .ok r := by
  constructor
  · intro h
    cases hx : x.run s with
    | error e =>
        change (match x.run s with | .ok (a, s') => f a s' | .error e => .error e) = _ at h
        rw [hx] at h
        cases h
    | ok p => exact ⟨p.1, p.2, rfl, by rwa [run_bind_ok hx] at h⟩
  · rintro ⟨a, s', h, h'⟩
    rw [run_bind_ok h, h']

/-- Two sequences with the same first statement run alike if the rests do, from every state that
the first statement can lead to. -/
theorem run_bind_congr {x : Prog ε σ α} {f g : α → Prog ε σ β} {s : σ}
    (h : ∀ a s', x.run s = .ok (a, s') → (f a).run s' = (g a).run s') :
    (x >>= f).run s = (x >>= g).run s := by
  cases hx : x.run s with
  | error e =>
      show (match x.run s with | .ok (a, s') => f a s' | .error e => .error e) =
        match x.run s with | .ok (a, s') => g a s' | .error e => .error e
      rw [hx]
  | ok p => rw [run_bind_ok hx, run_bind_ok hx, h p.1 p.2 hx]

/-- A conditional returned iff the branch that was taken did. -/
theorem run_ite_eq_ok {c : Prop} [Decidable c] {p q : Prog ε σ α} {s : σ} {r : α × σ} :
    (if c then p else q).run s = .ok r ↔ c ∧ p.run s = .ok r ∨ ¬c ∧ q.run s = .ok r := by
  by_cases h : c <;> simp [h]

/-- The program returns from `s`. -/
def Returns (p : Prog ε σ α) (s : σ) : Prop := ∃ r, p.run s = .ok r

theorem Returns.of_ok {p : Prog ε σ α} {s : σ} {r : α × σ} (h : p.run s = .ok r) : p.Returns s :=
  ⟨r, h⟩

theorem returns_pure (a : α) (s : σ) : (pure a : Prog ε σ α).Returns s := ⟨_, rfl⟩

theorem returns_modify (f : σ → σ) (s : σ) : (modify f : Prog ε σ Unit).Returns s := ⟨_, rfl⟩

/-- A sequence returns if the rest does from the state that the first statement leads to. -/
theorem Returns.bind_ok {x : Prog ε σ α} {f : α → Prog ε σ β} {s s' : σ} {a : α}
    (h : x.run s = .ok (a, s')) (hf : (f a).Returns s') : (x >>= f).Returns s := by
  obtain ⟨r, hr⟩ := hf
  exact ⟨r, by rw [run_bind_ok h, hr]⟩

theorem Returns.ite {c : Prop} [Decidable c] {p q : Prog ε σ α} {s : σ} (hp : c → p.Returns s)
    (hq : ¬c → q.Returns s) : (if c then p else q).Returns s := by
  split
  next h => exact hp h
  next h => exact hq h

/-- The program returns from `s`, and the result and the state afterwards satisfy `Q`. -/
def Ends (p : Prog ε σ α) (s : σ) (Q : α → σ → Prop) : Prop := ∃ a s', p.run s = .ok (a, s') ∧ Q a s'

theorem ends_pure {Q : α → σ → Prop} {a : α} {s : σ} (h : Q a s) : (pure a : Prog ε σ α).Ends s Q :=
  ⟨a, s, rfl, h⟩

/-- A sequence ends as its rest does from the state that the first statement leads to. -/
theorem Ends.bind_ok {x : Prog ε σ α} {f : α → Prog ε σ β} {s s' : σ} {a : α} {Q : β → σ → Prop}
    (h : x.run s = .ok (a, s')) (hf : (f a).Ends s' Q) : (x >>= f).Ends s Q := by
  obtain ⟨b, s'', hr, hQ⟩ := hf
  exact ⟨b, s'', by rw [run_bind_ok h, hr], hQ⟩

theorem Ends.ite {c : Prop} [Decidable c] {p q : Prog ε σ α} {s : σ} {Q : α → σ → Prop}
    (hp : c → p.Ends s Q) (hq : ¬c → q.Ends s Q) : (if c then p else q).Ends s Q := by
  split
  next h => exact hp h
  next h => exact hq h

/-- The program returns, and its result and the state afterwards pass the test `f`. -/
def check (p : Prog ε σ α) (s : σ) (f : α → σ → Bool) : Bool :=
  match p.run s with
  | .ok (a, s') => f a s'
  | .error _ => false

theorem exists_of_check {p : Prog ε σ α} {s : σ} {f : α → σ → Bool} (h : p.check s f = true) :
    ∃ a s', p.run s = .ok (a, s') ∧ f a s' = true := by
  rw [check] at h
  split at h
  next a s' hp => exact ⟨a, s', hp, h⟩
  next => cases h

/-- The state before the program is tested as well. -/
theorem exists_of_and_check {P : Prop} [Decidable P] {p : Prog ε σ α} {s : σ} {f : α → σ → Bool}
    (h : (decide P && p.check s f) = true) : P ∧ ∃ a s', p.run s = .ok (a, s') ∧ f a s' = true := by
  rw [Bool.and_eq_true, decide_eq_true_eq] at h
  exact ⟨h.1, exists_of_check h.2⟩

end Prog

end OsProjects
