import OsProjects.Lib.Program

/-! # Postconditions of programs

`p.Spec s Q E` says of the run of `p` from `s` that it returns with `Q` or stops with `E`.  With
`E` always true it is partial correctness, and with `E` always false it says that the program
returns.  There is one rule for each way to make a program. -/

namespace OsProjects.Prog

variable {ε σ α β : Type} {Q Q' : α → σ → Prop} {E E' : ε → Prop} {p q : Prog ε σ α}
  {s s' : σ} {a : α}

/-- The run from `s` returns with `Q`, or stops with `E`. -/
def Spec (p : Prog ε σ α) (s : σ) (Q : α → σ → Prop) (E : ε → Prop) : Prop :=
  match p.run s with
  | .ok (a, s') => Q a s'
  | .error e => E e

theorem spec_pure (h : Q a s) : (pure a : Prog ε σ α).Spec s Q E := h

theorem spec_gets {f : σ → α} (h : Q (f s) s) : (gets f : Prog ε σ α).Spec s Q E := h

theorem spec_modify {f : σ → σ} {Q : Unit → σ → Prop} (h : Q () (f s)) :
    (modify f : Prog ε σ Unit).Spec s Q E := h

/-- **Sequence**: the rest has its postcondition from every state that the first statement returns
in. -/
theorem Spec.bind {f : α → Prog ε σ β} {R : β → σ → Prop}
    (h : p.Spec s (fun a s' => (f a).Spec s' R E) E) : (p >>= f).Spec s R E := by
  unfold Spec at h ⊢
  cases hp : p.run s with
  | error e =>
      rw [hp] at h
      have hrun : (p >>= f).run s = .error e := by
        show (match p.run s with | .ok (a, s') => f a s' | .error e => .error e) = _
        rw [hp]
      rw [hrun]
      exact h
  | ok r =>
      rw [hp] at h
      rw [run_bind_ok hp]
      exact h

/-- A statement that is known to return. -/
theorem Spec.bind_ok {f : α → Prog ε σ β} {R : β → σ → Prop} (hp : p.run s = .ok (a, s'))
    (h : (f a).Spec s' R E) : (p >>= f).Spec s R E := by
  rw [Spec, run_bind_ok hp]
  exact h

theorem Spec.ite {c : Prop} [Decidable c] (hp : c → p.Spec s Q E) (hq : ¬c → q.Spec s Q E) :
    (if c then p else q).Spec s Q E := by
  split
  next h => exact hp h
  next h => exact hq h

/-- **Consequence**: postconditions may be weakened. -/
theorem Spec.mono (h : p.Spec s Q E) (hQ : ∀ a s', Q a s' → Q' a s') (hE : ∀ e, E e → E' e) :
    p.Spec s Q' E' := by
  unfold Spec at h ⊢
  cases hp : p.run s with
  | error e =>
      rw [hp] at h
      exact hE e h
  | ok r =>
      rw [hp] at h
      exact hQ r.1 r.2 h

/-- The postcondition may speak of the run. -/
theorem Spec.with_run (h : p.Spec s Q E) :
    p.Spec s (fun a s' => Q a s' ∧ p.run s = .ok (a, s')) E := by
  unfold Spec at h ⊢
  cases hp : p.run s with
  | error e =>
      rw [hp] at h
      exact h
  | ok r =>
      rw [hp] at h
      exact ⟨h, rfl⟩

/-- What a run that returned satisfies. -/
theorem Spec.of_ok (h : p.Spec s Q E) (hp : p.run s = .ok (a, s')) : Q a s' := by
  rw [Spec, hp] at h
  exact h

/-- What a run that stopped satisfies. -/
theorem Spec.of_error {e : ε} (h : p.Spec s Q E) (hp : p.run s = .error e) : E e := by
  rw [Spec, hp] at h
  exact h

/-- A program that never stops returns with its postcondition. -/
theorem Spec.ends (h : p.Spec s Q fun _ => False) : p.Ends s Q := by
  cases hp : p.run s with
  | error e => exact (h.of_error hp).elim
  | ok r => exact ⟨r.1, r.2, hp, h.of_ok hp⟩

end OsProjects.Prog
