import Mathlib.Algebra.Order.Group.Nat

/-! # First maxima

The first position of the largest value in a sequence, as a scan finds it: it keeps its position
(`FirstMax.keep`) or takes the new one (`FirstMax.replace`). -/

namespace OsProjects

/-- `m` is the first position up to `k` with the largest value. -/
structure FirstMax {β : Type} [LinearOrder β] (f : ℕ → β) (k m : ℕ) : Prop where
  le : m ≤ k
  max : ∀ j ≤ k, f j ≤ f m
  first : ∀ j < m, f j < f m

namespace FirstMax

variable {β : Type} [LinearOrder β] {f : ℕ → β} {k m : ℕ}

theorem zero (f : ℕ → β) : FirstMax f 0 0 where
  le := le_rfl
  max j hj := by rw [Nat.le_zero.mp hj]
  first _ hj := absurd hj (Nat.not_lt_zero _)

theorem keep (h : FirstMax f k m) (hle : f (k + 1) ≤ f m) : FirstMax f (k + 1) m where
  le := h.le.trans (Nat.le_succ k)
  max j hj := by
    obtain hj | rfl := Nat.le_succ_iff.mp hj
    · exact h.max j hj
    · exact hle
  first := h.first

theorem replace (h : FirstMax f k m) (hlt : f m < f (k + 1)) : FirstMax f (k + 1) (k + 1) where
  le := le_rfl
  max j hj := by
    obtain hj | rfl := Nat.le_succ_iff.mp hj
    · exact (h.max j hj).trans hlt.le
    · exact le_rfl
  first j hj := (h.max j (Nat.le_of_lt_succ hj)).trans_lt hlt

theorem unique {m' : ℕ} (h : FirstMax f k m) (h' : FirstMax f k m') : m = m' := by
  obtain hlt | rfl | hgt := lt_trichotomy m m'
  · exact absurd (h.max m' h'.le) (not_le.mpr (h'.first m hlt))
  · rfl
  · exact absurd (h'.max m h.le) (not_le.mpr (h.first m' hgt))

end FirstMax

end OsProjects
