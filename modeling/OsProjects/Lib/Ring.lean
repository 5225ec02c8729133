import Mathlib.Data.List.Basic
import Mathlib.Data.List.Range
import Mathlib.Data.Nat.ModEq
import Mathlib.Logic.Function.Basic
import Mathlib.Tactic.Common

/-! # Ring arrays

An array of `cap` cells used as a ring.  `ring cap items head n` lists the `n` cells from
`head` on, wrapping around at `cap`.  As long as `n ≤ cap` these cells are distinct, so a
store behind the last one appends (`ring_push`) and a step of `head` drops the first one
(`ring_pop`). -/

namespace OsProjects

variable {α : Type} {cap head n i j : ℕ} {items items' : ℕ → α}

/-- The `n` cells from `head` on. -/
def ring (cap : ℕ) (items : ℕ → α) (head n : ℕ) : List α :=
  (List.range n).map fun i => items ((head + i) % cap)

@[simp] theorem ring_zero (cap : ℕ) (items : ℕ → α) (head : ℕ) : ring cap items head 0 = [] := rfl

@[simp] theorem ring_length (cap : ℕ) (items : ℕ → α) (head n : ℕ) :
    (ring cap items head n).length = n := by
  simp [ring]

/-- Cells at different distances from `head` are different. -/
theorem ring_index_inj (hi : i < cap) (hj : j < cap) (h : (head + i) % cap = (head + j) % cap) :
    i = j := by
  have := Nat.ModEq.add_left_cancel' head h
  rwa [Nat.ModEq, Nat.mod_eq_of_lt hi, Nat.mod_eq_of_lt hj] at this

theorem ring_congr (h : ∀ i < n, items' ((head + i) % cap) = items ((head + i) % cap)) :
    ring cap items' head n = ring cap items head n :=
  List.map_congr_left fun i hi => h i (List.mem_range.mp hi)

theorem ring_succ (cap : ℕ) (items : ℕ → α) (head n : ℕ) :
    ring cap items head (n + 1) = ring cap items head n ++ [items ((head + n) % cap)] := by
  simp [ring, List.range_succ]

/-- The first cell and the rest. -/
theorem ring_pop (cap : ℕ) (items : ℕ → α) (head n : ℕ) :
    ring cap items head (n + 1) =
      items (head % cap) :: ring cap items ((head + 1) % cap) n := by
  simp only [ring, List.range_succ_eq_map, List.map_cons, List.map_map, Nat.add_zero]
  congr 1
  refine List.map_congr_left fun i _ => ?_
  simp only [Function.comp, Nat.mod_add_mod]
  congr 2
  omega

/-- A store behind the last cell. -/
theorem ring_push (hn : n < cap) (x : α) :
    ring cap (Function.update items ((head + n) % cap) x) head (n + 1) =
      ring cap items head n ++ [x] := by
  rw [ring_succ, Function.update_self]
  congr 1
  refine ring_congr fun i hi => Function.update_of_ne ?_ _ _
  intro h
  have := ring_index_inj (by omega) hn h
  omega

end OsProjects
