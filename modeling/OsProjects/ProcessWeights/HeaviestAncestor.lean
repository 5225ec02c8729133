import Mathlib.Algebra.Order.Group.Int
import Mathlib.Logic.Function.Iterate
import OsProjects.Lib.FirstMax
import OsProjects.ProcessWeights.Tasks

/-! # The heaviest ancestor

`sys_get_heaviest_ancestor` goes up to the first task with pid 0.  After the task at position `i`
the loop holds the first maximum of the weights up to `i` (`FirstMax`), and it stops behind the last
one, so the weight of the task with pid 0 counts as well. -/

namespace OsProjects.ProcessWeights

variable {tasks : Tasks} {current k m i steps : ℕ}

/-! ### The chain of parents -/

/-- The task `i` steps above `current`. -/
def ancestor (tasks : Tasks) (current i : ℕ) : ℕ := (fun a => (tasks a).parent)^[i] current

theorem ancestor_succ (tasks : Tasks) (current i : ℕ) :
    ancestor tasks current (i + 1) = (tasks (ancestor tasks current i)).parent :=
  Function.iterate_succ_apply' _ _ _

/-- Its weight. -/
def chainWeight (tasks : Tasks) (current i : ℕ) : ℤ :=
  (tasks (ancestor tasks current i)).weight.toInt

/-- The position that the body of the loop chooses. -/
def heavier (tasks : Tasks) (current i m : ℕ) : ℕ :=
  if (tasks (ancestor tasks current i)).weight > (tasks (ancestor tasks current m)).weight then i
  else m

theorem heavier_firstMax (h : FirstMax (chainWeight tasks current) (i - 1) m) :
    FirstMax (chainWeight tasks current) i (heavier tasks current i m) := by
  have hgt : (tasks (ancestor tasks current i)).weight > (tasks (ancestor tasks current m)).weight ↔
      chainWeight tasks current m < chainWeight tasks current i := Int32.lt_iff_toInt_lt
  unfold heavier
  cases i with
  | zero =>
      obtain rfl := Nat.le_zero.mp h.le
      rw [ite_self]
      exact h
  | succ i =>
      split
      next hw => exact h.replace (hgt.mp hw)
      next hw => exact h.keep (not_lt.mp (mt hgt.mpr hw))

theorem heaviestLoop_succ (tasks : Tasks) (current steps i m : ℕ) :
    heaviestLoop tasks (steps + 1) (ancestor tasks current i)
        (tasks (ancestor tasks current m)).weight (tasks (ancestor tasks current m)).pid =
      if (tasks (ancestor tasks current i)).pid ≠ 0 then
        heaviestLoop tasks steps (ancestor tasks current (i + 1))
          (tasks (ancestor tasks current (heavier tasks current i m))).weight
          (tasks (ancestor tasks current (heavier tasks current i m))).pid
      else some (tasks (ancestor tasks current (heavier tasks current i m))).pid := by
  rw [heaviestLoop, ancestor_succ]
  unfold heavier
  split_ifs <;> rfl

/-- **The loop** from position `i` on. -/
theorem heaviestLoop_firstMax (hk : (tasks (ancestor tasks current k)).pid = 0)
    (hlt : ∀ j < k, (tasks (ancestor tasks current j)).pid ≠ 0) (hi : i ≤ k) (hsteps : k < i + steps)
    (hm : FirstMax (chainWeight tasks current) (i - 1) m) :
    ∃ m', FirstMax (chainWeight tasks current) k m' ∧
      heaviestLoop tasks steps (ancestor tasks current i) (tasks (ancestor tasks current m)).weight
        (tasks (ancestor tasks current m)).pid = some (tasks (ancestor tasks current m')).pid := by
  induction steps generalizing i m with
  | zero => omega
  | succ steps ih =>
      rw [heaviestLoop_succ]
      have hm' := heavier_firstMax hm
      obtain rfl | hik := hi.eq_or_lt
      · -- the task with pid 0 was the last one
        rw [if_neg (not_not.mpr hk)]
        exact ⟨_, hm', rfl⟩
      · rw [if_pos (hlt i hik)]
        exact ih hik (by omega) hm'

/-- **The heaviest ancestor** of `current`, where `k` is the position of the first task with
pid 0. -/
theorem sysGetHeaviestAncestor_firstMax (hk : (tasks (ancestor tasks current k)).pid = 0)
    (hlt : ∀ j < k, (tasks (ancestor tasks current j)).pid ≠ 0) :
    ∃ m, FirstMax (chainWeight tasks current) k m ∧
      (∀ steps > k, sysGetHeaviestAncestor tasks steps current =
        some (tasks (ancestor tasks current m)).pid) ∧
      ((∀ i ≤ k, 0 ≤ chainWeight tasks current i) → chainWeight tasks current k = 0 →
        (tasks (ancestor tasks current m)).pid = 0 → (tasks current).pid = 0) := by
  have hloop : ∀ steps > k, ∃ m, FirstMax (chainWeight tasks current) k m ∧
      sysGetHeaviestAncestor tasks steps current = some (tasks (ancestor tasks current m)).pid := by
    intro steps hsteps
    exact heaviestLoop_firstMax (i := 0) hk hlt (Nat.zero_le k) (by omega) (.zero _)
  obtain ⟨m, hm, -⟩ := hloop (k + 1) (Nat.lt_succ_self k)
  refine ⟨m, hm, fun steps hsteps => ?_, fun hpos hzero hpid => ?_⟩
  · obtain ⟨m', hm', hr⟩ := hloop steps hsteps
    rw [hr, hm.unique hm']
  · -- pid 0 stands only at the end, and its weight 0 is no more than what is in front of it
    obtain hmk | rfl := hm.le.lt_or_eq
    · exact absurd hpid (hlt m hmk)
    · obtain rfl | hm₀ := Nat.eq_zero_or_pos m
      · exact hk
      · have := hm.first 0 hm₀
        rw [hzero] at this
        exact absurd this (not_lt.mpr (hpos 0 (Nat.zero_le m)))

/-- A task with a heavier parent, whose parent is the first task. -/
def heirs : Tasks := table [initTask 0, { pid := 1, weight := 9, parent := 0, children := [2] },
  { pid := 2, weight := 5, parent := 1, children := [] }]

theorem sysGetHeaviestAncestor_firstMax_heirs :
    ∃ m, FirstMax (chainWeight heirs 2) 2 m ∧
      (∀ steps > 2, sysGetHeaviestAncestor heirs steps 2 = some (heirs (ancestor heirs 2 m)).pid) ∧
      ((∀ i ≤ 2, 0 ≤ chainWeight heirs 2 i) → chainWeight heirs 2 2 = 0 →
        (heirs (ancestor heirs 2 m)).pid = 0 → (heirs 2).pid = 0) :=
  sysGetHeaviestAncestor_firstMax (by decide) (by decide)

end OsProjects.ProcessWeights
