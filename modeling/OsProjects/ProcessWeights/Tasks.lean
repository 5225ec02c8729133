import Mathlib.Data.Int.Notation
import Mathlib.Logic.Function.Basic
import Mathlib.Tactic.Common

/-! # Weights of processes

The system calls of `hw2.c`.  A task is known by its address, and a table has what stands there;
`children` are the tasks that `list_for_each` passes over.  The recursion through the children and
the loop through the parents have a bound on their depth; `none` says that it was too small. -/

namespace OsProjects.ProcessWeights

/-- `struct task_struct`, what the calls use of it. -/
structure TaskStruct where
  pid : ℤ
  weight : Int32
  parent : ℕ
  children : List ℕ
deriving DecidableEq, Repr

abbrev Tasks := ℕ → TaskStruct

def EINVAL : ℤ := 22
def ECHILD : ℤ := 10

/-- `INIT_TASK` -/
def initTask (tsk : ℕ) : TaskStruct where
  pid := 0
  weight := 0
  parent := tsk
  children := []

def sysSetWeight (tasks : Tasks) (current : ℕ) (weight : Int32) : ℤ × Tasks :=
  if weight < 0 then (-EINVAL, tasks)
  else (0, Function.update tasks current { tasks current with weight := weight })

/-- The loop over a list of children: `sum`, and whether there was a child. -/
def sumOver (f : ℕ → Option Int32) (list : List ℕ) : Option (Int32 × Bool) :=
  list.foldlM (fun p task => (f task).map fun weight => (p.1 + weight, true)) (0, false)

def traverseChildrenSumWeight (tasks : Tasks) : ℕ → ℕ → Option Int32
  | 0, _ => none
  | depth + 1, rootTask => do
      let (sum, flag) ← sumOver (traverseChildrenSumWeight tasks depth) (tasks rootTask).children
      if flag then some sum else some (sum + (tasks rootTask).weight)

def sysGetLeafChildrenSum (tasks : Tasks) (depth current : ℕ) : Option ℤ := do
  let (sumWeight, parent) ←
    sumOver (traverseChildrenSumWeight tasks depth) (tasks current).children
  if parent then some sumWeight.toInt else some (-ECHILD)

/-- The `do` loop, with `max_weight` and `max_weight_pid`. -/
def heaviestLoop (tasks : Tasks) : ℕ → ℕ → Int32 → ℤ → Option ℤ
  | 0, _, _, _ => none
  | steps + 1, task, maxWeight, maxWeightPid =>
      let (maxWeight, maxWeightPid) :=
        if (tasks task).weight > maxWeight then ((tasks task).weight, (tasks task).pid)
        else (maxWeight, maxWeightPid)
      if (tasks task).pid ≠ 0 then
        heaviestLoop tasks steps (tasks task).parent maxWeight maxWeightPid
      else some maxWeightPid

def sysGetHeaviestAncestor (tasks : Tasks) (steps current : ℕ) : Option ℤ :=
  heaviestLoop tasks steps current (tasks current).weight (tasks current).pid

/-- The tasks of a list, each at its position. -/
def table (list : List TaskStruct) : Tasks := fun a => list.getD a (initTask a)

theorem table_of_le {list : List TaskStruct} {a : ℕ} (h : list.length ≤ a) :
    table list a = initTask a := by
  rw [table, List.getD_eq_getElem?_getD, List.getElem?_eq_none h, Option.getD_none]

/-! ### The weights that there are -/

/-- A weight that a task can have: that of the first task, or what a call of `sys_set_weight`
leaves.  A new task has the weight of its parent. -/
inductive Obtained : Int32 → Prop
  | init (tsk : ℕ) : Obtained (initTask tsk).weight
  | set (tasks : Tasks) (current : ℕ) (weight : Int32) : Obtained (tasks current).weight →
      Obtained ((sysSetWeight tasks current weight).2 current).weight

theorem obtained_iff {weight : Int32} : Obtained weight ↔ 0 ≤ weight := by
  constructor
  · intro h
    induction h with
    | init tsk => exact Int32.le_refl 0
    | set tasks current weight _ ih =>
        unfold sysSetWeight
        split
        · exact ih
        next h => simpa using h
  · intro h
    have hset := Obtained.set initTask 0 weight (.init 0)
    rw [sysSetWeight, if_neg (by simpa using h)] at hset
    simpa using hset

end OsProjects.ProcessWeights
