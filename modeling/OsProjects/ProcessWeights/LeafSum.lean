import Mathlib.Algebra.BigOperators.Group.List.Basic
import Mathlib.Data.List.MinMax
import OsProjects.Lib.ChildTree
import OsProjects.Lib.SizeT
import OsProjects.ProcessWeights.Tasks

/-! # The sum over the leaves

`sys_get_leaf_children_sum` on a finite tree of processes: the sum of the weights of all descendants
without children, as a 32-bit number.  The tree is traversed once (`traverse_wraps`), by induction on
the tree; how the children are ordered and what inner nodes weigh drops out in the library's
`Reordered.leafSum`. -/

namespace OsProjects.ProcessWeights

variable {tasks tasks' : Tasks} {current a b : ℕ} {v w : Int32} {x y : ℤ}

/-! ### Wrap-around -/

/-- `v` is `x` as a signed number of 32 bits. -/
def Wraps (v : Int32) (x : ℤ) : Prop := v.toInt = x.bmod (2 ^ 32)

theorem Wraps.zero : Wraps 0 0 := Int32.toInt_zero

theorem Wraps.self (v : Int32) : Wraps v v.toInt := (bmod_of_int v.le_toInt v.toInt_lt).symm

theorem Wraps.add (hv : Wraps v x) (hw : Wraps w y) : Wraps (v + w) (x + y) := by
  rw [Wraps] at hv hw ⊢
  rw [Int32.toInt_add, hv, hw, Int.bmod_add_bmod, Int.add_bmod_bmod]

/-! ### The loop over the children -/

/-- **The loop**: what it adds up is the sum of what stands for each child. -/
theorem sumOver_wraps {f : ℕ → Option Int32} {g : ℕ → ℤ} {list : List ℕ}
    (h : ∀ b ∈ list, ∃ v, f b = some v ∧ Wraps v (g b)) :
    ∃ v, sumOver f list = some (v, !list.isEmpty) ∧ Wraps v (list.map g).sum := by
  suffices ∀ (s : Int32) (flag : Bool) (z : ℤ), Wraps s z →
      ∃ v, list.foldlM (fun p task => (f task).map fun weight => (p.1 + weight, true)) (s, flag) =
        some (v, flag || !list.isEmpty) ∧ Wraps v (z + (list.map g).sum) by
    have := this 0 false 0 .zero
    rwa [Bool.false_or, zero_add] at this
  induction list with
  | nil =>
      intro s flag z hs
      exact ⟨s, by simp, by simpa using hs⟩
  | cons b list ih =>
      intro s flag z hs
      obtain ⟨⟨v, hv, hvg⟩, h'⟩ := List.forall_mem_cons.mp h
      obtain ⟨r, hr, hrg⟩ := ih h' (s + v) true (z + g b) (hs.add hvg)
      refine ⟨r, ?_, ?_⟩
      · rw [List.foldlM_cons, hv]
        simpa using hr
      · rwa [List.map_cons, List.sum_cons, ← add_assoc]

/-! ### The recursion -/

/-- The children of each task. -/
abbrev Tasks.children (tasks : Tasks) (a : ℕ) : List ℕ := (tasks a).children

/-- In the order in which they were created, tasks are a tree. -/
theorem table_finiteTree {list : List TaskStruct}
    (h : ∀ a < list.length, (table list a).children.Nodup ∧
      ∀ b ∈ (table list a).children, a < b ∧ (table list b).parent = a) (root : ℕ) :
    FiniteTree (table list).children root := by
  have hlt : ∀ a, list.length ≤ a → (table list a).children = [] := by
    intro a ha
    rw [table_of_le ha, initTask]
  refine .of_rank (fun a => list.length - a) (fun b => (table list b).parent) ?_ ?_ root
  · intro a
    by_cases ha : a < list.length
    · exact (h a ha).1
    · rw [Tasks.children, hlt a (not_lt.mp ha)]
      exact List.nodup_nil
  · intro a b hb
    by_cases ha : a < list.length
    · obtain ⟨hab, hup⟩ := (h a ha).2 b hb
      exact ⟨by omega, hup⟩
    · rw [Tasks.children, hlt a (not_lt.mp ha)] at hb
      cases hb

/-- The sum `x` of the weights of the leaves below `a`. -/
abbrev Tasks.LeafSum (tasks : Tasks) (a : ℕ) (x : ℤ) : Prop :=
  OsProjects.LeafSum tasks.children (fun b => (tasks b).weight.toInt) a x

theorem exists_bound (list : List ℕ) (n : ℕ → ℕ) : ∃ N, ∀ b ∈ list, n b ≤ N :=
  ⟨(list.map n).foldr max ⊥, fun _ hb => List.le_max_of_le (List.mem_map_of_mem hb) le_rfl⟩

/-- **`traverse_children_sum_weight`** with enough depth is the sum over the leaves. -/
theorem traverse_wraps (h : FiniteTree tasks.children a) :
    ∃ x, tasks.LeafSum a x ∧ ∃ n, ∀ depth ≥ n, ∃ v,
      traverseChildrenSumWeight tasks depth a = some v ∧ Wraps v x := by
  refine h.induction (motive := fun a => ∃ x, tasks.LeafSum a x ∧ ∃ n, ∀ depth ≥ n, ∃ v,
    traverseChildrenSumWeight tasks depth a = some v ∧ Wraps v x) ?_
  intro a ha ih
  choose! g hg n hn using ih
  obtain ⟨N, hN⟩ := exists_bound (tasks a).children n
  -- one more level than the deepest child needs
  have hloop : ∀ depth ≥ N, ∃ v,
      sumOver (traverseChildrenSumWeight tasks depth) (tasks a).children =
        some (v, !(tasks a).children.isEmpty) ∧ Wraps v ((tasks a).children.map g).sum :=
    fun depth hd => sumOver_wraps fun b hb => hn b hb depth ((hN b hb).trans hd)
  by_cases hne : (tasks a).children = []
  · refine ⟨_, .leaf hne, N + 1, fun depth hd => ?_⟩
    obtain ⟨depth, rfl⟩ : ∃ d, depth = d + 1 := ⟨depth - 1, by omega⟩
    refine ⟨0 + (tasks a).weight, ?_, ?_⟩
    · simp [traverseChildrenSumWeight, hne, sumOver]
    · simpa using Wraps.zero.add (.self (tasks a).weight)
  · refine ⟨_, .node ha hne hg, N + 1, fun depth hd => ?_⟩
    obtain ⟨depth, rfl⟩ : ∃ d, depth = d + 1 := ⟨depth - 1, by omega⟩
    obtain ⟨v, hv, hvg⟩ := hloop depth (by omega)
    exact ⟨v, by simp [traverseChildrenSumWeight, hv, hne], hvg⟩

/-- The call returns `r` whenever the recursion may be deep enough. -/
def LeafChildrenSum (tasks : Tasks) (current : ℕ) (r : ℤ) : Prop :=
  ∃ n, ∀ depth ≥ n, sysGetLeafChildrenSum tasks depth current = some r

theorem LeafChildrenSum.unique {r r' : ℤ} (h : LeafChildrenSum tasks current r)
    (h' : LeafChildrenSum tasks current r') : r = r' := by
  obtain ⟨n, hn⟩ := h
  obtain ⟨n', hn'⟩ := h'
  have := (hn (max n n') (le_max_left _ _)).symm.trans (hn' (max n n') (le_max_right _ _))
  exact Option.some.inj this

theorem leafChildrenSum_none (h : (tasks current).children = []) :
    LeafChildrenSum tasks current (-ECHILD) :=
  ⟨0, fun depth _ => by simp [sysGetLeafChildrenSum, h, sumOver]⟩

theorem leafChildrenSum_some (htree : FiniteTree tasks.children current)
    (hparent : (tasks current).children ≠ []) (hx : tasks.LeafSum current x) :
    LeafChildrenSum tasks current (x.bmod (2 ^ 32)) := by
  have ih : ∀ b ∈ (tasks current).children, ∃ x, tasks.LeafSum b x ∧ ∃ n, ∀ depth ≥ n, ∃ v,
      traverseChildrenSumWeight tasks depth b = some v ∧ Wraps v x :=
    fun b hb => traverse_wraps (htree.child hb)
  choose! g hg n hn using ih
  obtain ⟨N, hN⟩ := exists_bound (tasks current).children n
  obtain rfl := hx.unique (.node htree hparent hg)
  refine ⟨N, fun depth hd => ?_⟩
  obtain ⟨v, hv, hvg⟩ := sumOver_wraps fun b hb => hn b hb depth ((hN b hb).trans hd)
  rw [← hvg]
  simp [sysGetLeafChildrenSum, hv, hparent]

/-- The same children in any order, and the same weights where there are none. -/
structure SameLeaves (tasks tasks' : Tasks) : Prop where
  children : Reordered tasks.children tasks'.children
  weight : ∀ b, (tasks b).children = [] → (tasks' b).weight = (tasks b).weight

/-- **The leaf sum is correct**: it is the sum of the weights of the descendants that have no
children, and nothing else of the table has a part in it. -/
theorem sysGetLeafChildrenSum_leaves (htree : FiniteTree tasks.children current)
    (hparent : (tasks current).children ≠ []) :
    ∃ leaves : Finset ℕ, (∀ b, b ∈ leaves ↔ Leaf tasks.children current b) ∧
      ∀ tasks', SameLeaves tasks tasks' → LeafChildrenSum tasks' current
        ((∑ b ∈ leaves, (tasks b).weight.toInt).bmod (2 ^ 32)) := by
  obtain ⟨x, leaves, hleaves, rfl⟩ :=
    htree.exists_leafSum (fun b => (tasks b).weight.toInt)
  refine ⟨leaves, hleaves, fun tasks' h => ?_⟩
  apply leafChildrenSum_some (h.children.finiteTree htree)
  · exact fun h' => hparent (h.children.nil_iff.mp h')
  · apply h.children.leafSum (f := fun b => (tasks b).weight.toInt) (fun b hb => ?_)
      ⟨leaves, hleaves, rfl⟩
    rw [h.weight b hb.2]

/-- A task with a child that has two children, and one that has none. -/
def family : Tasks := table [initTask 0, { pid := 1, weight := 7, parent := 0, children := [2, 3] },
  { pid := 2, weight := 100, parent := 1, children := [4, 5] },
  { pid := 3, weight := 20, parent := 1, children := [] },
  { pid := 4, weight := 3, parent := 2, children := [] },
  { pid := 5, weight := 4, parent := 2, children := [] }]

theorem sysGetLeafChildrenSum_leaves_family :
    ∃ leaves : Finset ℕ, (∀ b, b ∈ leaves ↔ Leaf family.children 1 b) ∧
      ∀ tasks', SameLeaves family tasks' → LeafChildrenSum tasks' 1
        ((∑ b ∈ leaves, (family b).weight.toInt).bmod (2 ^ 32)) :=
  sysGetLeafChildrenSum_leaves (table_finiteTree (by decide) 1) (by decide)

/-! ### The error code -/

theorem bmod_neg_iff (x : ℤ) : x.bmod (2 ^ 32) < 0 ↔ ¬x % 2 ^ 32 < 2 ^ 31 := by
  rw [Int.bmod_def]
  norm_num
  omega

/-- **When a negative value means that there are no children**: exactly if the sum, modulo
`2 ^ 32`, is below `2 ^ 31`. -/
theorem sysGetLeafChildrenSum_unambiguous (htree : FiniteTree tasks.children current) :
    ∃ (leaves : Finset ℕ) (r : ℤ), (∀ b, b ∈ leaves ↔ Leaf tasks.children current b) ∧
      LeafChildrenSum tasks current r ∧
      ((r < 0 ↔ (tasks current).children = []) ∧
          ((tasks current).children = [] → r = -ECHILD) ↔
        (tasks current).children = [] ∨
          (∑ b ∈ leaves, (tasks b).weight.toInt) % 2 ^ 32 < 2 ^ 31) := by
  obtain ⟨x, leaves, hleaves, rfl⟩ :=
    htree.exists_leafSum (fun b => (tasks b).weight.toInt)
  refine ⟨leaves, ?_⟩
  by_cases hparent : (tasks current).children = []
  · refine ⟨-ECHILD, hleaves, leafChildrenSum_none hparent, ?_⟩
    simp [hparent, ECHILD]
  · refine ⟨_, hleaves, leafChildrenSum_some htree hparent ⟨leaves, hleaves, rfl⟩, ?_⟩
    rw [bmod_neg_iff]
    simp [hparent]

/-- A task with two children whose weights add up to `2 ^ 31`. -/
def heavyPair : Tasks := table [initTask 0, { pid := 1, weight := 0, parent := 0, children := [2, 3] },
  { pid := 2, weight := 2147483647, parent := 1, children := [] },
  { pid := 3, weight := 1, parent := 1, children := [] }]

theorem heavyPair_finiteTree : FiniteTree heavyPair.children 1 := table_finiteTree (by decide) 1

theorem sysGetLeafChildrenSum_unambiguous_heavyPair :
    ∃ (leaves : Finset ℕ) (r : ℤ), (∀ b, b ∈ leaves ↔ Leaf heavyPair.children 1 b) ∧
      LeafChildrenSum heavyPair 1 r ∧
      ((r < 0 ↔ (heavyPair 1).children = []) ∧ ((heavyPair 1).children = [] → r = -ECHILD) ↔
        (heavyPair 1).children = [] ∨
          (∑ b ∈ leaves, (heavyPair b).weight.toInt) % 2 ^ 32 < 2 ^ 31) :=
  sysGetLeafChildrenSum_unambiguous heavyPair_finiteTree

theorem obtained_heavyPair (b : ℕ) : Obtained (heavyPair b).weight := by
  apply obtained_iff.mpr
  by_cases hb : b < 4
  · have hall : ∀ b < 4, 0 ≤ (heavyPair b).weight := by decide
    exact hall b hb
  · rw [heavyPair, table_of_le (by simpa using hb)]
    exact Int32.le_refl 0

/-- Two children of admissible weights, and the value is negative. -/
theorem sysGetLeafChildrenSum_negative :
    FiniteTree heavyPair.children 1 ∧ (∀ b, Obtained (heavyPair b).weight) ∧
      (heavyPair 1).children ≠ [] ∧ LeafChildrenSum heavyPair 1 (-2147483648) := by
  refine ⟨heavyPair_finiteTree, obtained_heavyPair, by decide, 1, fun depth hd => ?_⟩
  obtain ⟨depth, rfl⟩ : ∃ d, depth = d + 1 := ⟨depth - 1, by omega⟩
  rfl

end OsProjects.ProcessWeights
