import Mathlib.Algebra.BigOperators.Group.Finset.Basic
import Mathlib.Logic.Relation

/-! # Finite trees given by lists of children

Nodes of any type, with a list of children for each.  `FiniteTree children root` says that what can
be reached from `root` is a finite tree; a property of trees is proved by `FiniteTree.induction`.
`LeafSum` is the sum of a function over the leaves below a node, the leaves being a set, and
`LeafSum.leaf` and `LeafSum.node` compute it along the tree. -/

namespace OsProjects

variable {α M : Type} {children children' : α → List α} {root a b b' c : α}

/-- `b` is `a` or a descendant of it. -/
def Below (children : α → List α) : α → α → Prop :=
  Relation.ReflTransGen fun a b => b ∈ children a

/-- What is below `root` is a finite tree: there is no infinite path down, and no node is twice a
child. -/
structure FiniteTree (children : α → List α) (root : α) : Prop where
  acc : Acc (fun b a => b ∈ children a) root
  nodup : ∀ a, Below children root a → (children a).Nodup
  parent : ∀ a a' b, Below children root a → Below children root a' → b ∈ children a →
    b ∈ children a' → a = a'

namespace FiniteTree

theorem child (h : FiniteTree children a) (hb : b ∈ children a) : FiniteTree children b where
  acc := h.acc.inv hb
  nodup c hc := h.nodup c (hc.head hb)
  parent c c' d hc hc' := h.parent c c' d (hc.head hb) (hc'.head hb)

/-- Children of smaller rank that know their parent. -/
theorem of_rank (rank : α → ℕ) (up : α → α) (hnodup : ∀ a, (children a).Nodup)
    (h : ∀ a, ∀ b ∈ children a, rank b < rank a ∧ up b = a) (root : α) :
    FiniteTree children root where
  acc := by
    have hsub : Subrelation (fun b a => b ∈ children a) (InvImage (· < ·) rank) :=
      fun hb => (h _ _ hb).1
    exact (hsub.wf (InvImage.wf rank wellFounded_lt)).apply root
  nodup a _ := hnodup a
  parent a a' b _ _ hb hb' := (h a b hb).2.symm.trans (h a' b hb').2

/-- **Induction rule.** -/
theorem induction {motive : α → Prop} (h : FiniteTree children root)
    (node : ∀ a, FiniteTree children a → (∀ b ∈ children a, motive b) → motive a) :
    motive root := by
  have hacc := h.acc
  induction hacc with
  | intro a _ ih => exact node a h fun b hb => ih b hb (h.child hb)

theorem not_below (h : FiniteTree children a) (hb : b ∈ children a) : ¬Below children b a := by
  suffices ∀ b ∈ children a, ¬Below children b a from this b hb
  refine h.induction (motive := fun a => ∀ b ∈ children a, ¬Below children b a) ?_
  intro a _ ih b hb hba
  -- a cycle through `a` is one through its child
  obtain rfl | ⟨c, hbc, hca⟩ := Relation.ReflTransGen.cases_head hba
  · exact ih b hb b hb .refl
  · exact ih b hb c hbc (hca.tail hb)

/-- The subtrees of two children have no node in common. -/
theorem eq_of_below (h : FiniteTree children a) (hb : b ∈ children a) (hb' : b' ∈ children a)
    (hc : Below children b c) (hc' : Below children b' c) : b = b' := by
  induction hc with
  | refl =>
      obtain rfl | ⟨d, hd, hbd⟩ := Relation.ReflTransGen.cases_tail hc'
      · rfl
      · obtain rfl := h.parent d a b (hd.head hb') .refl hbd hb
        exact absurd hd (h.not_below hb')
  | @tail d c hd hcd ih =>
      obtain rfl | ⟨e, he, hce⟩ := Relation.ReflTransGen.cases_tail hc'
      · obtain rfl := h.parent d a c (hd.head hb) .refl hcd hb'
        exact absurd hd (h.not_below hb)
      · obtain rfl := h.parent e d c (he.head hb') (hd.head hb) hce hcd
        exact ih he

end FiniteTree

/-! ### Leaves -/

/-- `b` is a leaf below `a`. -/
def Leaf (children : α → List α) (a b : α) : Prop := Below children a b ∧ children b = []

theorem leaf_iff_child (h : children a ≠ []) :
    Leaf children a b ↔ ∃ c ∈ children a, Leaf children c b := by
  constructor
  · rintro ⟨hb, hleaf⟩
    obtain rfl | ⟨c, hc, hcb⟩ := Relation.ReflTransGen.cases_head hb
    · exact absurd hleaf h
    · exact ⟨c, hc, hcb, hleaf⟩
  · rintro ⟨c, hc, hcb, hleaf⟩
    exact ⟨hcb.head hc, hleaf⟩

theorem leaf_iff_eq (h : children a = []) : Leaf children a b ↔ b = a := by
  constructor
  · rintro ⟨hb, -⟩
    obtain rfl | ⟨c, hc, -⟩ := Relation.ReflTransGen.cases_head hb
    · rfl
    · rw [h] at hc
      cases hc
  · rintro rfl
    exact ⟨.refl, h⟩

variable [AddCommMonoid M] {f g : α → M} {s s' : M}

/-- `s` is the sum of `f` over the leaves below `a`. -/
def LeafSum (children : α → List α) (f : α → M) (a : α) (s : M) : Prop :=
  ∃ leaves : Finset α, (∀ b, b ∈ leaves ↔ Leaf children a b) ∧ s = ∑ b ∈ leaves, f b

namespace LeafSum

theorem unique (h : LeafSum children f a s) (h' : LeafSum children f a s') : s = s' := by
  obtain ⟨leaves, hl, rfl⟩ := h
  obtain ⟨leaves', hl', rfl⟩ := h'
  have : leaves = leaves' := Finset.ext fun b => (hl b).trans (hl' b).symm
  rw [this]

theorem leaf (h : children a = []) : LeafSum children f a (f a) := by
  refine ⟨{a}, fun b => ?_, (Finset.sum_singleton f a).symm⟩
  rw [Finset.mem_singleton, leaf_iff_eq h]

theorem node (h : FiniteTree children a) (hne : children a ≠ [])
    (hsum : ∀ b ∈ children a, LeafSum children f b (g b)) :
    LeafSum children f a ((children a).map g).sum := by
  classical
  choose! leaves hleaves hg using hsum
  refine ⟨(children a).toFinset.biUnion leaves, fun b => ?_, ?_⟩
  · rw [Finset.mem_biUnion, leaf_iff_child hne]
    constructor
    · rintro ⟨c, hc, hb⟩
      have hc := List.mem_toFinset.mp hc
      exact ⟨c, hc, (hleaves c hc b).mp hb⟩
    · rintro ⟨c, hc, hb⟩
      exact ⟨c, List.mem_toFinset.mpr hc, (hleaves c hc b).mpr hb⟩
  · have hdisj : ((children a).toFinset : Set α).PairwiseDisjoint leaves := by
      intro c hc d hd hcd
      refine Finset.disjoint_left.mpr fun b hb hb' => hcd ?_
      have hc := List.mem_toFinset.mp (Finset.mem_coe.mp hc)
      have hd := List.mem_toFinset.mp (Finset.mem_coe.mp hd)
      exact h.eq_of_below hc hd ((hleaves c hc b).mp hb).1 ((hleaves d hd b).mp hb').1
    rw [Finset.sum_biUnion hdisj, ← List.sum_toFinset _ (h.nodup a .refl)]
    exact Finset.sum_congr rfl fun c hc => hg c (List.mem_toFinset.mp hc)

end LeafSum

theorem FiniteTree.exists_leafSum (h : FiniteTree children a) (f : α → M) :
    ∃ s, LeafSum children f a s := by
  refine h.induction (motive := fun a => ∃ s, LeafSum children f a s) fun a ha ih => ?_
  by_cases hne : children a = []
  · exact ⟨_, .leaf hne⟩
  · choose! g hg using ih
    exact ⟨_, .node ha hne hg⟩

/-! ### The order of the children -/

/-- The same children, in another order. -/
def Reordered (children children' : α → List α) : Prop := ∀ a, (children' a).Perm (children a)

namespace Reordered

theorem mem_iff (h : Reordered children children') : b ∈ children' a ↔ b ∈ children a :=
  (h a).mem_iff

theorem below_iff (h : Reordered children children') :
    Below children' a b ↔ Below children a b := by
  have : (fun a b => b ∈ children' a) = fun a b => b ∈ children a :=
    funext fun a => funext fun b => propext h.mem_iff
  rw [Below, Below, this]

theorem nil_iff (h : Reordered children children') : children' a = [] ↔ children a = [] :=
  ⟨fun h' => List.perm_nil.mp (h' ▸ (h a).symm), fun h' => List.perm_nil.mp (h' ▸ h a)⟩

theorem leaf_iff (h : Reordered children children') :
    Leaf children' a b ↔ Leaf children a b := and_congr h.below_iff h.nil_iff

theorem finiteTree (h : Reordered children children') (ht : FiniteTree children root) :
    FiniteTree children' root where
  acc := by
    have : (fun b a => b ∈ children' a) = fun b a => b ∈ children a :=
      funext fun b => funext fun a => propext h.mem_iff
    rw [this]
    exact ht.acc
  nodup a ha := (h a).nodup_iff.mpr (ht.nodup a (h.below_iff.mp ha))
  parent a a' b ha ha' hb hb' :=
    ht.parent a a' b (h.below_iff.mp ha) (h.below_iff.mp ha') (h.mem_iff.mp hb) (h.mem_iff.mp hb')

/-- The sum depends neither on the order nor on the values at inner nodes. -/
theorem leafSum (h : Reordered children children') (hf : ∀ b, Leaf children a b → g b = f b)
    (hs : LeafSum children f a s) : LeafSum children' g a s := by
  obtain ⟨leaves, hl, rfl⟩ := hs
  refine ⟨leaves, fun b => (hl b).trans h.leaf_iff.symm, ?_⟩
  exact Finset.sum_congr rfl fun b hb => (hf b ((hl b).mp hb)).symm

end Reordered

end OsProjects
