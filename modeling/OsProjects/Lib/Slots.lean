import Mathlib.Data.List.FinRange
import Mathlib.Logic.Function.Basic
import Mathlib.Tactic.Common

/-! # Families with one changed member

A family over `Fin n` in which one member is replaced: how the list of what the members hold
(`filterMap`) and the number of members with a property (`countP`) change. -/

namespace OsProjects

variable {n : ℕ} {α β : Type}

/-- The place of a member in the list of all indices. -/
theorem finRange_split (i : Fin n) :
    ∃ l₁ l₂, List.finRange n = l₁ ++ i :: l₂ ∧ i ∉ l₁ ∧ i ∉ l₂ := by
  obtain ⟨l₁, l₂, h⟩ := List.append_of_mem (List.mem_finRange i)
  have hd : (l₁ ++ i :: l₂).Nodup := h ▸ List.nodup_finRange n
  rw [List.nodup_append, List.nodup_cons] at hd
  exact ⟨l₁, l₂, h, fun hi => hd.2.2 i hi i (by simp) rfl, hd.2.1.1⟩

/-- What the members hold, after member `i` was replaced. -/
theorem filterMap_update_perm (f : Fin n → α) (g : α → Option β) (i : Fin n) (a : α) :
    (((List.finRange n).filterMap fun j => g (Function.update f i a j)) ++ (g (f i)).toList).Perm
      (((List.finRange n).filterMap fun j => g (f j)) ++ (g a).toList) := by
  obtain ⟨l₁, l₂, h, h₁, h₂⟩ := finRange_split i
  have hl : ∀ l : List (Fin n), i ∉ l → (l.filterMap fun j => g (Function.update f i a j)) =
      l.filterMap fun j => g (f j) := fun l hi =>
    List.filterMap_congr fun j hj => by rw [Function.update_of_ne fun e => hi (by rwa [← e])]
  have hc : ∀ (f : Fin n → α) (l : List (Fin n)), ((i :: l).filterMap fun j => g (f j)) =
      (g (f i)).toList ++ l.filterMap fun j => g (f j) := fun f l => by
    cases hg : g (f i) <;> simp [hg]
  rw [h, List.filterMap_append, List.filterMap_append, hc, hc, hl l₁ h₁, hl l₂ h₂,
    Function.update_self]
  simp only [List.append_assoc]
  refine List.Perm.append_left _ (List.perm_append_comm.trans ?_)
  rw [← List.append_assoc]
  exact List.perm_append_comm.append_right _

/-- The number of members with a property, after member `i` was replaced. -/
theorem countP_update (f : Fin n → α) (p : α → Bool) (i : Fin n) (a : α) :
    ((List.finRange n).countP fun j => p (Function.update f i a j)) + (if p (f i) then 1 else 0) =
      ((List.finRange n).countP fun j => p (f j)) + if p a then 1 else 0 := by
  obtain ⟨l₁, l₂, h, h₁, h₂⟩ := finRange_split i
  have hl : ∀ l : List (Fin n), i ∉ l → (l.countP fun j => p (Function.update f i a j)) =
      l.countP fun j => p (f j) := fun l hi =>
    List.countP_congr fun j hj => by rw [Function.update_of_ne fun e => hi (by rwa [← e])]
  rw [h, List.countP_append, List.countP_append, List.countP_cons, List.countP_cons, hl l₁ h₁,
    hl l₂ h₂, Function.update_self]
  omega

end OsProjects
