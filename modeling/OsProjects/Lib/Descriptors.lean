import Mathlib.Data.List.Basic
import Mathlib.Tactic.Common

/-! # Tables of descriptors

The table of a process has a slot for every descriptor below its limit, and in the slot what the
descriptor refers to.  A new descriptor is the lowest one that is free.  The lemmas count the free
slots and say that a descriptor that is opened and closed again leaves no trace. -/

namespace OsProjects

/-- A slot for every descriptor. -/
abbrev Descriptors (δ : Type) := List (Option δ)

namespace Descriptors

variable {δ : Type} {t : Descriptors δ} {fd fd₂ : ℕ} {d d₂ : δ}

/-- What an open descriptor refers to. -/
def lookup (t : Descriptors δ) (fd : ℕ) : Option δ := t[fd]?.join

/-- The lowest free descriptor. -/
def lowest (t : Descriptors δ) : Option ℕ := t.findIdx? Option.isNone

/-- The number of free descriptors. -/
def free (t : Descriptors δ) : ℕ := t.countP Option.isNone

/-- Take the lowest free descriptor for `d`. -/
def alloc (t : Descriptors δ) (d : δ) : Option (ℕ × Descriptors δ) :=
  (lowest t).map fun fd => (fd, t.set fd (some d))

/-- Another descriptor for what `fd` refers to. -/
def dup (t : Descriptors δ) (fd : ℕ) : Option (ℕ × Descriptors δ) := (lookup t fd).bind (alloc t)

/-- `fd₂` refers to what `fd` refers to. -/
def dup2 (t : Descriptors δ) (fd fd₂ : ℕ) : Option (Descriptors δ) :=
  (lookup t fd).bind fun d => if fd₂ < t.length then some (t.set fd₂ (some d)) else none

/-- The descriptor is free again. -/
def close (t : Descriptors δ) (fd : ℕ) : Option (Descriptors δ) :=
  (lookup t fd).map fun _ => t.set fd none

/-- Two new descriptors, the lower one for `d`. -/
def pipe (t : Descriptors δ) (d d₂ : δ) : Option (ℕ × ℕ × Descriptors δ) :=
  (alloc t d).bind fun (fd, t) => (alloc t d₂).map fun (fd₂, t) => (fd, fd₂, t)

/-! ### Slots -/

theorem lookup_eq_some : lookup t fd = some d ↔ t[fd]? = some (some d) := by
  unfold lookup
  cases t[fd]? with
  | none => simp
  | some o => simp

theorem lookup_set (t : Descriptors δ) (fd fd₂ : ℕ) (o : Option δ) :
    lookup (t.set fd o) fd₂ = if fd = fd₂ ∧ fd < t.length then o else lookup t fd₂ := by
  unfold lookup
  rw [List.getElem?_set]
  by_cases h : fd = fd₂
  · subst h
    by_cases hlt : fd < t.length
    · simp [hlt]
    · simp [hlt]
  · simp [h]

theorem lt_length_of_lookup (h : lookup t fd = some d) : fd < t.length :=
  (List.getElem?_eq_some_iff.mp (lookup_eq_some.mp h)).1

theorem lowest_some (h : lowest t = some fd) : t[fd]? = some none := by
  obtain ⟨hlt, hnone, -⟩ := List.findIdx?_eq_some_iff_getElem.mp h
  rw [List.getElem?_eq_getElem hlt, Option.isNone_iff_eq_none.mp hnone]

theorem lowest_eq_none : lowest t = none ↔ free t = 0 := by
  rw [lowest, free, List.findIdx?_eq_none_iff, List.countP_eq_zero]
  simp [Option.isSome_iff_ne_none]

/-! ### Free slots -/

/-- One slot changes, and with it the number of free ones. -/
theorem free_set {o : Option δ} (h : t[fd]? = some o) (o' : Option δ) :
    free (t.set fd o') + (if o.isNone then 1 else 0) = free t + if o'.isNone then 1 else 0 := by
  induction t generalizing fd with
  | nil => simp at h
  | cons x t ih =>
      cases fd with
      | zero =>
          obtain rfl : x = o := by simpa using h
          simp only [free, List.set_cons_zero, List.countP_cons]
          omega
      | succ fd =>
          have := ih (by simpa using h)
          simp only [free, List.set_cons_succ, List.countP_cons] at this ⊢
          omega

theorem free_open (h : t[fd]? = some none) : free (t.set fd (some d)) + 1 = free t := by
  simpa using free_set h (some d)

theorem free_reopen (h : lookup t fd = some d) : free (t.set fd (some d₂)) = free t := by
  simpa using free_set (lookup_eq_some.mp h) (some d₂)

/-! ### Operations -/

theorem alloc_eq_none : alloc t d = none ↔ free t = 0 := by
  rw [alloc, Option.map_eq_none_iff, lowest_eq_none]

/-- **A new descriptor** was free, and takes a slot. -/
theorem alloc_some {t' : Descriptors δ} (h : alloc t d = some (fd, t')) :
    t[fd]? = some none ∧ t' = t.set fd (some d) ∧ free t' + 1 = free t := by
  obtain ⟨fd', hlow, he⟩ := Option.map_eq_some_iff.mp h
  obtain ⟨rfl, rfl⟩ := Prod.mk.inj he
  have hnone := lowest_some hlow
  exact ⟨hnone, rfl, free_open hnone⟩

theorem exists_alloc (h : 0 < free t) (d : δ) : ∃ fd t', alloc t d = some (fd, t') := by
  cases ha : alloc t d with
  | none =>
      rw [alloc_eq_none] at ha
      omega
  | some r => exact ⟨r.1, r.2, rfl⟩

theorem pipe_eq_none : pipe t d d₂ = none ↔ free t < 2 := by
  rw [pipe]
  cases ha : alloc t d with
  | none =>
      rw [alloc_eq_none] at ha
      simp only [Option.bind_none, true_iff]
      omega
  | some r =>
      obtain ⟨-, -, hfree⟩ := alloc_some ha
      rw [Option.bind_some, Option.map_eq_none_iff, alloc_eq_none]
      omega

/-- **A pipe** takes two slots that were free. -/
theorem pipe_some {t' : Descriptors δ} (h : pipe t d d₂ = some (fd, fd₂, t')) :
    t[fd]? = some none ∧ t[fd₂]? = some none ∧ fd ≠ fd₂ ∧
      t' = (t.set fd (some d)).set fd₂ (some d₂) ∧ free t' + 2 = free t := by
  obtain ⟨⟨a, t₁⟩, h₁, h₂⟩ := Option.bind_eq_some_iff.mp h
  obtain ⟨⟨b, t₂⟩, h₃, he⟩ := Option.map_eq_some_iff.mp h₂
  obtain ⟨rfl, rfl, rfl⟩ : a = fd ∧ b = fd₂ ∧ t₂ = t' := by simpa using he
  obtain ⟨ha, rfl, hfa⟩ := alloc_some h₁
  obtain ⟨hb, rfl, hfb⟩ := alloc_some h₃
  have hlt : a < t.length := (List.getElem?_eq_some_iff.mp ha).1
  rw [List.getElem?_set] at hb
  have hne : a ≠ b := by
    rintro rfl
    simp [hlt] at hb
  rw [if_neg hne] at hb
  exact ⟨ha, hb, hne, rfl, by omega⟩

theorem dup2_eq (h : lookup t fd = some d) (hlt : fd₂ < t.length) :
    dup2 t fd fd₂ = some (t.set fd₂ (some d)) := by
  rw [dup2, h, Option.bind_some, if_pos hlt]

theorem close_eq (h : lookup t fd = some d) : close t fd = some (t.set fd none) := by
  rw [close, h, Option.map_some]

theorem dup_eq (h : lookup t fd = some d) : dup t fd = alloc t d := by
  rw [dup, h, Option.bind_some]

theorem set_self (h : lookup t fd = some d) : t.set fd (some d) = t := by
  rw [lookup_eq_some] at h
  apply List.ext_getElem?
  intro i
  rw [List.getElem?_set]
  split
  next he =>
    subst he
    rw [if_pos (List.getElem?_eq_some_iff.mp h).1, h]
  next => rfl

/-- **Opened and closed again**, a descriptor is as it was. -/
theorem set_none_of_free {o : Option δ} (h : t[fd]? = some none) :
    (t.set fd o).set fd none = t := by
  rw [List.set_set]
  apply List.ext_getElem?
  intro i
  rw [List.getElem?_set]
  split
  next he =>
    subst he
    have hlt : fd < t.length := (List.getElem?_eq_some_iff.mp h).1
    rw [if_pos hlt, h]
  next => rfl

/-- **A pipe** whose descriptors are closed again, after `fd` was made to refer to `o`. -/
theorem set_pipe_closed {r x : ℕ} {o p q : Option δ} (hr : t[r]? = some none)
    (hx : t[x]? = some none) (hfdr : fd ≠ r) (hfdx : fd ≠ x) :
    ((((t.set r p).set x q).set fd o).set r none).set x none = t.set fd o := by
  apply List.ext_getElem?
  intro i
  have hrlt := (List.getElem?_eq_some_iff.mp hr).1
  have hxlt := (List.getElem?_eq_some_iff.mp hx).1
  simp only [List.getElem?_set, List.length_set]
  grind

/-- The same with a third descriptor that stays. -/
theorem set_pipe_closed_keep {r x c : ℕ} {o o' p q : Option δ} (hr : t[r]? = some none)
    (hx : t[x]? = some none) (hfdr : fd ≠ r) (hfdx : fd ≠ x) (hcr : c ≠ r) (hcx : c ≠ x) :
    (((((t.set r p).set x q).set c o').set fd o).set r none).set x none =
      (t.set c o').set fd o := by
  have hcr' : (t.set c o')[r]? = some none := by rw [List.getElem?_set_ne hcr, hr]
  have hcx' : (t.set c o')[x]? = some none := by rw [List.getElem?_set_ne hcx, hx]
  rw [List.set_comm _ _ hcx.symm, List.set_comm _ _ hcr.symm]
  exact set_pipe_closed hcr' hcx' hfdr hfdx

/-- **A descriptor** that refers to another file for a while, and is reset from its copy. -/
theorem set_restored {f c : ℕ} {o p : Option δ} (hd : lookup t fd = some d)
    (hf : t[f]? = some none) (hc : t[c]? = some none) :
    (((((t.set f o).set c (some d)).set fd p).set f none).set fd (some d)).set c none = t := by
  rw [lookup_eq_some] at hd
  apply List.ext_getElem?
  intro i
  have hlt := (List.getElem?_eq_some_iff.mp hd).1
  have hflt := (List.getElem?_eq_some_iff.mp hf).1
  have hclt := (List.getElem?_eq_some_iff.mp hc).1
  simp only [List.getElem?_set, List.length_set]
  grind

theorem set_closed {f : ℕ} {o p : Option δ} (hf : t[f]? = some none) (hne : fd ≠ f) :
    ((t.set f o).set fd p).set f none = t.set fd p := by
  rw [List.set_comm _ _ hne.symm]
  apply set_none_of_free
  rw [List.getElem?_set_ne hne, hf]

end Descriptors

end OsProjects
