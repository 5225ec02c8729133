import Mathlib.Data.List.DropRight
import Mathlib.Tactic.Common

/-! # Words of a list

The words of a list are its maximal parts without separators, and `trimBy` takes the separators off
its two ends.  Trimming changes no word, and the first word is what stands in front of the first
separator behind the leading ones. -/

namespace OsProjects

variable {α : Type} {p : α → Bool} {l r w xs ys : List α} {c : α}

/-- The maximal parts of `l` without separators. -/
def words (p : α → Bool) (l : List α) : List (List α) :=
  (l.splitOnP p).filter fun w => !w.isEmpty

/-- `l` without the separators at its ends. -/
def trimBy (p : α → Bool) (l : List α) : List α := (l.dropWhile p).rdropWhile p

theorem words_append_cons (hc : p c = true) : words p (xs ++ c :: ys) = words p xs ++ words p ys := by
  rw [words, List.splitOnP_append_cons _ _ hc, List.filter_append]
  rfl

@[simp] theorem words_nil : words p [] = [] := rfl

theorem words_word (h : ∀ x ∈ w, p x = false) (hw : w ≠ []) : words p w = [w] := by
  rw [words, List.splitOnP_eq_singleton h, List.filter_cons_of_pos (by simpa using hw),
    List.filter_nil]

theorem words_cons (hc : p c = true) : words p (c :: ys) = words p ys := by
  have h : words p ([] ++ c :: ys) = words p [] ++ words p ys := words_append_cons hc
  rwa [List.nil_append, words_nil, List.nil_append] at h

/-! ### Separators at the ends -/

theorem words_append_left (h : ∀ x ∈ xs, p x = true) : words p (xs ++ ys) = words p ys := by
  induction xs with
  | nil => rfl
  | cons c xs ih =>
      obtain ⟨hc, h'⟩ := List.forall_mem_cons.mp h
      rw [List.cons_append, words_cons hc, ih h']

theorem words_append_right (h : ∀ x ∈ ys, p x = true) : words p (xs ++ ys) = words p xs := by
  cases ys with
  | nil => rw [List.append_nil]
  | cons c ys =>
      obtain ⟨hc, h'⟩ := List.forall_mem_cons.mp h
      have hnil : words p ys = [] := by
        rw [← List.append_nil ys, words_append_left h', words_nil]
      rw [words_append_cons hc, hnil, List.append_nil]

theorem trimBy_decompose (p : α → Bool) (l : List α) :
    ∃ a b, l = a ++ trimBy p l ++ b ∧ (∀ x ∈ a, p x = true) ∧ ∀ x ∈ b, p x = true := by
  refine ⟨l.takeWhile p, (l.dropWhile p).rtakeWhile p, ?_, fun x hx => List.mem_takeWhile_imp hx,
    fun x hx => List.mem_rtakeWhile_imp hx⟩
  rw [List.append_assoc, trimBy, List.rdropWhile_append_rtakeWhile,
    List.takeWhile_append_dropWhile]

theorem words_trimBy (p : α → Bool) (l : List α) : words p (trimBy p l) = words p l := by
  obtain ⟨a, b, hl, ha, hb⟩ := trimBy_decompose p l
  calc words p (trimBy p l)
      = words p (a ++ trimBy p l) := (words_append_left ha).symm
    _ = words p (a ++ trimBy p l ++ b) := (words_append_right hb).symm
    _ = words p l := by rw [← hl]

theorem trimBy_eq_nil_iff : trimBy p l = [] ↔ ∀ x ∈ l, p x = true := by
  rw [trimBy, List.rdropWhile_eq_nil_iff]
  constructor
  · intro h x hx
    rw [← List.takeWhile_append_dropWhile (p := p) (l := l)] at hx
    obtain hx | hx := List.mem_append.mp hx
    · exact List.mem_takeWhile_imp hx
    · exact h x hx
  · intro h x hx
    exact h x ((List.dropWhile_sublist p).mem hx)

theorem getLast_trimBy (h : trimBy p l ≠ []) : p ((trimBy p l).getLast h) = false :=
  Bool.eq_false_iff.mpr (List.rdropWhile_last_not p _ h)

theorem head_trimBy (h : trimBy p l ≠ []) : p ((trimBy p l).head h) = false := by
  have hpre : trimBy p l <+: l.dropWhile p := List.rdropWhile_prefix p _
  have hne : l.dropWhile p ≠ [] := fun h₀ => h (List.prefix_nil.mp (h₀ ▸ hpre))
  rw [hpre.head h]
  exact List.head_dropWhile_not p hne

/-- Separators behind a list that does not end with one are cut off. -/
theorem rdropWhile_append (hr : ∀ h : xs ≠ [], p (xs.getLast h) = false)
    (hys : ∀ x ∈ ys, p x = true) : (xs ++ ys).rdropWhile p = xs := by
  induction ys using List.reverseRecOn with
  | nil =>
      rw [List.append_nil]
      exact List.rdropWhile_eq_self_iff.mpr fun h => by simp [hr h]
  | append_singleton ys c ih =>
      rw [← List.append_assoc, List.rdropWhile_concat_pos p _ _ (hys c (by simp))]
      exact ih fun x hx => hys x (by simp [hx])

/-! ### The first word -/

/-- A list that starts with a word: the word, and nothing or a separator behind it. -/
theorem exists_word (hl : l ≠ []) (hhead : p (l.head hl) = false) :
    ∃ w r, l = w ++ r ∧ w ≠ [] ∧ (∀ x ∈ w, p x = false) ∧ ∀ c ∈ r.head?, p c = true := by
  refine ⟨l.takeWhile (!p ·), l.dropWhile (!p ·), (List.takeWhile_append_dropWhile).symm, ?_, ?_, ?_⟩
  · obtain ⟨c, l, rfl⟩ := List.exists_cons_of_ne_nil hl
    rw [List.head_cons] at hhead
    simp [hhead]
  · intro x hx
    simpa using List.mem_takeWhile_imp hx
  · intro c hc
    have hne : l.dropWhile (!p ·) ≠ [] := by
      rintro h
      rw [h] at hc
      cases hc
    rw [List.head?_eq_some_head hne] at hc
    obtain rfl := Option.some.inj hc
    simpa using List.head_dropWhile_not (!p ·) hne

theorem words_word_append (h : ∀ x ∈ w, p x = false) (hw : w ≠ []) (hc : p c = true) :
    words p (w ++ c :: r) = w :: words p r := by
  rw [words_append_cons hc, words_word h hw, List.singleton_append]

end OsProjects
