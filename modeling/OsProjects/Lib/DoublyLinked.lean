import Mathlib.Data.List.Basic
import Mathlib.Tactic.Common

/-! # Doubly linked lists over pointer functions

`nx` and `pv` give the two pointers of every node; the node `0` is `NULL`, and `nx 0` is the
pointer to the first node, so the head needs no case of its own.  `Linked nx pv a l` says
that the chain behind the node `a` is `l`, that it ends with `NULL` and that every `pv`
leads back; `pv` of a first node is left open.  `Linked.insert` and `Linked.remove` are the
two rules of list surgery: a change of the pointers around one place changes the chain at
that place. -/

namespace OsProjects

theorem getLastD_mem_of_ne_nil {l : List ℕ} {a : ℕ} (h : l ≠ []) : l.getLastD a ∈ l := by
  cases l with
  | nil => exact absurd rfl h
  | cons b l =>
      rw [List.getLastD_cons]
      exact List.getLastD_mem_cons

/-- The other members of a list without duplicates. -/
theorem mem_around_iff {l₁ l₂ : List ℕ} {x q : ℕ} (h : (l₁ ++ x :: l₂).Nodup) :
    q ∈ l₁ ++ l₂ ↔ q ∈ l₁ ++ x :: l₂ ∧ q ≠ x := by
  rw [List.nodup_append, List.nodup_cons] at h
  obtain ⟨-, ⟨h₁, -⟩, h₂⟩ := h
  constructor
  · intro hq
    refine ⟨?_, ?_⟩
    · simp only [List.mem_append, List.mem_cons] at hq ⊢
      tauto
    · rintro rfl
      obtain hq | hq := List.mem_append.mp hq
      · exact h₂ q hq q List.mem_cons_self rfl
      · exact h₁ hq
  · rintro ⟨hq, hqx⟩
    simp only [List.mem_append, List.mem_cons] at hq ⊢
    tauto

/-- The chain behind `a` is `l`. -/
def Linked (nx pv : ℕ → ℕ) : ℕ → List ℕ → Prop
  | a, [] => nx a = 0
  | a, b :: l => nx a = b ∧ b ≠ 0 ∧ (a ≠ 0 → pv b = a) ∧ Linked nx pv b l

namespace Linked

variable {nx pv nx' pv' : ℕ → ℕ}

/-- The chain depends only on the pointers of its own nodes. -/
theorem congr {a : ℕ} {l : List ℕ} (h : Linked nx pv a l) (hn : ∀ b ∈ a :: l, nx' b = nx b)
    (hp : ∀ b ∈ l, pv' b = pv b) : Linked nx' pv' a l := by
  induction l generalizing a with
  | nil => exact (hn a (by simp)).trans h
  | cons b l ih =>
      obtain ⟨h₁, h₂, h₃, h₄⟩ := h
      refine ⟨(hn a (by simp)).trans h₁, h₂, fun ha => (hp b (by simp)).trans (h₃ ha), ?_⟩
      exact ih h₄ (fun c hc => hn c (List.mem_cons_of_mem _ hc))
        fun c hc => hp c (List.mem_cons_of_mem _ hc)

theorem ne_zero {a : ℕ} {l : List ℕ} (h : Linked nx pv a l) : ∀ b ∈ l, b ≠ 0 := by
  induction l generalizing a with
  | nil => simp
  | cons b l ih =>
      intro c hc
      rcases List.mem_cons.mp hc with rfl | hc
      · exact h.2.1
      · exact ih h.2.2.2 c hc

/-- The chain behind a node of the chain. -/
theorem behind {a b : ℕ} {l₁ l₂ : List ℕ} (h : Linked nx pv a (l₁ ++ b :: l₂)) :
    Linked nx pv b l₂ := by
  induction l₁ generalizing a with
  | nil => exact h.2.2.2
  | cons c l₁ ih => exact ih h.2.2.2

/-- The successor of a node. -/
theorem nx_eq {a b : ℕ} {l₁ l₂ : List ℕ} (h : Linked nx pv a (l₁ ++ b :: l₂)) :
    nx b = l₂.headD 0 := by
  have hb := h.behind
  cases l₂ with
  | nil => exact hb
  | cons c l₂ => exact hb.1

/-- The predecessor of a node. -/
theorem pv_eq {a b : ℕ} {l₁ l₂ : List ℕ} (h : Linked nx pv a (l₁ ++ b :: l₂))
    (hb : l₁.getLastD a ≠ 0) : pv b = l₁.getLastD a := by
  induction l₁ generalizing a with
  | nil => exact h.2.2.1 hb
  | cons c l₁ ih =>
      rw [List.getLastD_cons] at hb ⊢
      exact ih h.2.2.2 hb

/-- A chain is determined by its first pointer and `nx`. -/
theorem unique {a : ℕ} {l l' : List ℕ} (h : Linked nx pv a l) (h' : Linked nx pv' a l') :
    l = l' := by
  induction l generalizing a l' with
  | nil =>
      cases l' with
      | nil => rfl
      | cons b l' => exact absurd (h'.1.symm.trans h) h'.2.1
  | cons b l ih =>
      cases l' with
      | nil => exact absurd (h.1.symm.trans h') h.2.1
      | cons c l' =>
          obtain rfl : b = c := h.1.symm.trans h'.1
          rw [ih h.2.2.2 h'.2.2.2]

/-- A chain that ends meets no node twice. -/
theorem nodup {a : ℕ} {l : List ℕ} (h : Linked nx pv a l) : l.Nodup := by
  induction l generalizing a with
  | nil => exact .nil
  | cons b l ih =>
      refine List.nodup_cons.mpr ⟨fun hb => ?_, ih h.2.2.2⟩
      -- behind the second `b` there would be all of `l` again
      obtain ⟨l₁, l₂, rfl⟩ := List.append_of_mem hb
      have he := congrArg List.length (h.2.2.2.unique h.2.2.2.behind)
      simp only [List.length_append, List.length_cons] at he
      omega

/-- A pointer of the chain leads to a node behind the first one, or nowhere. -/
theorem nx_mem {a b : ℕ} {l : List ℕ} (h : Linked nx pv a l) (hb : b ∈ a :: l) :
    nx b = 0 ∨ nx b ∈ l := by
  induction l generalizing a with
  | nil =>
      rw [List.mem_singleton.mp hb]
      exact .inl h
  | cons c l ih =>
      obtain rfl | hb := List.mem_cons.mp hb
      · exact .inr (h.1 ▸ List.mem_cons_self)
      · exact (ih h.2.2.2 hb).imp id (List.mem_cons_of_mem c)

/-- A pointer back leads to a node of the chain, unless it is that of the first node. -/
theorem pv_mem {a b : ℕ} {l : List ℕ} (h : Linked nx pv a l) (hb : b ∈ l) :
    l.head? = some b ∨ pv b ∈ l := by
  obtain ⟨l₁, l₂, rfl⟩ := List.append_of_mem hb
  cases l₁ with
  | nil => exact .inl rfl
  | cons c l₁ =>
      have hm : (c :: l₁).getLastD a ∈ c :: l₁ := getLastD_mem_of_ne_nil (List.cons_ne_nil c l₁)
      rw [h.pv_eq (h.ne_zero _ (List.mem_append_left _ hm))]
      exact .inr (List.mem_append_left _ hm)

/-- Only the predecessor of `n` points forward to it. -/
theorem eq_of_nx {a b n : ℕ} {l₁ l₂ : List ℕ} (h : Linked nx pv a (l₁ ++ n :: l₂))
    (hd : (a :: (l₁ ++ n :: l₂)).Nodup) (hb : b ∈ a :: (l₁ ++ n :: l₂)) (hbn : nx b = n) :
    b = l₁.getLastD a := by
  induction l₁ generalizing a with
  | nil =>
      obtain rfl | hb := List.mem_cons.mp hb
      · rfl
      have hn := (List.nodup_cons.mp (List.nodup_cons.mp hd).2).1
      obtain h₀ | hm := h.2.2.2.nx_mem hb
      · exact absurd (hbn.symm.trans h₀) h.2.1
      · exact absurd (hbn ▸ hm) hn
  | cons c l₁ ih =>
      have hd' := (List.nodup_cons.mp hd).2
      obtain rfl | hb := List.mem_cons.mp hb
      · obtain rfl : c = n := h.1.symm.trans hbn
        exact absurd (by simp) (List.nodup_cons.mp hd').1
      · rw [List.getLastD_cons]
        exact ih h.2.2.2 hd' hb

/-- Only the successor of `n` points back to it. -/
theorem eq_of_pv {a b n : ℕ} {l₁ l₂ : List ℕ} (h : Linked nx pv a (l₁ ++ n :: l₂))
    (hd : (l₁ ++ n :: l₂).Nodup) (hb : b ∈ l₁ ++ n :: l₂) (hbn : pv b = n)
    (hF : ∀ c ∈ (l₁ ++ n :: l₂).head?, pv c ≠ n) : b = l₂.headD 0 := by
  induction l₁ generalizing a with
  | nil =>
      obtain rfl | hb := List.mem_cons.mp hb
      · exact absurd hbn (hF b rfl)
      obtain ⟨k₁, k₂, rfl⟩ := List.append_of_mem hb
      cases k₁ with
      | nil => rfl
      | cons c k₁ =>
          have hm : (c :: k₁).getLastD n ∈ c :: k₁ :=
            getLastD_mem_of_ne_nil (List.cons_ne_nil c k₁)
          have hL := h.2.2.2
          rw [hL.pv_eq (hL.ne_zero _ (List.mem_append_left _ hm))] at hbn
          rw [hbn] at hm
          exact absurd (List.mem_append_left _ hm) (List.nodup_cons.mp hd).1
  | cons c l₁ ih =>
      obtain rfl | hb := List.mem_cons.mp hb
      · exact absurd hbn (hF b rfl)
      have hcn : c ≠ n := fun e => (List.nodup_cons.mp hd).1 (e ▸ by simp)
      refine ih h.2.2.2 (List.nodup_cons.mp hd).2 hb fun d hd' => ?_
      have hdc : pv d = c := by
        have hL := h.2.2.2
        cases l₁ with
        | nil =>
            obtain rfl : n = d := by simpa using hd'
            exact hL.2.2.1 h.2.1
        | cons e l₁ =>
            obtain rfl : e = d := by simpa using hd'
            exact hL.2.2.1 h.2.1
      rwa [hdc]

/-- The node in front of a place behind `c` is not the earlier node `a`. -/
theorem ne_getLastD {a c : ℕ} {l₁ l₂ : List ℕ} (hd : (a :: (c :: l₁ ++ l₂)).Nodup) :
    a ≠ l₁.getLastD c := by
  intro h
  have hm : a ∈ c :: l₁ := h ▸ List.getLastD_mem_cons
  exact (List.nodup_cons.mp hd).1 (List.mem_append_left _ hm)

/-- The node behind a place is not an earlier node `c`. -/
theorem ne_headD {a c : ℕ} {l₁ l₂ : List ℕ} (hd : (a :: (c :: l₁ ++ l₂)).Nodup) (hc : c ≠ 0) :
    c ≠ l₂.headD 0 := by
  cases l₂ with
  | nil => exact hc
  | cons d l₂ =>
      intro h
      have hd' := (List.nodup_cons.mp (List.nodup_cons.mp hd).2).1
      exact hd' (List.mem_append_right _ (h ▸ List.mem_cons_self))

/-- The rest of a chain whose first pointer has changed. -/
theorem tail_congr {a c : ℕ} {l : List ℕ} (h : Linked nx pv c l) (hd : (a :: c :: l).Nodup)
    (hn : ∀ b ∈ c :: l, b ≠ a → nx' b = nx b) (hp : ∀ b ∈ c :: l, b ≠ c → pv' b = pv b) :
    Linked nx' pv' c l := by
  rw [List.nodup_cons, List.nodup_cons] at hd
  exact h.congr (fun b hb => hn b hb fun e => hd.1 (e ▸ hb))
    fun b hb => hp b (List.mem_cons_of_mem _ hb) fun e => hd.2.1 (e ▸ hb)

/-- **Insertion** of `x` between `l₁` and `l₂`. -/
theorem insert {a x : ℕ} {l₁ l₂ : List ℕ} (h : Linked nx pv a (l₁ ++ l₂))
    (hd : (a :: (l₁ ++ l₂)).Nodup) (hx : x ≠ 0)
    (hn : ∀ b ∈ a :: (l₁ ++ l₂), b ≠ l₁.getLastD a → nx' b = nx b)
    (hp : ∀ b ∈ l₁ ++ l₂, b ≠ l₂.headD 0 → pv' b = pv b)
    (h₁ : nx' (l₁.getLastD a) = x) (h₂ : nx' x = l₂.headD 0)
    (h₃ : l₁.getLastD a ≠ 0 → pv' x = l₁.getLastD a)
    (h₄ : l₂.headD 0 ≠ 0 → pv' (l₂.headD 0) = x) : Linked nx' pv' a (l₁ ++ x :: l₂) := by
  induction l₁ generalizing a with
  | nil =>
      refine ⟨h₁, hx, h₃, ?_⟩
      cases l₂ with
      | nil => exact h₂
      | cons c l₂ =>
          exact ⟨h₂, h.2.1, fun _ => h₄ h.2.1, h.2.2.2.tail_congr hd
            (fun b hb => hn b (List.mem_cons_of_mem _ hb)) fun b hb => hp b hb⟩
  | cons c l₁ ih =>
      rw [List.getLastD_cons] at hn h₁ h₃
      obtain ⟨e₁, e₂, e₃, e₄⟩ := h
      refine ⟨(hn a List.mem_cons_self (ne_getLastD hd)).trans e₁, e₂, fun ha => ?_, ?_⟩
      · exact (hp c List.mem_cons_self (ne_headD hd e₂)).trans (e₃ ha)
      · exact ih e₄ (List.nodup_cons.mp hd).2 (fun b hb => hn b (List.mem_cons_of_mem _ hb))
          (fun b hb => hp b (List.mem_cons_of_mem _ hb)) h₁ h₃

/-- **Removal** of the node `x` between `l₁` and `l₂`. -/
theorem remove {a x : ℕ} {l₁ l₂ : List ℕ} (h : Linked nx pv a (l₁ ++ x :: l₂))
    (hd : (a :: (l₁ ++ x :: l₂)).Nodup)
    (hn : ∀ b ∈ a :: (l₁ ++ l₂), b ≠ l₁.getLastD a → nx' b = nx b)
    (hp : ∀ b ∈ l₁ ++ l₂, b ≠ l₂.headD 0 → pv' b = pv b)
    (h₁ : nx' (l₁.getLastD a) = l₂.headD 0)
    (h₄ : l₂.headD 0 ≠ 0 → l₁.getLastD a ≠ 0 → pv' (l₂.headD 0) = l₁.getLastD a) :
    Linked nx' pv' a (l₁ ++ l₂) := by
  induction l₁ generalizing a with
  | nil =>
      cases l₂ with
      | nil => exact h₁
      | cons c l₂ =>
          obtain ⟨-, -, -, -, e₂, -, e₄⟩ := h
          have hd' : (a :: c :: l₂).Nodup := hd.sublist (by simp)
          exact ⟨h₁, e₂, h₄ e₂, e₄.tail_congr hd'
            (fun b hb => hn b (List.mem_cons_of_mem _ hb)) fun b hb => hp b hb⟩
  | cons c l₁ ih =>
      rw [List.getLastD_cons] at hn h₁ h₄
      obtain ⟨e₁, e₂, e₃, e₄⟩ := h
      have hd' : (a :: (c :: l₁ ++ l₂)).Nodup := hd.sublist (by simp)
      refine ⟨(hn a List.mem_cons_self (ne_getLastD hd')).trans e₁, e₂, fun ha => ?_, ?_⟩
      · exact (hp c List.mem_cons_self (ne_headD hd' e₂)).trans (e₃ ha)
      · exact ih e₄ (List.nodup_cons.mp hd).2 (fun b hb => hn b (List.mem_cons_of_mem _ hb))
          (fun b hb => hp b (List.mem_cons_of_mem _ hb)) h₁ h₄

end Linked

end OsProjects
