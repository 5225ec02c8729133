import OsProjects.Lib.DoublyLinked
import OsProjects.VirtualMemory.Malloc3.Headers

/-! # The size-ordered list

`HeapListInsert` and `HeapListRemove` seen from two sides.  Whatever the list looks like,
they touch only the two link fields of headers they can reach (`LinkStep`, `Closed`).  On a
linked list they compute `listInsert` and removal; `listInsert` shows the defect of the
insertion: a block smaller than the head of a list of two or more blocks ends up in front of
the last block, and all others drop out. -/

namespace OsProjects.Malloc3

open Prog

variable {S : Set ℕ} {s s' s'' : State} {x ptr : ℕ}

/-! ### Steps that change links only -/

/-- Only links of headers in `S` and `Heap.head` change. -/
structure LinkStep (S : Set ℕ) (s s' : State) : Prop where
  heap : s'.heap = { s.heap with head := s'.heap.head }
  sys : s'.sys = { s.sys with mem := s'.sys.mem }
  cookie : s'.mainCookie = s.mainCookie
  page : s'.sys.mem.page = s.sys.mem.page
  byte : ∀ y, (∀ p ∈ S, y < p + 24 ∨ p + 40 ≤ y) → s'.sys.mem.byte y = s.sys.mem.byte y

namespace LinkStep

theorem refl (S : Set ℕ) (s : State) : LinkStep S s s := ⟨rfl, rfl, rfl, rfl, fun _ _ => rfl⟩

theorem trans (h : LinkStep S s s') (h' : LinkStep S s' s'') : LinkStep S s s'' where
  heap := by rw [h'.heap, h.heap]
  sys := by rw [h'.sys, h.sys]
  cookie := h'.cookie.trans h.cookie
  page := h'.page.trans h.page
  byte y hy := (h'.byte y hy).trans (h.byte y hy)

theorem mono {T : Set ℕ} (h : LinkStep S s s') (hST : S ⊆ T) : LinkStep T s s' :=
  { h with byte := fun y hy => h.byte y fun p hp => hy p (hST hp) }

theorem setLink (h : LinkStep S s s') {f : Field} (hf : f = .next ∨ f = .prev) {p : ℕ}
    (hp : p ∈ S) (v : ℕ) : LinkStep S s (s'.setMem (setField s'.sys.mem f p v)) where
  heap := h.heap
  sys := by rw [State.setMem, h.sys]
  cookie := h.cookie
  page := h.page
  byte y hy := by
    refine Eq.trans (Memory.write_byte_of_not_mem _ _ ?_) (h.byte y hy)
    have := hy p hp
    rcases hf with rfl | rfl <;> simp only [Field.offset, Field.width] <;> omega

theorem setNext (h : LinkStep S s s') {p : ℕ} (hp : p ∈ S) (v : ℕ) :
    LinkStep S s (s'.setMem (setField s'.sys.mem .next p v)) := h.setLink (.inl rfl) hp v

theorem setPrev (h : LinkStep S s s') {p : ℕ} (hp : p ∈ S) (v : ℕ) :
    LinkStep S s (s'.setMem (setField s'.sys.mem .prev p v)) := h.setLink (.inr rfl) hp v

theorem setHead (h : LinkStep S s s') (v : ℕ) :
    LinkStep S s (s'.mapHeap fun h => { h with head := v }) where
  heap := by rw [State.mapHeap_heap, h.heap]
  sys := h.sys
  cookie := h.cookie
  page := h.page
  byte := h.byte

/-- The other fields of all headers in `S` stay as they are. -/
theorem getField_eq (h : LinkStep S s s') (hS : Spread S) {f : Field} (hf : f.offset < 24)
    {p : ℕ} (hp : p ∈ S) : getField s'.sys.mem f p = getField s.sys.mem f p := by
  refine getField_congr fun y h₁ h₂ => h.byte y fun q hq => ?_
  have hw : f.offset + f.width ≤ 24 := by
    revert hf; cases f <;> decide
  rcases hS.apart p hp q hq with rfl | h
  · omega
  · unfold Apart sizeofMetadata at h; omega

theorem blockAt_eq (h : LinkStep S s s') (hS : Spread S) {p : ℕ} (hp : p ∈ S) :
    blockAt s'.sys.mem p = blockAt s.sys.mem p := by
  rw [blockAt, blockAt, h.getField_eq hS (by decide) hp, h.getField_eq hS (by decide) hp]

end LinkStep

/-! ### Pointers -/

/-- The pointer to the next node; `Heap.head` is the pointer behind the node `0`. -/
def nxt (s : State) (p : ℕ) : ℕ := if p = 0 then s.heap.head else getField s.sys.mem .next p

/-- The pointer to the previous node. -/
def prv (s : State) (p : ℕ) : ℕ := getField s.sys.mem .prev p

/-- A link that stays in `S`. -/
def LinkIn (S : Set ℕ) (p : ℕ) : Prop := p = 0 ∨ p ∈ S

theorem LinkIn.mono {T : Set ℕ} {p : ℕ} (h : LinkIn S p) (hST : S ⊆ T) : LinkIn T p :=
  h.imp id fun hp => hST hp

theorem Spread.linkIn_isWord (hS : Spread S) {p : ℕ} (hp : LinkIn S p) : IsWord p := by
  rcases hp with rfl | hp
  · exact isWord_zero
  · exact hS.lt p hp

/-- All links of headers in `S`, and `Heap.head`, stay in `S`. -/
structure Closed (S : Set ℕ) (s : State) : Prop where
  nx : ∀ b, LinkIn S b → LinkIn S (nxt s b)
  pv : ∀ b ∈ S, LinkIn S (prv s b)

/-! ### What one iteration of the insertion does -/

theorem heapListInsertTail_cases (h : (heapListInsertTail x ptr).run s = .ok ((), s')) :
    (getField s.sys.mem .size ptr ≤ getField s.sys.mem .size x ∧
      ((getField s.sys.mem .size ptr = getField s.sys.mem .size x → ptr < x) ∧
          (insertLast x ptr).run s = .ok ((), s') ∨
        getField s.sys.mem .size ptr = getField s.sys.mem .size x ∧ ¬ptr < x ∧
          (insertBefore x ptr).run s = .ok ((), s'))) ∨
    (getField s.sys.mem .size x < getField s.sys.mem .size ptr ∧
      s' = (s.setMem (setField (setField (setField s.sys.mem .prev ptr x) .next x ptr)
        .prev x 0)).mapHeap fun h => { h with head := x }) := by
  simp only [heapListInsertTail, run_bind_eq_ok, run_ite_eq_ok, get_eq_ok, set_eq_ok,
    setHeap_eq_ok] at h
  obtain ⟨_, _, ⟨-, rfl, rfl⟩, _, _, ⟨-, rfl, rfl⟩, h⟩ := h
  rcases h with ⟨hle, ⟨he, ⟨hlt, h⟩ | ⟨hlt, h⟩⟩ | ⟨he, h⟩⟩ | ⟨hle, h⟩
  · exact .inl ⟨hle, .inl ⟨fun _ => hlt, h⟩⟩
  · exact .inl ⟨hle, .inr ⟨he, hlt, h⟩⟩
  · exact .inl ⟨hle, .inl ⟨fun e => absurd e he, h⟩⟩
  · refine .inr ⟨Nat.lt_of_not_le hle, ?_⟩
    obtain ⟨_, _, ⟨-, rfl⟩, _, _, ⟨-, rfl⟩, _, _, ⟨-, rfl⟩, rfl⟩ := h
    rfl

theorem heapListInsertLoop_cases {fuel : ℕ}
    (h : (heapListInsertLoop x (fuel + 1) ptr).run s = .ok ((), s')) :
    (getField s.sys.mem .next ptr = 0 ∧ (heapListInsertTail x ptr).run s = .ok ((), s')) ∨
    (getField s.sys.mem .next ptr ≠ 0 ∧
      (getField s.sys.mem .size ptr ≤ getField s.sys.mem .size x ∧
        getField s.sys.mem .size x < getField s.sys.mem .size (getField s.sys.mem .next ptr)) ∧
      ((getField s.sys.mem .size x = getField s.sys.mem .size ptr ∧ ¬ptr < x ∧
          (insertBefore x ptr).run s = .ok ((), s')) ∨
        ((getField s.sys.mem .size x = getField s.sys.mem .size ptr → ptr < x) ∧
          (insertBetween x ptr).run s = .ok ((), s')))) ∨
    (getField s.sys.mem .next ptr ≠ 0 ∧
      ¬(getField s.sys.mem .size ptr ≤ getField s.sys.mem .size x ∧
        getField s.sys.mem .size x < getField s.sys.mem .size (getField s.sys.mem .next ptr)) ∧
      (heapListInsertLoop x fuel (getField s.sys.mem .next ptr)).run s = .ok ((), s')) := by
  simp only [heapListInsertLoop, run_bind_eq_ok, run_ite_eq_ok, get_eq_ok, pure_eq_ok] at h
  obtain ⟨_, _, ⟨-, rfl, rfl⟩, ⟨hn, h⟩ | ⟨hn, h⟩⟩ := h
  · obtain ⟨_, _, hv, _, _, ⟨-, rfl, rfl⟩, _, _, ⟨-, rfl, rfl⟩, fits, _, hfits, h⟩ := h
    obtain rfl := validateCookie_eq_ok hv
    refine .inr ?_
    rcases hfits with ⟨hle, _, _, ⟨-, rfl, rfl⟩, rfl, rfl⟩ | ⟨hle, rfl, rfl⟩
    · rw [decide_eq_true_eq] at h
      rcases h with ⟨hlt, h⟩ | ⟨hlt, _, _, hv, h⟩
      · rcases h with ⟨he, ⟨hp, h⟩ | ⟨hp, h⟩⟩ | ⟨he, h⟩
        · exact .inl ⟨hn, ⟨hle, hlt⟩, .inr ⟨fun _ => hp, h⟩⟩
        · exact .inl ⟨hn, ⟨hle, hlt⟩, .inl ⟨he, hp, h⟩⟩
        · exact .inl ⟨hn, ⟨hle, hlt⟩, .inr ⟨fun e => absurd e he, h⟩⟩
      · obtain rfl := validateCookie_eq_ok hv
        exact .inr ⟨hn, fun hc => hlt hc.2, h⟩
    · rcases h with ⟨hf, -⟩ | ⟨-, _, _, hv, h⟩
      · cases hf
      · obtain rfl := validateCookie_eq_ok hv
        exact .inr ⟨hn, fun hc => hle hc.1, h⟩
  · exact .inl ⟨not_not.mp hn, h⟩

/-! ### The memory after each kind of insertion -/

theorem insertBetween_eq (h : (insertBetween x ptr).run s = .ok ((), s')) :
    s' = s.setMem (setField (setField (setField (setField s.sys.mem .next x
      (getField s.sys.mem .next ptr)) .prev x ptr) .next ptr x) .prev
      (getField s.sys.mem .next ptr) x) := by
  simp only [insertBetween, run_bind_eq_ok, get_eq_ok, set_eq_ok] at h
  obtain ⟨_, _, ⟨-, rfl, rfl⟩, _, _, ⟨-, rfl⟩, _, _, ⟨-, rfl⟩, _, _, ⟨-, rfl⟩, -, rfl⟩ := h
  rfl

theorem insertLast_eq (h : (insertLast x ptr).run s = .ok ((), s')) :
    s' = s.setMem (setField (setField (setField s.sys.mem .next ptr x) .prev x ptr)
      .next x 0) := by
  simp only [insertLast, run_bind_eq_ok, set_eq_ok] at h
  obtain ⟨_, _, ⟨-, rfl⟩, _, _, ⟨-, rfl⟩, -, rfl⟩ := h
  rfl

theorem insertBefore_eq (h : (insertBefore x ptr).run s = .ok ((), s')) :
    (ptr = s.heap.head ∧ s' = (s.setMem (setField (setField (setField s.sys.mem .next x ptr)
      .prev x 0) .prev ptr x)).mapHeap fun h => { h with head := x }) ∨
    (ptr ≠ s.heap.head ∧ s' = s.setMem (setField (setField (setField (setField s.sys.mem .next x
      ptr) .prev x (getField s.sys.mem .prev ptr)) .prev ptr x) .next
      (getField s.sys.mem .prev ptr) x)) := by
  simp only [insertBefore, run_bind_eq_ok, run_ite_eq_ok, get_eq_ok, set_eq_ok, getHeap_eq_ok,
    setHeap_eq_ok] at h
  obtain ⟨_, _, ⟨rfl, rfl⟩, ⟨hp, h⟩ | ⟨hp, h⟩⟩ := h
  · obtain ⟨_, _, rfl, _, _, ⟨-, rfl⟩, _, _, ⟨-, rfl⟩, -, rfl⟩ := h
    exact .inl ⟨hp, rfl⟩
  · obtain ⟨_, _, ⟨-, rfl, rfl⟩, _, _, ⟨-, rfl⟩, _, _, ⟨-, rfl⟩, _, _, ⟨-, rfl⟩, -, rfl⟩ := h
    exact .inr ⟨hp, rfl⟩

/-! ### Insertion and removal as a change around one place -/

/-- `x` was linked between `pred` and `succ`. -/
structure Inserted (S : Set ℕ) (s s' : State) (x pred succ : ℕ) : Prop where
  nx : ∀ b, LinkIn S b → b ≠ pred → b ≠ x → nxt s' b = nxt s b
  nx_pred : nxt s' pred = x
  nx_new : nxt s' x = succ
  pv : ∀ b ∈ S, b ≠ succ → b ≠ x → prv s' b = prv s b
  pv_new : prv s' x = pred
  pv_succ : succ ≠ 0 → prv s' succ = x

/-- `pred` and `succ` were linked to each other. -/
structure Unlinked (S : Set ℕ) (s s' : State) (pred succ : ℕ) : Prop where
  nx : ∀ b, LinkIn S b → b ≠ pred → nxt s' b = nxt s b
  nx_pred : nxt s' pred = succ
  pv : ∀ b ∈ S, b ≠ succ → prv s' b = prv s b
  pv_succ : succ ≠ 0 → prv s' succ = pred

/-- A link field of `NULL` cannot be written. -/
theorem not_accessible_null {m : Memory} (h : m.page 0 = false) {a n : ℕ} (ha : a < pageSize)
    (hn : 0 < n) : m.accessible a n = false := by
  rw [Bool.eq_false_iff]
  intro hc
  have := (m.accessible_iff a n).mp hc a le_rfl (by omega)
  rw [Nat.div_eq_of_lt ha, h] at this
  cases this

theorem insertBetween_inserted (hS : Spread S) (hx : x ∈ S) (hp : ptr ∈ S) (hxp : x ≠ ptr)
    (hn : getField s.sys.mem .next ptr ∈ S) (hxn : x ≠ getField s.sys.mem .next ptr)
    (h : (insertBetween x ptr).run s = .ok ((), s')) :
    LinkStep S s s' ∧ Inserted S s s' x ptr (getField s.sys.mem .next ptr) := by
  obtain rfl := insertBetween_eq h
  have hx₀ := hS.pos x hx
  have hp₀ := hS.pos ptr hp
  have hx₁ := hS.lt x hx
  have hp₁ := hS.lt ptr hp
  have hn₁ := hS.lt _ hn
  generalize getField s.sys.mem .next ptr = next at *
  refine ⟨((((LinkStep.refl S s).setNext hx next).setPrev hx ptr).setNext hp x).setPrev hn x, ?_⟩
  constructor
  · rintro b (rfl | hb) hbp hbx
    · simp [nxt]
    · simp [nxt, hS.get_setNext, hS.get_setPrev, *, Ne.symm hbp, Ne.symm hbx]
  · simp [nxt, hS.get_setNext, hS.get_setPrev, *]
  · simp [nxt, hS.get_setNext, hS.get_setPrev, *, Ne.symm hxp]
  · intro b hb hbn hbx
    simp [prv, hS.get_setNext, hS.get_setPrev, *, Ne.symm hbn, Ne.symm hbx]
  · simp [prv, hS.get_setNext, hS.get_setPrev, *, Ne.symm hxn]
  · intro _
    simp [prv, hS.get_setPrev, *]

theorem insertLast_inserted (hS : Spread S) (hx : x ∈ S) (hp : ptr ∈ S) (hxp : x ≠ ptr)
    (h : (insertLast x ptr).run s = .ok ((), s')) :
    LinkStep S s s' ∧ Inserted S s s' x ptr 0 := by
  obtain rfl := insertLast_eq h
  have hx₀ := hS.pos x hx
  have hp₀ := hS.pos ptr hp
  have hx₁ := hS.lt x hx
  have hp₁ := hS.lt ptr hp
  have h₀ := isWord_zero
  refine ⟨(((LinkStep.refl S s).setNext hp x).setPrev hx ptr).setNext hx 0, ?_⟩
  constructor
  · rintro b (rfl | hb) hbp hbx
    · simp [nxt]
    · simp [nxt, hS.get_setNext, hS.get_setPrev, *, Ne.symm hbp, Ne.symm hbx]
  · simp [nxt, hS.get_setNext, hS.get_setPrev, *]
  · simp [nxt, hS.get_setNext, *]
  · intro b hb hbn hbx
    simp [prv, hS.get_setNext, hS.get_setPrev, *, Ne.symm hbx]
  · simp [prv, hS.get_setNext, hS.get_setPrev, *]
  · exact fun h => absurd rfl h

theorem insertBefore_inserted (hS : Spread S) (hx : x ∈ S) (hp : ptr ∈ S) (hxp : x ≠ ptr)
    {pred : ℕ} (hpred : pred = if ptr = s.heap.head then 0 else getField s.sys.mem .prev ptr)
    (hin : ptr ≠ s.heap.head → pred ∈ S) (hxn : x ≠ pred)
    (h : (insertBefore x ptr).run s = .ok ((), s')) :
    LinkStep S s s' ∧ Inserted S s s' x pred ptr := by
  have hx₀ := hS.pos x hx
  have hp₀ := hS.pos ptr hp
  have hx₁ := hS.lt x hx
  have hp₁ := hS.lt ptr hp
  have h₀ := isWord_zero
  obtain ⟨hh, rfl⟩ | ⟨hh, rfl⟩ := insertBefore_eq h
  · rw [if_pos hh] at hpred
    subst hpred
    clear h hh hin
    refine ⟨((((LinkStep.refl S s).setNext hx ptr).setPrev hx 0).setPrev hp x).setHead x, ?_⟩
    constructor
    · rintro b (rfl | hb) hbp hbx
      · exact absurd rfl hbp
      · simp [nxt, hS.get_setNext, hS.get_setPrev, *, Ne.symm hbx]
    · simp [nxt]
    · simp [nxt, hS.get_setNext, hS.get_setPrev, *]
    · intro b hb hbn hbx
      simp [prv, hS.get_setNext, hS.get_setPrev, *, Ne.symm hbn, Ne.symm hbx]
    · simp [prv, hS.get_setPrev, *, Ne.symm hxp]
    · intro _
      simp [prv, hS.get_setPrev, *]
  · rw [if_neg hh] at hpred
    subst hpred
    have hq := hin hh
    have hq₀ := hS.pos _ hq
    have hq₁ := hS.lt _ hq
    generalize getField s.sys.mem .prev ptr = pred at *
    refine ⟨((((LinkStep.refl S s).setNext hx ptr).setPrev hx pred).setPrev hp x).setNext hq x, ?_⟩
    constructor
    · rintro b (rfl | hb) hbp hbx
      · simp [nxt]
      · simp [nxt, hS.get_setNext, hS.get_setPrev, *, Ne.symm hbp, Ne.symm hbx]
    · simp [nxt, hS.get_setNext, *]
    · simp [nxt, hS.get_setNext, hS.get_setPrev, *, Ne.symm hxn]
    · intro b hb hbn hbx
      simp [prv, hS.get_setNext, hS.get_setPrev, *, Ne.symm hbn, Ne.symm hbx]
    · simp [prv, hS.get_setNext, hS.get_setPrev, *, Ne.symm hxp]
    · intro _
      simp [prv, hS.get_setNext, hS.get_setPrev, *]

/-- The branch behind the loop that takes `ptr` for the head. -/
theorem dropInsert_inserted (hS : Spread S) (hx : x ∈ S) (hp : ptr ∈ S) (hxp : x ≠ ptr)
    (h : s' = (s.setMem (setField (setField (setField s.sys.mem .prev ptr x) .next x ptr)
        .prev x 0)).mapHeap fun h => { h with head := x }) :
    LinkStep S s s' ∧ Inserted S s s' x 0 ptr := by
  subst h
  have hx₀ := hS.pos x hx
  have hp₀ := hS.pos ptr hp
  have hx₁ := hS.lt x hx
  have hp₁ := hS.lt ptr hp
  have h₀ := isWord_zero
  refine ⟨((((LinkStep.refl S s).setPrev hp x).setNext hx ptr).setPrev hx 0).setHead x, ?_⟩
  constructor
  · rintro b (rfl | hb) hbp hbx
    · exact absurd rfl hbp
    · simp [nxt, hS.get_setNext, hS.get_setPrev, *, Ne.symm hbx]
  · simp [nxt]
  · simp [nxt, hS.get_setNext, hS.get_setPrev, *]
  · intro b hb hbn hbx
    simp [prv, hS.get_setNext, hS.get_setPrev, *, Ne.symm hbn, Ne.symm hbx]
  · simp [prv, hS.get_setPrev, *]
  · intro _
    simp [prv, hS.get_setNext, hS.get_setPrev, *]

/-! ### The insertion on a linked list -/

/-- `x` next to `y` in front of `l`: behind `y`, except that a tie is broken by the address. -/
def place (sz : ℕ → ℕ) (x y : ℕ) (l : List ℕ) : List ℕ :=
  if sz x = sz y ∧ ¬y < x then x :: y :: l else y :: x :: l

theorem place_before {sz : ℕ → ℕ} {x y : ℕ} (he : sz x = sz y) (h : ¬y < x) (l : List ℕ) :
    place sz x y l = x :: y :: l := if_pos ⟨he, h⟩

theorem place_behind {sz : ℕ → ℕ} {x y : ℕ} (h : sz x = sz y → y < x) (l : List ℕ) :
    place sz x y l = y :: x :: l := if_neg fun hc => hc.2 (h hc.1)

/-- The place that the loop of `HeapListInsert` finds, if it finds one. -/
def insertGo (sz : ℕ → ℕ) (x : ℕ) : List ℕ → Option (List ℕ)
  | [] => none
  | [y] => if sz y ≤ sz x then some (place sz x y []) else none
  | y :: z :: l =>
    if sz y ≤ sz x ∧ sz x < sz z then some (place sz x y (z :: l))
    else (insertGo sz x (z :: l)).map (y :: ·)

/-- The list after `HeapListInsert`.  When no place was found, `x` is linked in front of the
last node and becomes the head: every other node is lost. -/
def listInsert (sz : ℕ → ℕ) (x : ℕ) (l : List ℕ) : List ℕ :=
  if l = [] then [x] else (insertGo sz x l).getD [x, l.getLastD 0]

/-- The first node has no predecessor. -/
def FirstPrev (s : State) (l : List ℕ) : Prop := ∀ b ∈ l.head?, prv s b = 0

theorem getLastD_mem {l : List ℕ} {a : ℕ} (h : l.getLastD a ≠ a) : l.getLastD a ∈ l := by
  have hm : l.getLastD a ∈ a :: l := List.getLastD_mem_cons
  exact (List.mem_cons.mp hm).resolve_left h

theorem headD_mem {l : List ℕ} (h : l.headD 0 ≠ 0) : l.headD 0 ∈ l := by
  cases l with
  | nil => exact absurd rfl h
  | cons a l => exact List.mem_cons_self

namespace Inserted

variable {l₁ l₂ : List ℕ}

theorem linked (h : Inserted S s s' x (l₁.getLastD 0) (l₂.headD 0)) (hS : Spread S) (hx : x ∈ S)
    (hl : ∀ b ∈ l₁ ++ l₂, b ∈ S) (hd : (l₁ ++ l₂).Nodup) (hxl : x ∉ l₁ ++ l₂)
    (hL : Linked (nxt s) (prv s) 0 (l₁ ++ l₂)) :
    Linked (nxt s') (prv s') 0 (l₁ ++ x :: l₂) := by
  have hx₀ := hS.pos x hx
  refine hL.insert (List.nodup_cons.mpr ⟨fun h₀ => hS.pos 0 (hl 0 h₀) rfl, hd⟩) hx₀
    (fun b hb hbp => h.nx b ?_ hbp ?_) (fun b hb hbn => h.pv b (hl b hb) hbn ?_) h.nx_pred h.nx_new
    (fun _ => h.pv_new) h.pv_succ
  · exact (List.mem_cons.mp hb).imp id (hl b)
  · rintro rfl
    exact (List.mem_cons.mp hb).elim hx₀ hxl
  · rintro rfl
    exact hxl hb

theorem firstPrev (h : Inserted S s s' x (l₁.getLastD 0) (l₂.headD 0)) (hS : Spread S)
    (hl : ∀ b ∈ l₁ ++ l₂, b ∈ S) (hd : (l₁ ++ l₂).Nodup) (hxl : x ∉ l₁ ++ l₂)
    (hF : FirstPrev s (l₁ ++ l₂)) : FirstPrev s' (l₁ ++ x :: l₂) := by
  cases l₁ with
  | nil =>
      intro b hb
      obtain rfl : x = b := by simpa using hb
      exact h.pv_new
  | cons c l₁ =>
      intro b hb
      obtain rfl : c = b := by simpa using hb
      have hc : c ∈ c :: l₁ ++ l₂ := List.mem_append_left _ List.mem_cons_self
      refine (h.pv c (hl c hc) (fun e => ?_) fun e => hxl (e ▸ hc)).trans (hF c (by simp))
      have hne : l₂.headD 0 ≠ 0 := e ▸ hS.pos c (hl c hc)
      exact (List.nodup_cons.mp hd).1 (List.mem_append_right _ (e ▸ headD_mem hne))

/-- The branch that loses the list: only the last node stays behind `x`. -/
theorem linked_last {y : ℕ} (h : Inserted S s s' x 0 y) (hx : x ≠ 0) (hxy : x ≠ y) (hy : y ∈ S)
    (hy₀ : y ≠ 0) (hn : nxt s y = 0) : Linked (nxt s') (prv s') 0 [x, y] :=
  ⟨h.nx_pred, hx, fun h₀ => absurd rfl h₀, h.nx_new, hy₀, fun _ => h.pv_succ hy₀,
    (h.nx y (.inr hy) hy₀ (Ne.symm hxy)).trans hn⟩

end Inserted

/-- In front of `ptr` stands the head pointer or the node that `prev` names. -/
theorem insertBefore_place (hS : Spread S) (hx : x ∈ S) {l₁ l₂ : List ℕ}
    (hl : ∀ b ∈ l₁ ++ ptr :: l₂, b ∈ S) (hd : (l₁ ++ ptr :: l₂).Nodup) (hxl : x ∉ l₁ ++ ptr :: l₂)
    (hL : Linked (nxt s) (prv s) 0 (l₁ ++ ptr :: l₂))
    (h : (insertBefore x ptr).run s = .ok ((), s')) :
    LinkStep S s s' ∧ Inserted S s s' x (l₁.getLastD 0) ptr := by
  have hptr : ptr ∈ l₁ ++ ptr :: l₂ := by simp
  have hhead : ptr = s.heap.head ↔ l₁ = [] := by
    cases l₁ with
    | nil => exact ⟨fun _ => rfl, fun _ => hL.1.symm⟩
    | cons c l₁ =>
        refine ⟨fun e => ?_, fun e => absurd e (by simp)⟩
        have hc : s.heap.head = c := hL.1
        exact absurd (e.trans hc) fun e => by simp [e] at hd
  have hlast : l₁ ≠ [] → l₁.getLastD 0 ∈ l₁ := by
    intro hne
    cases l₁ with
    | nil => exact absurd rfl hne
    | cons c l₁ => rw [List.getLastD_cons]; exact List.getLastD_mem_cons
  have hin : l₁ ≠ [] → l₁.getLastD 0 ∈ S := fun hne => hl _ (List.mem_append_left _ (hlast hne))
  refine insertBefore_inserted hS hx (hl ptr hptr) (fun e => hxl (e ▸ hptr)) ?_
    (fun hh => hin fun e => hh (hhead.mpr e)) ?_ h
  · split
    next e => rw [hhead.mp e]; rfl
    next e => exact (hL.pv_eq (hS.pos _ (hin fun e' => e (hhead.mpr e')))).symm
  · intro e
    by_cases hne : l₁ = []
    · rw [hne] at e
      exact hS.pos x hx e
    · exact hxl (List.mem_append_left _ (e ▸ hlast hne))

/-- Where the insertion puts `x`: at the place that `insertGo` finds, or in front of the
last node. -/
theorem heapListInsertLoop_place (hS : Spread S) (hx : x ∈ S) {l₁ l₂ : List ℕ} {fuel : ℕ}
    (hl : ∀ b ∈ l₁ ++ ptr :: l₂, b ∈ S) (hd : (l₁ ++ ptr :: l₂).Nodup) (hxl : x ∉ l₁ ++ ptr :: l₂)
    (hL : Linked (nxt s) (prv s) 0 (l₁ ++ ptr :: l₂))
    (h : (heapListInsertLoop x fuel ptr).run s = .ok ((), s')) :
    LinkStep S s s' ∧
    ((∃ k₁ k₂, insertGo (getField s.sys.mem .size) x (ptr :: l₂) = some (k₁ ++ x :: k₂) ∧
        ptr :: l₂ = k₁ ++ k₂ ∧
        Inserted S s s' x ((l₁ ++ k₁).getLastD 0) (k₂.headD 0)) ∨
      (insertGo (getField s.sys.mem .size) x (ptr :: l₂) = none ∧
        Inserted S s s' x 0 (l₂.getLastD ptr))) := by
  induction l₂ generalizing l₁ ptr fuel with
  | nil =>
      have hptr : ptr ∈ l₁ ++ [ptr] := by simp
      have hp := hl ptr hptr
      have hxp : x ≠ ptr := fun e => hxl (e ▸ hptr)
      have hn : getField s.sys.mem .next ptr = 0 := by
        have := hL.nx_eq
        rwa [nxt, if_neg (hS.pos ptr hp)] at this
      cases fuel with
      | zero => simp [heapListInsertLoop] at h
      | succ fuel =>
          obtain ⟨-, h⟩ | ⟨hn', -⟩ | ⟨hn', -⟩ := heapListInsertLoop_cases h
          · obtain ⟨hle, ⟨hlt, h⟩ | ⟨he, hlt, h⟩⟩ | ⟨hlt, rfl⟩ := heapListInsertTail_cases h
            · obtain ⟨hs, hI⟩ := insertLast_inserted hS hx hp hxp h
              refine ⟨hs, .inl ⟨[ptr], [], ?_, rfl, by rwa [List.getLastD_concat]⟩⟩
              rw [insertGo, if_pos hle, place_behind fun e => hlt e.symm]
              rfl
            · obtain ⟨hs, hI⟩ := insertBefore_place hS hx hl hd hxl hL h
              refine ⟨hs, .inl ⟨[], [ptr], ?_, rfl, by rwa [List.append_nil]⟩⟩
              rw [insertGo, if_pos hle, place_before he.symm hlt]
              rfl
            · obtain ⟨hs, hI⟩ := dropInsert_inserted hS hx hp hxp rfl
              refine ⟨hs, .inr ⟨?_, hI⟩⟩
              rw [insertGo, if_neg (Nat.not_le.mpr hlt)]
          · exact absurd hn hn'
          · exact absurd hn hn'
  | cons z l₂ ih =>
      have hptr : ptr ∈ l₁ ++ ptr :: z :: l₂ := by simp
      have hz : z ∈ l₁ ++ ptr :: z :: l₂ := by simp
      have hp := hl ptr hptr
      have hxp : x ≠ ptr := fun e => hxl (e ▸ hptr)
      have hxz : x ≠ z := fun e => hxl (e ▸ hz)
      have hn : getField s.sys.mem .next ptr = z := by
        have := hL.nx_eq
        rwa [nxt, if_neg (hS.pos ptr hp)] at this
      cases fuel with
      | zero => simp [heapListInsertLoop] at h
      | succ fuel =>
          obtain ⟨hn', -⟩ | ⟨-, hfit, ⟨he, hlt, h⟩ | ⟨hlt, h⟩⟩ | ⟨-, hfit, h⟩ :=
            heapListInsertLoop_cases h
          · exact absurd (hn.symm.trans hn') (hS.pos z (hl z hz))
          · obtain ⟨hs, hI⟩ := insertBefore_place hS hx hl hd hxl hL h
            refine ⟨hs, .inl ⟨[], ptr :: z :: l₂, ?_, rfl, by rwa [List.append_nil]⟩⟩
            rw [hn] at hfit
            rw [insertGo, if_pos hfit, place_before he hlt]
            rfl
          · rw [hn] at hfit
            obtain ⟨hs, hI⟩ := insertBetween_inserted hS hx hp hxp (hn ▸ hl z hz) (hn ▸ hxz) h
            refine ⟨hs, .inl ⟨[ptr], z :: l₂, ?_, rfl, ?_⟩⟩
            · rw [insertGo, if_pos hfit, place_behind hlt]
              rfl
            · rw [List.getLastD_concat]
              exact hn ▸ hI
          · rw [hn] at h hfit
            have e : l₁ ++ ptr :: z :: l₂ = (l₁ ++ [ptr]) ++ z :: l₂ := by simp
            rw [e] at hl hd hxl hL
            obtain ⟨hs, ⟨k₁, k₂, hk, hkz, hI⟩ | ⟨hk, hI⟩⟩ := ih hl hd hxl hL h
            · refine ⟨hs, .inl ⟨ptr :: k₁, k₂, ?_, by rw [hkz]; rfl, ?_⟩⟩
              · rw [insertGo, if_neg hfit, hk]
                rfl
              · rwa [List.append_assoc] at hI
            · refine ⟨hs, .inr ⟨?_, by rwa [List.getLastD_cons]⟩⟩
              rw [insertGo, if_neg hfit, hk]
              rfl

/-- **`HeapListInsert` on a linked list** computes `listInsert`. -/
theorem heapListInsert_linked (hS : Spread S) (hx : x ∈ S) {l : List ℕ} (hl : ∀ b ∈ l, b ∈ S)
    (hd : l.Nodup) (hxl : x ∉ l) (hL : Linked (nxt s) (prv s) 0 l) (hF : FirstPrev s l)
    (h : (heapListInsert x).run s = .ok ((), s')) :
    LinkStep S s s' ∧
      Linked (nxt s') (prv s') 0 (listInsert (getField s.sys.mem .size) x l) ∧
      FirstPrev s' (listInsert (getField s.sys.mem .size) x l) := by
  simp only [heapListInsert, run_bind_eq_ok, run_ite_eq_ok, getHeap_eq_ok, setHeap_eq_ok,
    set_eq_ok] at h
  obtain ⟨_, _, ⟨rfl, rfl⟩, ⟨hne, _, _, hv, h⟩ | ⟨he, _, _, rfl, _, _, ⟨-, rfl⟩, -, rfl⟩⟩ := h
  · obtain rfl := validateCookie_eq_ok hv
    cases l with
    | nil => exact absurd hL hne
    | cons c l =>
        obtain rfl : s.heap.head = c := hL.1
        have hl₀ : ∀ b ∈ [] ++ s.heap.head :: l, b ∈ S := hl
        obtain ⟨hs, ⟨k₁, k₂, hk, hkl, hI⟩ | ⟨hk, hI⟩⟩ :=
          heapListInsertLoop_place hS hx hl₀ hd hxl hL h
        · rw [List.nil_append] at hI
          have e : listInsert (getField s.sys.mem .size) x (s.heap.head :: l) = k₁ ++ x :: k₂ := by
            simp [listInsert, hk]
          rw [hkl] at hl hd hxl hL hF
          rw [e]
          exact ⟨hs, hI.linked hS hx hl hd hxl hL, hI.firstPrev hS hl hd hxl hF⟩
        · have e : listInsert (getField s.sys.mem .size) x (s.heap.head :: l) =
              [x, l.getLastD s.heap.head] := by
            simp only [listInsert, hk, List.getLastD_cons]
            simp
          have hm : l.getLastD s.heap.head ∈ s.heap.head :: l := List.getLastD_mem_cons
          rw [e]
          refine ⟨hs, hI.linked_last (hS.pos x hx) (fun e => hxl (e ▸ hm)) (hl _ hm)
            (hS.pos _ (hl _ hm)) ?_, ?_⟩
          · obtain ⟨k, hk⟩ : ∃ k, s.heap.head :: l = k ++ [l.getLastD s.heap.head] :=
              ⟨(s.heap.head :: l).dropLast, by
                rw [← List.getLast_eq_getLastD (List.cons_ne_nil _ _), List.dropLast_append_getLast]⟩
            rw [hk] at hL
            exact hL.nx_eq
          · intro b hb
            obtain rfl : x = b := by simpa using hb
            exact hI.pv_new
  · have hl₀ : l = [] := by
      cases l with
      | nil => rfl
      | cons c l => exact absurd (hL.1.symm.trans (not_not.mp he)) hL.2.1
    subst hl₀
    have hx₀ := hS.pos x hx
    have h₀ := isWord_zero
    refine ⟨(((LinkStep.refl S s).setHead x).setNext hx 0).setPrev hx 0, ?_, ?_⟩
    · simp [listInsert, Linked, nxt, hS.get_setNext, hS.get_setPrev, *]
    · intro b hb
      obtain rfl : x = b := by simpa [listInsert] using hb
      simp [prv, hS.get_setPrev, *]

/-! ### Removal -/

/-- What `HeapListRemove` does: the neighbours that `block` names are linked to each other. -/
theorem heapListRemove_unlinked (hS : Spread S) {block : ℕ} (hb : block ∈ S)
    (hnull : s.sys.mem.page 0 = false) (hn : LinkIn S (nxt s block))
    (hp : LinkIn S (prv s block)) (h : (heapListRemove block).run s = .ok ((), s')) :
    LinkStep S s s' ∧
      Unlinked S s s' (if block = s.heap.head then 0 else prv s block) (nxt s block) := by
  have hb₀ := hS.pos block hb
  have hb₁ := hS.lt block hb
  have h₀ := isWord_zero
  simp only [nxt, if_neg hb₀] at hn ⊢
  simp only [heapListRemove, run_bind_eq_ok, run_ite_eq_ok, getHeap_eq_ok, setHeap_eq_ok,
    get_eq_ok, set_eq_ok, pure_eq_ok] at h
  obtain ⟨_, _, hv, _, _, ⟨rfl, rfl⟩, _, _, hv', _, _, ⟨rfl, rfl⟩, h⟩ := h
  obtain rfl := validateCookie_eq_ok hv
  obtain rfl := validateCookie_eq_ok hv'
  rcases h with ⟨he, _, _, ⟨-, rfl, rfl⟩, _, _, rfl, h⟩ | ⟨he, _, _, ⟨-, rfl, rfl⟩, h⟩
  · rw [if_pos he]
    generalize getField s.sys.mem .next block = next at *
    rcases h with ⟨hne, -, rfl⟩ | ⟨hne, -, rfl⟩
    · have hn := hn.resolve_left hne
      refine ⟨((LinkStep.refl S s).setHead next).setPrev hn 0, ?_⟩
      constructor
      · rintro b (rfl | hb) hbp
        · exact absurd rfl hbp
        · simp [nxt, hS.get_setPrev, hn, hb, h₀, hbp]
      · simp [nxt]
      · intro b hb hbn
        simp [prv, hS.get_setPrev, hn, hb, h₀, Ne.symm hbn]
      · intro _
        simp [prv, hS.get_setPrev, hn, h₀]
    · obtain rfl := not_not.mp hne
      refine ⟨(LinkStep.refl S s).setHead 0, ?_⟩
      constructor
      · rintro b (rfl | hb) hbp
        · exact absurd rfl hbp
        · simp [nxt, hbp]
      · simp [nxt]
      · exact fun b _ _ => rfl
      · exact fun h => absurd rfl h
  · rw [if_neg he]
    have hp₁ := hS.linkIn_isWord hp
    have hn₁ := hS.linkIn_isWord hn
    obtain ⟨_, s₁, h₁, _, _, ⟨-, rfl, rfl⟩, _, _, hv, _, _, ⟨-, rfl, rfl⟩, hacc, rfl⟩ := h
    obtain rfl := validateCookie_eq_ok hv
    simp only [prv] at hp hp₁ ⊢
    generalize hne : getField s.sys.mem .next block = next at *
    generalize hpe : getField s.sys.mem .prev block = prev at *
    -- the access to `prev->next` returned, so `prev` is not `NULL`
    have hnz' : ∀ m : Memory, m.page = s.sys.mem.page →
        m.accessible (prev + Field.next.offset) Field.next.width = true → prev ∈ S := by
      intro m hm hacc
      refine hp.resolve_left fun h₀ => ?_
      rw [h₀, not_accessible_null (by rw [hm]; exact hnull) (by decide) (by decide)] at hacc
      cases hacc
    rcases h₁ with ⟨hnz, _, _, ⟨-, rfl, rfl⟩, _, _, ⟨-, rfl⟩, _, _, ⟨-, rfl, rfl⟩, hv⟩ | ⟨hnz, -, rfl⟩
    · obtain rfl := validateCookie_eq_ok hv
      have hn := hn.resolve_left hnz
      simp only [State.setMem_mem, hpe, hS.get_setPrev hn hb hp₁, ite_self, hne, reduceCtorEq,
        false_and, if_false] at hacc ⊢
      have hp := hnz' _ rfl hacc
      have hp₀ := hS.pos _ hp
      refine ⟨((LinkStep.refl S s).setPrev hn prev).setNext hp next, ?_⟩
      constructor
      · rintro b (rfl | hb) hbp
        · simp [nxt]
        · simp [nxt, hS.get_setPrev, hS.get_setNext, *, Ne.symm hbp]
      · simp [nxt, hS.get_setNext, *]
      · intro b hb hbn
        simp [prv, hS.get_setPrev, hS.get_setNext, *, Ne.symm hbn]
      · intro _
        simp [prv, hS.get_setPrev, hS.get_setNext, *]
    · obtain rfl := not_not.mp hnz
      rw [hpe] at hacc ⊢
      rw [hne]
      have hp := hnz' _ rfl hacc
      have hp₀ := hS.pos _ hp
      refine ⟨(LinkStep.refl S s).setNext hp 0, ?_⟩
      constructor
      · rintro b (rfl | hb) hbp
        · simp [nxt]
        · simp [nxt, hS.get_setNext, *, Ne.symm hbp]
      · simp [nxt, hS.get_setNext, *]
      · intro b hb hbn
        simp [prv, hS.get_setNext, *]
      · exact fun h => absurd rfl h

/-- What is read around a node of a list: its successor and, unless it is the head, its
predecessor. -/
theorem linked_around (hS : Spread S) {block : ℕ} {l₁ l₂ : List ℕ}
    (hl : ∀ b ∈ l₁ ++ block :: l₂, b ∈ S) (hd : (l₁ ++ block :: l₂).Nodup)
    (hL : Linked (nxt s) (prv s) 0 (l₁ ++ block :: l₂)) (hF : FirstPrev s (l₁ ++ block :: l₂)) :
    (nxt s block = l₂.headD 0 ∧ LinkIn S (nxt s block)) ∧
      (if block = s.heap.head then 0 else prv s block) = l₁.getLastD 0 ∧
      LinkIn S (prv s block) := by
  have hnx : nxt s block = l₂.headD 0 := hL.nx_eq
  refine ⟨⟨hnx, ?_⟩, ?_⟩
  · rw [hnx]
    by_cases he : l₂.headD 0 = 0
    · exact .inl he
    · exact .inr (hl _ (List.mem_append_right _ (List.mem_cons_of_mem _ (headD_mem he))))
  · cases l₁ with
    | nil =>
        have he : s.heap.head = block := hL.1
        exact ⟨if_pos he.symm, .inl (hF block (by simp))⟩
    | cons c l₁ =>
        have hm : (c :: l₁).getLastD 0 ∈ c :: l₁ := by
          rw [List.getLastD_cons]; exact List.getLastD_mem_cons
        have hmS := hl _ (List.mem_append_left _ hm)
        have hpv := hL.pv_eq (hS.pos _ hmS)
        have hne : block ≠ s.heap.head := by
          rw [show s.heap.head = c from hL.1]
          intro e
          exact (List.nodup_cons.mp hd).1 (e ▸ by simp)
        exact ⟨(if_neg hne).trans hpv, .inr (hpv ▸ hmS)⟩

namespace Unlinked

variable {block : ℕ} {l₁ l₂ : List ℕ}

theorem mem_of_mem (hl : ∀ b ∈ l₁ ++ block :: l₂, b ∈ S) : ∀ b ∈ l₁ ++ l₂, b ∈ S := fun b hb =>
  hl b ((List.mem_append.mp hb).elim (List.mem_append_left _)
    fun h => List.mem_append_right _ (List.mem_cons_of_mem _ h))

theorem linked (hU : Unlinked S s s' (l₁.getLastD 0) (l₂.headD 0)) (hS : Spread S)
    (hl : ∀ b ∈ l₁ ++ block :: l₂, b ∈ S) (hd : (l₁ ++ block :: l₂).Nodup)
    (hL : Linked (nxt s) (prv s) 0 (l₁ ++ block :: l₂)) :
    Linked (nxt s') (prv s') 0 (l₁ ++ l₂) := by
  have hd₀ : (0 :: (l₁ ++ block :: l₂)).Nodup :=
    List.nodup_cons.mpr ⟨fun h₀ => hS.pos 0 (hl 0 h₀) rfl, hd⟩
  have hsub := mem_of_mem hl
  refine hL.remove hd₀ (fun b hb hbp => hU.nx b ?_ hbp)
    (fun b hb hbn => hU.pv b (hsub b hb) hbn) hU.nx_pred fun h₁ _ => hU.pv_succ h₁
  exact (List.mem_cons.mp hb).imp id (hsub b)

theorem firstPrev (hU : Unlinked S s s' (l₁.getLastD 0) (l₂.headD 0)) (hS : Spread S)
    (hl : ∀ b ∈ l₁ ++ block :: l₂, b ∈ S) (hd : (l₁ ++ block :: l₂).Nodup)
    (hF : FirstPrev s (l₁ ++ block :: l₂)) : FirstPrev s' (l₁ ++ l₂) := by
  have hsub := mem_of_mem hl
  cases l₁ with
  | nil =>
      intro b hb
      cases l₂ with
      | nil => simp at hb
      | cons c l₂ =>
          obtain rfl : c = b := by simpa using hb
          exact hU.pv_succ (hS.pos _ (hsub c (by simp)))
  | cons c l₁ =>
      intro b hb
      obtain rfl : c = b := by simpa using hb
      refine (hU.pv c (hsub c (by simp)) fun e => ?_).trans (hF c (by simp))
      have hne : l₂.headD 0 ≠ 0 := e ▸ hS.pos c (hsub c (by simp))
      exact (List.nodup_cons.mp hd).1
        (List.mem_append_right _ (List.mem_cons_of_mem _ (e ▸ headD_mem hne)))

end Unlinked

/-- **`HeapListRemove` on a linked list** takes the block out. -/
theorem heapListRemove_linked (hS : Spread S) (hnull : s.sys.mem.page 0 = false) {block : ℕ}
    {l₁ l₂ : List ℕ} (hl : ∀ b ∈ l₁ ++ block :: l₂, b ∈ S) (hd : (l₁ ++ block :: l₂).Nodup)
    (hL : Linked (nxt s) (prv s) 0 (l₁ ++ block :: l₂)) (hF : FirstPrev s (l₁ ++ block :: l₂))
    (h : (heapListRemove block).run s = .ok ((), s')) :
    LinkStep S s s' ∧ Linked (nxt s') (prv s') 0 (l₁ ++ l₂) ∧ FirstPrev s' (l₁ ++ l₂) := by
  obtain ⟨⟨hnx, hsucc⟩, hpred, hprev⟩ := linked_around hS hl hd hL hF
  obtain ⟨hs, hU⟩ := heapListRemove_unlinked hS (hl block (by simp)) hnull hsucc hprev h
  rw [hpred, hnx] at hU
  exact ⟨hs, hU.linked hS hl hd hL, hU.firstPrev hS hl hd hF⟩

/-- On any list, `HeapListRemove` keeps the links closed. -/
theorem heapListRemove_closed (hS : Spread S) (hnull : s.sys.mem.page 0 = false) {block : ℕ}
    (hb : block ∈ S) (hC : Closed S s) (h : (heapListRemove block).run s = .ok ((), s')) :
    LinkStep S s s' ∧ Closed S s' := by
  obtain ⟨hs, hU⟩ := heapListRemove_unlinked hS hb hnull (hC.nx _ (.inr hb)) (hC.pv _ hb) h
  refine ⟨hs, fun b hb' => ?_, fun b hb' => ?_⟩
  · by_cases he : b = if block = s.heap.head then 0 else prv s block
    · rw [he, hU.nx_pred]
      exact hC.nx _ (.inr hb)
    · rw [hU.nx b hb' he]
      exact hC.nx b hb'
  · by_cases he : b = nxt s block
    · rw [he, hU.pv_succ (he ▸ hS.pos b hb')]
      split
      · exact .inl rfl
      · exact hC.pv _ hb
    · rw [hU.pv b hb' he]
      exact hC.pv b hb'

/-! ### Insertion into any list -/

/-- A link that is written: the field, the header and the value. -/
structure LinkWrite where
  field : Field
  node : ℕ
  value : ℕ

/-- The memory after some links were written. -/
def writeLinks (m : Memory) : List LinkWrite → Memory
  | [] => m
  | w :: ws => writeLinks (setField m w.field w.node w.value) ws

/-- A write of a link of a header in `T` that stays in `T`. -/
def LinkWrite.In (T : Set ℕ) (w : LinkWrite) : Prop :=
  (w.field = .next ∨ w.field = .prev) ∧ w.node ∈ T ∧ LinkIn T w.value

theorem linkIn_writeLinks {T : Set ℕ} (hT : Spread T) {ws : List LinkWrite}
    (hws : ∀ w ∈ ws, w.In T) {m : Memory} {g : Field} {b : ℕ} (hb : b ∈ T)
    (h : (∃ w ∈ ws, w.field = g ∧ w.node = b) ∨ LinkIn T (getField m g b)) :
    LinkIn T (getField (writeLinks m ws) g b) := by
  induction ws generalizing m with
  | nil => exact h.resolve_left (by simp)
  | cons w ws ih =>
      obtain ⟨hf, hn, hv⟩ := hws w List.mem_cons_self
      have hw : IsWord w.value := hT.linkIn_isWord hv
      have hg : getField (setField m w.field w.node w.value) g b =
          if w.field = g ∧ w.node = b then w.value else getField m g b := by
        refine getField_setField (hT.apart _ hn _ hb) ?_
        rcases hf with hf | hf <;> simpa [hf, Field.width, IsWord] using hw
      refine ih (fun w hw => hws w (List.mem_cons_of_mem _ hw)) ?_
      rw [hg]
      split
      next => exact .inr hv
      next e =>
        rcases h with ⟨w', hw', he⟩ | h
        · rcases List.mem_cons.mp hw' with rfl | hw'
          · exact absurd he e
          · exact .inl ⟨w', hw', he⟩
        · exact .inr h

theorem LinkStep.writeLinks {T : Set ℕ} {ws : List LinkWrite} (hws : ∀ w ∈ ws, w.In T)
    (h : LinkStep T s s') : LinkStep T s (s'.setMem (writeLinks s'.sys.mem ws)) := by
  induction ws generalizing s' with
  | nil => exact h
  | cons w ws ih =>
      obtain ⟨hf, hn, -⟩ := hws w List.mem_cons_self
      exact ih (fun w hw => hws w (List.mem_cons_of_mem _ hw)) (h.setLink hf hn w.value)

/-- Linking `x` by some writes and a new head keeps the links closed. -/
theorem Closed.link (ws : List LinkWrite) {v : ℕ} (hT : Spread (insert x S)) (hC : Closed S s)
    (hws : ∀ w ∈ ws, w.In (insert x S)) (hn : ∃ w ∈ ws, w.field = .next ∧ w.node = x)
    (hp : ∃ w ∈ ws, w.field = .prev ∧ w.node = x) (hv : LinkIn (insert x S) v) :
    LinkStep (insert x S) s
      ((s.setMem (writeLinks s.sys.mem ws)).mapHeap fun h => { h with head := v }) ∧
    Closed (insert x S)
      ((s.setMem (writeLinks s.sys.mem ws)).mapHeap fun h => { h with head := v }) := by
  have hsub : S ⊆ insert x S := Set.subset_insert x S
  refine ⟨((LinkStep.refl _ s).writeLinks hws).setHead v, fun b hb => ?_, fun b hb => ?_⟩
  · rcases hb with rfl | hb
    · exact hv
    · rw [nxt, if_neg (hT.pos b hb)]
      refine linkIn_writeLinks hT hws hb ((Set.mem_insert_iff.mp hb).imp ?_ fun hb' => ?_)
      · rintro rfl
        exact hn
      · have := (hC.nx b (.inr hb')).mono hsub
        rwa [nxt, if_neg (hT.pos b hb)] at this
  · refine linkIn_writeLinks hT hws hb ((Set.mem_insert_iff.mp hb).imp ?_ fun hb' => ?_)
    · rintro rfl
      exact hp
    · exact (hC.pv b hb').mono hsub

/-- `prev->next` was written, so `prev` is not `NULL`. -/
theorem insertBefore_prev_ne (hnull : s.sys.mem.page 0 = false) (hne : ptr ≠ s.heap.head)
    (h : (insertBefore x ptr).run s = .ok ((), s')) : getField s.sys.mem .prev ptr ≠ 0 := by
  simp only [insertBefore, run_bind_eq_ok, run_ite_eq_ok, get_eq_ok, set_eq_ok, getHeap_eq_ok,
    setHeap_eq_ok] at h
  obtain ⟨_, _, ⟨rfl, rfl⟩, ⟨hp, -⟩ | ⟨-, h⟩⟩ := h
  · exact absurd hp hne
  · obtain ⟨_, _, ⟨-, rfl, rfl⟩, _, _, ⟨-, rfl⟩, _, _, ⟨-, rfl⟩, _, _, ⟨-, rfl⟩, hacc, -⟩ := h
    intro h₀
    rw [h₀, not_accessible_null (by exact hnull) (by decide) (by decide)] at hacc
    cases hacc

section

variable (hT : Spread (insert x S)) (hnull : s.sys.mem.page 0 = false) (hC : Closed S s)
include hT hnull hC

theorem insertBefore_closed (hp : ptr ∈ S) (h : (insertBefore x ptr).run s = .ok ((), s')) :
    LinkStep (insert x S) s s' ∧ Closed (insert x S) s' := by
  have hx : x ∈ insert x S := Set.mem_insert x S
  have hsub : S ⊆ insert x S := Set.subset_insert x S
  have hxL : LinkIn (insert x S) x := .inr hx
  have hpL : LinkIn (insert x S) ptr := .inr (hsub hp)
  have h0L : LinkIn (insert x S) 0 := .inl rfl
  obtain ⟨-, rfl⟩ | ⟨hne, rfl⟩ := insertBefore_eq h
  · exact hC.link [⟨.next, x, ptr⟩, ⟨.prev, x, 0⟩, ⟨.prev, ptr, x⟩] hT
      (by simp [LinkWrite.In, hx, hsub hp, hxL, hpL, h0L, -Set.mem_insert_iff]) (by simp) (by simp) hxL
  · have hq : getField s.sys.mem .prev ptr ∈ S :=
      (hC.pv ptr hp).resolve_left (insertBefore_prev_ne hnull hne h)
    have hqL : LinkIn (insert x S) (getField s.sys.mem .prev ptr) := .inr (hsub hq)
    exact hC.link [⟨.next, x, ptr⟩, ⟨.prev, x, getField s.sys.mem .prev ptr⟩,
      ⟨.prev, ptr, x⟩, ⟨.next, getField s.sys.mem .prev ptr, x⟩] hT
      (by simp [LinkWrite.In, hx, hsub hp, hsub hq, hxL, hpL, hqL, -Set.mem_insert_iff])
      (by simp) (by simp)
      ((hC.nx 0 (.inl rfl)).mono hsub)

theorem heapListInsertLoop_closed {fuel : ℕ} (hp : ptr ∈ S)
    (h : (heapListInsertLoop x fuel ptr).run s = .ok ((), s')) :
    LinkStep (insert x S) s s' ∧ Closed (insert x S) s' := by
  have hx : x ∈ insert x S := Set.mem_insert x S
  have hsub : S ⊆ insert x S := Set.subset_insert x S
  have hxL : LinkIn (insert x S) x := .inr hx
  have h0L : LinkIn (insert x S) 0 := .inl rfl
  have hhL : LinkIn (insert x S) s.heap.head := (hC.nx 0 (.inl rfl)).mono hsub
  induction fuel generalizing ptr with
  | zero => simp [heapListInsertLoop] at h
  | succ fuel ih =>
      have hpL : LinkIn (insert x S) ptr := .inr (hsub hp)
      have hn := hC.nx ptr (.inr hp)
      rw [nxt, if_neg (hT.pos ptr (hsub hp))] at hn
      obtain ⟨-, h⟩ | ⟨hn₀, -, ⟨-, -, h⟩ | ⟨-, h⟩⟩ | ⟨hn₀, -, h⟩ := heapListInsertLoop_cases h
      · obtain ⟨-, ⟨-, h⟩ | ⟨-, -, h⟩⟩ | ⟨-, rfl⟩ := heapListInsertTail_cases h
        · obtain rfl := insertLast_eq h
          exact hC.link [⟨.next, ptr, x⟩, ⟨.prev, x, ptr⟩, ⟨.next, x, 0⟩] hT
            (by simp [LinkWrite.In, hx, hsub hp, hxL, hpL, h0L, -Set.mem_insert_iff]) (by simp) (by simp) hhL
        · exact insertBefore_closed hT hnull hC hp h
        · exact hC.link [⟨.prev, ptr, x⟩, ⟨.next, x, ptr⟩, ⟨.prev, x, 0⟩] hT
            (by simp [LinkWrite.In, hx, hsub hp, hxL, hpL, h0L, -Set.mem_insert_iff]) (by simp) (by simp) hxL
      · exact insertBefore_closed hT hnull hC hp h
      · obtain rfl := insertBetween_eq h
        have hnS := hn.resolve_left hn₀
        have hnL : LinkIn (insert x S) (getField s.sys.mem .next ptr) := .inr (hsub hnS)
        exact hC.link [⟨.next, x, getField s.sys.mem .next ptr⟩, ⟨.prev, x, ptr⟩,
          ⟨.next, ptr, x⟩, ⟨.prev, getField s.sys.mem .next ptr, x⟩] hT
          (by simp [LinkWrite.In, hx, hsub hp, hsub hnS, hxL, hpL, hnL, -Set.mem_insert_iff])
          (by simp) (by simp)
          hhL
      · exact ih (hn.resolve_left hn₀) h

/-- On any list, `HeapListInsert` keeps the links closed: both links of `x` are set, and all
other changes are links to `x`. -/
theorem heapListInsert_closed (h : (heapListInsert x).run s = .ok ((), s')) :
    LinkStep (insert x S) s s' ∧ Closed (insert x S) s' := by
  simp only [heapListInsert, run_bind_eq_ok, run_ite_eq_ok, getHeap_eq_ok, setHeap_eq_ok,
    set_eq_ok] at h
  obtain ⟨_, _, ⟨rfl, rfl⟩, ⟨hne, _, _, hv, h⟩ | ⟨-, _, _, rfl, _, _, ⟨-, rfl⟩, -, rfl⟩⟩ := h
  · obtain rfl := validateCookie_eq_ok hv
    exact heapListInsertLoop_closed hT hnull hC ((hC.nx 0 (.inl rfl)).resolve_left hne) h
  · have hx : x ∈ insert x S := Set.mem_insert x S
    exact hC.link [⟨.next, x, 0⟩, ⟨.prev, x, 0⟩] hT
      (by simp [LinkWrite.In, LinkIn]) (by simp) (by simp) (.inr hx)

end

end OsProjects.Malloc3
