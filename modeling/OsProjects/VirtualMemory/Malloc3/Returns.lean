import Mathlib.Data.List.Perm.Subperm
import OsProjects.VirtualMemory.Malloc3.HeapList

/-! # The operations on the list return

A header is ready if it is mapped and has the right cookie.  On a linked list of ready headers
`HeapListInsert` and `HeapListRemove` return: they touch no other header, and the loop ends
because the list does. -/

namespace OsProjects.Malloc3

open Prog

variable {S : Set ℕ} {s s' : State} {p v x ptr block : ℕ} {f : Field} {l l₁ l₂ : List ℕ}

/-- A header that is mapped can be read and written. -/
theorem accessible_field {m : Memory} (h : m.accessible p sizeofMetadata = true) (f : Field) :
    m.accessible (p + f.offset) f.width = true := by
  have hf := f.offset_width_le
  have hacc := (Memory.accessible_iff _ _ _).mp h
  exact (Memory.accessible_iff _ _ _).mpr fun y h₁ h₂ => hacc y (by omega) (by omega)

theorem run_get_of (h : s.sys.mem.accessible p sizeofMetadata = true) :
    (get f p).run s = .ok (getField s.sys.mem f p, s) :=
  get_eq_ok.mpr ⟨accessible_field h f, rfl, rfl⟩

theorem run_set_of (h : s.sys.mem.accessible p sizeofMetadata = true) :
    (set f p v).run s = .ok ((), s.setMem (setField s.sys.mem f p v)) :=
  set_eq_ok.mpr ⟨accessible_field h f, rfl⟩

/-- The headers in `S` are mapped and have the right cookie. -/
structure Ready (S : Set ℕ) (s : State) : Prop where
  accessible : ∀ p ∈ S, s.sys.mem.accessible p sizeofMetadata = true
  cookie : ∀ p ∈ S, getField s.sys.mem .cookie p = s.mainCookie.toNat

namespace Ready

theorem run_get (h : Ready S s) (hp : p ∈ S) (f : Field) :
    (get f p).run s = .ok (getField s.sys.mem f p, s) := run_get_of (h.accessible p hp)

theorem run_set (h : Ready S s) (hp : p ∈ S) (f : Field) (v : ℕ) :
    (set f p v).run s = .ok ((), s.setMem (setField s.sys.mem f p v)) :=
  run_set_of (h.accessible p hp)

theorem run_validateCookie (h : Ready S s) (hp : LinkIn S p) :
    (validateCookie p).run s = .ok ((), s) := by
  unfold validateCookie
  obtain rfl | hp := hp
  · rfl
  · rw [run_ite]
    split
    · rw [run_bind_ok (h.run_get hp .cookie), run_bind_ok (run_gets _ s), h.cookie p hp]
      simp
    · rfl

/-- A store into another field of a header keeps the cookies. -/
theorem setMem (h : Ready S s) (hS : Spread S) (hp : p ∈ S) (hf : f ≠ .cookie) :
    Ready S (s.setMem (setField s.sys.mem f p v)) where
  accessible q hq := (Memory.accessible_of_page_eq rfl _ _).trans (h.accessible q hq)
  cookie q hq := by
    refine Eq.trans ?_ (h.cookie q hq)
    obtain rfl | hpq := hS.apart p hp q hq
    · exact getField_setField_field hf
    · exact getField_setField_apart hpq

theorem mapHeap (h : Ready S s) (g : MemoryList → MemoryList) : Ready S (s.mapHeap g) :=
  ⟨h.accessible, h.cookie⟩

theorem of_linkStep (h : Ready S s) (hS : Spread S) (hs : LinkStep S s s') : Ready S s' where
  accessible q hq := (Memory.accessible_of_page_eq hs.page _ _).trans (h.accessible q hq)
  cookie q hq := by rw [hs.getField_eq hS (by decide) hq, hs.cookie, h.cookie q hq]

end Ready

/-! ### Insertion -/

section insertion

variable (hS : Spread S) (hR : Ready S s) (hx : x ∈ S) (hp : ptr ∈ S)
include hS hR hx hp

theorem insertBetween_returns (hn : getField s.sys.mem .next ptr ∈ S) :
    (insertBetween x ptr).Returns s := by
  have h₁ := hR.setMem (v := getField s.sys.mem .next ptr) hS hx (f := .next) (by decide)
  have h₂ := h₁.setMem (v := ptr) hS hx (f := .prev) (by decide)
  have h₃ := h₂.setMem (v := x) hS hp (f := .next) (by decide)
  unfold insertBetween
  refine .bind_ok (hR.run_get hp .next) (.bind_ok (hR.run_set hx .next _) ?_)
  refine .bind_ok (h₁.run_set hx .prev _) (.bind_ok (h₂.run_set hp .next _) ?_)
  exact .of_ok (h₃.run_set hn .prev _)

theorem insertLast_returns : (insertLast x ptr).Returns s := by
  have h₁ := hR.setMem (v := x) hS hp (f := .next) (by decide)
  have h₂ := h₁.setMem (v := ptr) hS hx (f := .prev) (by decide)
  unfold insertLast
  refine .bind_ok (hR.run_set hp .next _) (.bind_ok (h₁.run_set hx .prev _) ?_)
  exact .of_ok (h₂.run_set hx .next _)

theorem insertBefore_returns (hpv : ptr ≠ s.heap.head → getField s.sys.mem .prev ptr ∈ S) :
    (insertBefore x ptr).Returns s := by
  unfold insertBefore
  refine .bind_ok (run_gets _ s) ?_
  refine .ite (fun _ => ?_) fun hne => ?_
  · have h₀ := hR.mapHeap fun h => { h with head := x }
    have h₁ := h₀.setMem (v := ptr) hS hx (f := .next) (by decide)
    have h₂ := h₁.setMem (v := 0) hS hx (f := .prev) (by decide)
    refine .bind_ok (run_modify _ s) (.bind_ok (h₀.run_set hx .next _) ?_)
    refine .bind_ok (h₁.run_set hx .prev _) ?_
    exact .of_ok (h₂.run_set hp .prev _)
  · have hprev := hpv hne
    have h₁ := hR.setMem (v := ptr) hS hx (f := .next) (by decide)
    have h₂ := h₁.setMem (v := getField s.sys.mem .prev ptr) hS hx (f := .prev) (by decide)
    have h₃ := h₂.setMem (v := x) hS hp (f := .prev) (by decide)
    refine .bind_ok (hR.run_get hp .prev) (.bind_ok (hR.run_set hx .next _) ?_)
    refine .bind_ok (h₁.run_set hx .prev _) (.bind_ok (h₂.run_set hp .prev _) ?_)
    exact .of_ok (h₃.run_set hprev .next _)

theorem heapListInsertTail_returns
    (hpv : ptr ≠ s.heap.head → getField s.sys.mem .prev ptr ∈ S) :
    (heapListInsertTail x ptr).Returns s := by
  unfold heapListInsertTail
  obtain ⟨r, hlast⟩ := insertLast_returns hS hR hx hp
  obtain ⟨r', hbefore⟩ := insertBefore_returns hS hR hx hp hpv
  have h₁ := hR.setMem (v := x) hS hp (f := .prev) (by decide)
  have h₂ := h₁.setMem (v := ptr) hS hx (f := .next) (by decide)
  refine .bind_ok (hR.run_get hp .size) ?_
  refine .bind_ok (hR.run_get hx .size) ?_
  refine .ite (fun _ => .ite (fun _ => .ite (fun _ => ⟨r, hlast⟩) fun _ => ⟨r', hbefore⟩)
    fun _ => ⟨r, hlast⟩) fun _ => ?_
  refine .bind_ok (hR.run_set hp .prev _) (.bind_ok (h₁.run_set hx .next _) ?_)
  exact .bind_ok (h₂.run_set hx .prev _) (returns_modify _ _)

end insertion

/-- A node that is not the first has its predecessor in the list. -/
theorem prev_mem (hl : ∀ b ∈ l₁ ++ ptr :: l₂, b ∈ S) (hL : Linked (nxt s) (prv s) 0 (l₁ ++ ptr :: l₂))
    (hne : ptr ≠ s.heap.head) : getField s.sys.mem .prev ptr ∈ S := by
  have hl₁ : l₁ ≠ [] := by
    rintro rfl
    exact hne hL.1.symm
  have hm := List.mem_append_left (ptr :: l₂) (getLastD_mem_of_ne_nil (a := 0) hl₁)
  have hpv : getField s.sys.mem .prev ptr = l₁.getLastD 0 := hL.pv_eq (hL.ne_zero _ hm)
  rw [hpv]
  exact hl _ hm

/-- The loop returns if it has a round for each of the nodes from `ptr` on. -/
theorem heapListInsertLoop_returns (hS : Spread S) (hR : Ready S s) (hx : x ∈ S)
    (hl : ∀ b ∈ l₁ ++ ptr :: l₂, b ∈ S) (hL : Linked (nxt s) (prv s) 0 (l₁ ++ ptr :: l₂))
    {fuel : ℕ} (hf : l₂.length < fuel) : (heapListInsertLoop x fuel ptr).Returns s := by
  induction l₂ generalizing l₁ ptr fuel with
  | nil =>
      obtain ⟨fuel, rfl⟩ := Nat.exists_eq_succ_of_ne_zero (Nat.ne_of_gt hf)
      have hp : ptr ∈ S := hl ptr (by simp)
      have hn : getField s.sys.mem .next ptr = 0 := by
        have := hL.nx_eq
        rwa [nxt, if_neg (hS.pos ptr hp)] at this
      unfold heapListInsertLoop
      refine .bind_ok (hR.run_get hp .next) ?_
      refine .ite (fun h => absurd hn h) fun _ => ?_
      exact heapListInsertTail_returns hS hR hx hp (prev_mem hl hL)
  | cons z l₂ ih =>
      obtain ⟨fuel, rfl⟩ := Nat.exists_eq_succ_of_ne_zero (Nat.ne_of_gt (Nat.zero_lt_of_lt hf))
      have hp : ptr ∈ S := hl ptr (by simp)
      have hz : z ∈ S := hl z (by simp)
      have hn : getField s.sys.mem .next ptr = z := by
        have := hL.nx_eq
        rwa [nxt, if_neg (hS.pos ptr hp)] at this
      have e : l₁ ++ ptr :: z :: l₂ = (l₁ ++ [ptr]) ++ z :: l₂ := by simp
      have hl' : ∀ b ∈ (l₁ ++ [ptr]) ++ z :: l₂, b ∈ S := e ▸ hl
      obtain ⟨r, hgo⟩ := ih hl' (e ▸ hL) (Nat.lt_of_succ_lt_succ hf)
      obtain ⟨r₁, hbetween⟩ := insertBetween_returns hS hR hx hp (hn ▸ hz)
      obtain ⟨r₂, hbefore⟩ := insertBefore_returns hS hR hx hp (prev_mem hl hL)
      unfold heapListInsertLoop
      refine .bind_ok (hR.run_get hp .next) ?_
      rw [hn]
      refine .ite (fun _ => ?_) fun h => absurd (hS.pos z hz) h
      refine .bind_ok (hR.run_validateCookie (.inr hx)) ?_
      refine .bind_ok (hR.run_get hx .size) ?_
      refine .bind_ok (hR.run_get hp .size) ?_
      have hfits : ∀ n m : ℕ, (if n ≤ m then (do return decide (m < (← get .size z)) : M Bool)
          else pure false).run s =
          .ok (if n ≤ m then decide (m < getField s.sys.mem .size z) else false, s) := by
        intro n m
        rw [run_ite]
        split
        · rw [run_bind_ok (hR.run_get hz .size)]
          rfl
        · rfl
      refine .bind_ok (hfits _ _) ?_
      refine .ite (fun _ => .ite (fun _ => .ite (fun _ => ⟨r₁, hbetween⟩) fun _ => ⟨r₂, hbefore⟩)
        fun _ => ⟨r₁, hbetween⟩) fun _ => ?_
      refine .bind_ok (hR.run_validateCookie (.inr hz)) ?_
      exact ⟨r, hgo⟩

/-- A list of different addresses is no longer than the address space. -/
theorem length_le_rounds (hS : Spread S) (hl : ∀ b ∈ l, b ∈ S) (hd : l.Nodup) :
    l.length ≤ rounds := by
  have hsub : l ⊆ List.range rounds := fun b hb => List.mem_range.mpr (hS.lt b (hl b hb))
  have := (hd.subperm hsub).length_le
  rwa [List.length_range] at this

/-- **`HeapListInsert` returns.** -/
theorem heapListInsert_returns (hS : Spread S) (hR : Ready S s) (hx : x ∈ S)
    (hl : ∀ b ∈ l, b ∈ S) (hd : l.Nodup) (hL : Linked (nxt s) (prv s) 0 l) :
    (heapListInsert x).Returns s := by
  unfold heapListInsert
  refine .bind_ok (run_gets _ s) ?_
  refine .ite (fun hne => ?_) fun _ => ?_
  · cases l with
    | nil => exact absurd hL hne
    | cons c l =>
        have hc : s.heap.head = c := hL.1
        have hlen := length_le_rounds hS hl hd
        rw [hc]
        refine .bind_ok (hR.run_validateCookie (.inr (hl c List.mem_cons_self))) ?_
        have hl₀ : ∀ b ∈ [] ++ c :: l, b ∈ S := hl
        exact heapListInsertLoop_returns hS hR hx hl₀ hL hlen
  · have h₀ := hR.mapHeap fun h => { h with head := x }
    have h₁ := h₀.setMem (v := 0) hS hx (f := .next) (by decide)
    refine .bind_ok (run_modify _ s) (.bind_ok (h₀.run_set hx .next _) ?_)
    exact .of_ok (h₁.run_set hx .prev _)

/-! ### Removal -/

/-- **`HeapListRemove` returns.** -/
theorem heapListRemove_returns (hS : Spread S) (hR : Ready S s)
    (hl : ∀ b ∈ l₁ ++ block :: l₂, b ∈ S) (hd : (l₁ ++ block :: l₂).Nodup)
    (hL : Linked (nxt s) (prv s) 0 (l₁ ++ block :: l₂)) (hF : FirstPrev s (l₁ ++ block :: l₂)) :
    (heapListRemove block).Returns s := by
  have hb : block ∈ S := hl block (by simp)
  have hb₀ := hS.pos block hb
  obtain ⟨⟨hnx, hnS⟩, hpred, hpS⟩ := linked_around hS hl hd hL hF
  have hhead : s.heap.head ∈ S := by
    cases l₁ with
    | nil =>
        have hc : s.heap.head = block := hL.1
        rwa [hc]
    | cons c l₁ =>
        have hc : s.heap.head = c := hL.1
        rw [hc]
        exact hl c (by simp)
  rw [nxt, if_neg hb₀] at hnx hnS
  unfold heapListRemove
  refine .bind_ok (hR.run_validateCookie (.inr hb)) (.bind_ok (run_gets _ s) ?_)
  refine .bind_ok (hR.run_validateCookie (.inr hhead)) (.bind_ok (run_gets _ s) ?_)
  refine .ite (fun _ => ?_) fun hne => ?_
  · refine .bind_ok (hR.run_get hb .next) (.bind_ok (run_modify _ s) ?_)
    refine .ite (fun hn₀ => ?_) fun _ => returns_pure _ _
    have h₀ := hR.mapHeap fun h => { h with head := getField s.sys.mem .next block }
    exact .of_ok (h₀.run_set (hnS.resolve_left hn₀) .prev _)
  · have hl₁ : l₁ ≠ [] := by
      rintro rfl
      exact hne hL.1.symm
    have hp : prv s block ∈ S := by
      rw [if_neg hne] at hpred
      rw [hpred]
      exact hl _ (List.mem_append_left _ (getLastD_mem_of_ne_nil hl₁))
    have hrest : ∀ t : State, Ready S t → getField t.sys.mem .prev block = prv s block →
        (do
          let prev ← get .prev block
          validateCookie prev
          set .next prev (← get .next block) : M Unit).Returns t := by
      intro t ht hpt
      refine .bind_ok (ht.run_get hb .prev) ?_
      rw [hpt]
      refine .bind_ok (ht.run_validateCookie (.inr hp)) (.bind_ok (ht.run_get hb .next) ?_)
      exact .of_ok (ht.run_set hp .next _)
    refine .bind_ok (hR.run_get hb .next) ?_
    by_cases hn₀ : getField s.sys.mem .next block = 0
    · rw [if_neg (not_not.mpr hn₀)]
      exact .bind_ok (run_pure _ s) (hrest s hR rfl)
    · rw [if_pos hn₀]
      have hn := hnS.resolve_left hn₀
      have hpw : IsWord (getField s.sys.mem .prev block) := isWord_getField _ _ _
      have hRt := hR.setMem (v := getField s.sys.mem .prev block) hS hn (f := .prev) (by decide)
      -- the links of `block` are read again after `next->prev` was set
      refine .bind_ok (a := ()) ?_ (hrest _ hRt ?_)
      · rw [run_bind_ok (hR.run_get hb .prev), run_bind_ok (hR.run_set hn .prev _),
          run_bind_ok (hRt.run_get hb .next)]
        refine hRt.run_validateCookie (.inr ?_)
        rw [State.setMem_mem, hS.get_setPrev hn hb hpw, if_neg (by simp)]
        exact hn
      · rw [State.setMem_mem, hS.get_setPrev hn hb hpw]
        split <;> rfl

/-! ### Chains of headers -/

/-- The chain from `Heap.head` is `l`: headers in `S`, each once, linked in both directions. -/
structure Chained (S : Set ℕ) (s : State) (l : List ℕ) : Prop where
  mem : ∀ b ∈ l, b ∈ S
  nodup : l.Nodup
  linked : Linked (nxt s) (prv s) 0 l
  first : FirstPrev s l

theorem place_append (sz : ℕ → ℕ) (x y : ℕ) (l : List ℕ) :
    ∃ k₁ k₂, place sz x y l = k₁ ++ x :: k₂ ∧ y :: l = k₁ ++ k₂ := by
  by_cases hc : sz x = sz y ∧ ¬y < x
  · exact ⟨[], y :: l, place_before hc.1 hc.2 l, rfl⟩
  · exact ⟨[y], l, place_behind (fun e => not_not.mp fun h => hc ⟨e, h⟩) l, rfl⟩

/-- The insertion adds `x` at one place. -/
theorem insertGo_append {sz : ℕ → ℕ} {k : List ℕ} (h : insertGo sz x l = some k) :
    ∃ k₁ k₂, k = k₁ ++ x :: k₂ ∧ l = k₁ ++ k₂ := by
  induction l generalizing k with
  | nil => cases h
  | cons y l ih =>
      cases l with
      | nil =>
          rw [insertGo] at h
          split at h
          next => exact Option.some.inj h ▸ place_append sz x y []
          next => cases h
      | cons z l =>
          rw [insertGo] at h
          split at h
          next => exact Option.some.inj h ▸ place_append sz x y (z :: l)
          next =>
            obtain ⟨k', hk, rfl⟩ := Option.map_eq_some_iff.mp h
            obtain ⟨k₁, k₂, rfl, hl⟩ := ih hk
            exact ⟨y :: k₁, k₂, rfl, congrArg (y :: ·) hl⟩

/-- Whatever it loses, the insertion brings in no node but `x`, and no node twice. -/
theorem listInsert_nodup (sz : ℕ → ℕ) (hd : l.Nodup) (hxl : x ∉ l) :
    (listInsert sz x l).Nodup ∧ ∀ b ∈ listInsert sz x l, b ∈ x :: l := by
  have hd' : (x :: l).Nodup := List.nodup_cons.mpr ⟨hxl, hd⟩
  unfold listInsert
  split
  next => exact ⟨by simp, fun b hb => List.mem_singleton.mp hb ▸ List.mem_cons_self⟩
  next hne =>
    cases hgo : insertGo sz x l with
    | some k =>
        obtain ⟨k₁, k₂, rfl, rfl⟩ := insertGo_append hgo
        have hp : (k₁ ++ x :: k₂).Perm (x :: (k₁ ++ k₂)) := List.perm_middle
        exact ⟨hp.nodup_iff.mpr hd', fun b => hp.mem_iff.mp⟩
    | none =>
        have hlast : l.getLastD 0 ∈ l := getLastD_mem_of_ne_nil hne
        have hne' : x ≠ l.getLastD 0 := fun e => hxl (e ▸ hlast)
        rw [Option.getD_none]
        refine ⟨by simpa using hne', fun b hb => ?_⟩
        obtain rfl | hb := List.mem_cons.mp hb
        · exact List.mem_cons_self
        · rw [List.mem_singleton.mp hb]
          exact List.mem_cons_of_mem x hlast

namespace Chained

variable (hS : Spread S) (hR : Ready S s)
include hS hR

/-- **`HeapListInsert`** returns and leaves a chain. -/
theorem insert (h : Chained S s l) (hx : x ∈ S) (hxl : x ∉ l) :
    ∃ s' l', (heapListInsert x).run s = .ok ((), s') ∧ LinkStep S s s' ∧ Chained S s' l' ∧
      ∀ b ∈ l', b ∈ x :: l := by
  obtain ⟨⟨⟨⟩, s'⟩, hrun⟩ := heapListInsert_returns hS hR hx h.mem h.nodup h.linked
  obtain ⟨hs, hL, hF⟩ := heapListInsert_linked hS hx h.mem h.nodup hxl h.linked h.first hrun
  obtain ⟨hd, hsub⟩ := listInsert_nodup (getField s.sys.mem .size) h.nodup hxl
  refine ⟨s', _, hrun, hs, ⟨fun b hb => ?_, hd, hL, hF⟩, hsub⟩
  obtain rfl | hb := List.mem_cons.mp (hsub b hb)
  · exact hx
  · exact h.mem b hb

/-- **`HeapListRemove`** returns and takes the block out of the chain. -/
theorem remove (h : Chained S s l) (hnull : s.sys.mem.page 0 = false) (hb : block ∈ l) :
    ∃ s' l', (heapListRemove block).run s = .ok ((), s') ∧ LinkStep S s s' ∧ Chained S s' l' ∧
      block ∉ l' ∧ ∀ b ∈ l', b ∈ l := by
  obtain ⟨l₁, l₂, rfl⟩ := List.append_of_mem hb
  obtain ⟨hmem, hd, hL, hF⟩ := h
  obtain ⟨⟨⟨⟩, s'⟩, hrun⟩ := heapListRemove_returns hS hR hmem hd hL hF
  obtain ⟨hs, hL', hF'⟩ := heapListRemove_linked hS hnull hmem hd hL hF hrun
  have hp : (l₁ ++ block :: l₂).Perm (block :: (l₁ ++ l₂)) := List.perm_middle
  obtain ⟨hout, hd'⟩ := List.nodup_cons.mp (hp.nodup_iff.mp hd)
  have hsub : ∀ b ∈ l₁ ++ l₂, b ∈ l₁ ++ block :: l₂ := fun b hb =>
    hp.mem_iff.mpr (List.mem_cons_of_mem block hb)
  exact ⟨s', l₁ ++ l₂, hrun, hs, ⟨fun b hb => hmem b (hsub b hb), hd', hL', hF'⟩, hout, hsub⟩

end Chained

end OsProjects.Malloc3
