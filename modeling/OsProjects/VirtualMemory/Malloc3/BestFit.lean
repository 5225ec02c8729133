import OsProjects.VirtualMemory.Malloc3.Failure
import OsProjects.VirtualMemory.Malloc3.Serve
import OsProjects.VirtualMemory.Malloc3.Ties

/-! # Best fit

The search of `smalloc` takes the first block of the list that is free and large enough.  On a
list in the order of sizes and addresses this is the best fit of the whole heap, and a search
that finds nothing has shown that a free wilderness is too small, so that the unsigned difference
of the sizes is what is missing.  On an ordered heap `smalloc` returns, and it reuses the best
fit, enlarges the wilderness, or appends a block (`smalloc_best_fit`). -/

namespace OsProjects.Malloc3

open Prog

variable {S : Set ℕ} {s s' : State} {as bs cs order : List Block} {b c f : Block} {m : Memory}
  {p q lo hi n r size : ℕ} {l : List ℕ} {x : System}

/-! ### Ordered heaps -/

/-- All pages of the addresses from `lo` up to `hi` are mapped. -/
def Backed (m : Memory) (lo hi : ℕ) : Prop :=
  ∀ p, lo / pageSize ≤ p → p < pageCeil hi → m.page p = true

theorem Backed.accessible (h : Backed m lo hi) (h₁ : lo ≤ p) (h₂ : p + n ≤ hi) :
    m.accessible p n = true := by
  refine (Memory.accessible_iff _ _ _).mpr fun y hy hy' => h _ ?_ (System.lt_pageCeil (by omega))
  exact Nat.div_le_div_right (by omega)

theorem Backed.extended (h : Backed s.sys.mem lo s.sys.brk) (hx : System.Extended s.sys x n) :
    Backed x.mem lo x.brk := by
  intro p h₁ h₂
  rw [hx.page]
  split
  next => rfl
  next hn => exact h p h₁ (Nat.lt_of_not_le fun hle => hn ⟨hle, h₂⟩)

/-- A heap that is not empty, whose list has each of its blocks and is sorted by size and
address.  Its pages are mapped and its cookies are intact. -/
structure OrderedHeap (s : State) (bs order : List Block) : Prop where
  laid : Laid s bs
  ne : bs ≠ []
  list : SortedList s order
  perm : order.Perm bs
  base : s.sys.base ≤ s.heap.firsthead
  backed : Backed s.sys.mem s.heap.firsthead s.sys.brk
  cookie : ∀ b ∈ bs, getField s.sys.mem .cookie b.addr = s.mainCookie.toNat

namespace OrderedHeap

variable (h : OrderedHeap s bs order)
include h

theorem links : Headers s.sys.mem order ∧ Linked (nxt s) (prv s) 0 (order.map Block.addr) ∧
    FirstPrev s (order.map Block.addr) := order_iff.mp ⟨h.list.blocks, h.list.back⟩

theorem whole : Whole s bs := by
  obtain ⟨-, hL, hF⟩ := h.links
  have hsort : order.Pairwise fun b c => b.size ≤ c.size :=
    h.list.sorted.imp fun {b c} hbc => by
      unfold Block.Before at hbc
      omega
  exact ⟨h.laid.tiled, h.laid.wilderness, order, h.perm, hsort, hL, hF⟩

theorem ready : Ready (addrs bs) s where
  accessible p hp := by
    obtain ⟨h₁, h₂⟩ := h.laid.tiled.header_bounds hp
    exact h.backed.accessible h₁ h₂
  cookie := by
    rintro _ ⟨b, hb, rfl⟩
    exact h.cookie b hb

theorem chained : Chained (addrs bs) s (order.map Block.addr) := by
  obtain ⟨-, hL, hF⟩ := h.links
  have hd : (order.map Block.addr).Nodup :=
    ((h.perm.map Block.addr).nodup_iff).mpr h.laid.tiled.nodup
  refine ⟨fun p hp => ?_, hd, hL, hF⟩
  obtain ⟨b, hb, rfl⟩ := List.mem_map.mp hp
  exact mem_addrs (h.perm.mem_iff.mp hb)

end OrderedHeap

/-- A well-formed heap is ordered if its cookies are intact and ties are in the order of their
addresses. -/
theorem WellFormed.orderedHeap {mm : List Block} (hw : WellFormed s bs mm) (hne : bs ≠ [])
    (hl : SortedList s order)
    (hc : ∀ b ∈ bs, getField s.sys.mem .cookie b.addr = s.mainCookie.toNat) :
    OrderedHeap s bs order := by
  refine ⟨⟨hw.tiled, hw.wilderness⟩, hne, hl, (hw.whole.perm_order hl.blocks).1,
    hw.base hne, fun p h₁ h₂ => ?_, hc⟩
  exact hw.regions.heapMapped p ((Nat.div_le_div_right (hw.base hne)).trans h₁) h₂

/-! ### The best fit -/

/-- `b` is free and has at least `n` bytes. -/
def Block.Suits (b : Block) (n : ℕ) : Prop := b.free = true ∧ n ≤ b.size

/-- The smallest free block of at least `n` bytes, at the lowest address among equals. -/
structure BestFit (bs : List Block) (n : ℕ) (f : Block) : Prop where
  mem : f ∈ bs
  suits : f.Suits n
  before : ∀ c ∈ bs, c.Suits n → c = f ∨ f.Before c

/-- **First fit on a sorted list is best fit.** -/
theorem found_bestFit (hs : order.Pairwise Block.Before) (hp : order.Perm bs)
    (h : found order n = some f) : BestFit bs n f := by
  obtain ⟨hf, l₁, l₂, rfl, hl₁⟩ := List.find?_eq_some_iff_append.mp h
  rw [Bool.and_eq_true, decide_eq_true_eq] at hf
  refine ⟨hp.mem_iff.mp (by simp), hf, fun c hc hcn => ?_⟩
  obtain hc | hc := List.mem_append.mp (hp.mem_iff.mpr hc)
  · -- the search has passed `c`
    have hno := hl₁ c hc
    rw [Bool.not_eq_true', Bool.and_eq_false_iff, decide_eq_false_iff_not] at hno
    obtain hno | hno := hno
    · rw [hcn.1] at hno
      cases hno
    · exact absurd hcn.2 hno
  · obtain rfl | hc := List.mem_cons.mp hc
    · exact .inl rfl
    · exact .inr (List.rel_of_pairwise_cons (List.pairwise_append.mp hs).2.1 hc)

theorem found_none (hp : order.Perm bs) (h : found order n = none) : ∀ c ∈ bs, ¬c.Suits n := by
  intro c hc hcn
  have hno := List.find?_eq_none.mp h c (hp.mem_iff.mpr hc)
  simp only [Bool.and_eq_true, decide_eq_true_eq] at hno
  exact hno hcn

/-! ### The parts of `smalloc` return -/

theorem Ready.setCookie (h : Ready S s) (hS : Spread (insert q S))
    (hq : s.sys.mem.accessible q sizeofMetadata = true) :
    Ready (insert q S) (s.setMem (setField s.sys.mem .cookie q s.mainCookie.toNat)) where
  accessible p hp := by
    obtain rfl | hp := hp
    · exact hq
    · exact h.accessible p hp
  cookie p hp := by
    have hck : s.mainCookie.toNat < 256 ^ Field.cookie.width := s.mainCookie.toNat_lt
    rw [State.setMem_mem, getField_setField (hS.apart q (Set.mem_insert q S) p hp) hck]
    split
    next => rfl
    next hne => exact h.cookie p (hp.resolve_left fun e => hne ⟨rfl, e.symm⟩)

theorem Ready.congr (h : Ready S s) (hm : s'.sys.mem = s.sys.mem)
    (hc : s'.mainCookie = s.mainCookie) : Ready S s' := by
  refine ⟨fun p hp => ?_, fun p hp => ?_⟩
  · rw [hm]
    exact h.accessible p hp
  · rw [hm, hc]
    exact h.cookie p hp

/-- The headers that `split` writes are ready. -/
theorem Ready.divided (h : Ready S s) (hS : Spread (insert q S))
    (hq : s.sys.mem.accessible q sizeofMetadata = true) (hp : p ∈ S) :
    Ready (insert q S) (divided s p q n) := by
  have hqT := Set.mem_insert q S
  have hpT : p ∈ insert q S := .inr hp
  have h₁ := h.setCookie hS hq
  have h₂ := h₁.setMem (v := 1) hS hqT (f := .isFree) (by decide)
  have h₃ := fun v => h₂.setMem (v := v) hS hqT (f := .size) (by decide)
  have h₄ := fun v => (h₃ v).setMem (v := 0) hS hpT (f := .isFree) (by decide)
  have h₅ := fun v => (h₄ v).setMem (v := n) hS hpT (f := .size) (by decide)
  exact (h₅ _).congr (by rfl) rfl

namespace Chained

theorem sameLinks (h : Chained S s l) (hs : SameLinks S s s') : Chained S s' l := by
  refine ⟨h.mem, h.nodup, h.linked.congr (fun b hb => hs.nx b ?_) fun b hb => hs.pv b (h.mem b hb),
    fun b hb => ?_⟩
  · exact (List.mem_cons.mp hb).imp id (h.mem b)
  · rw [hs.pv b (h.mem b (List.mem_of_mem_head? hb))]
    exact h.first b hb

theorem mono {T : Set ℕ} (h : Chained S s l) (hST : S ⊆ T) : Chained T s l :=
  { h with mem := fun b hb => hST (h.mem b hb) }

end Chained

theorem run_getFree_of (h : s.sys.mem.accessible p sizeofMetadata = true) :
    (getFree p).run s = .ok (getField s.sys.mem .isFree p != 0, s) :=
  getFree_eq_ok.mpr ⟨accessible_field h .isFree, rfl, rfl⟩

/-- One round of the search. -/
theorem search_returns_of (hR : Ready S s) (hp : p ∈ S) {fuel : ℕ}
    (h : getField s.sys.mem .next p ≠ 0 →
      (search size fuel (getField s.sys.mem .next p)).Returns s) :
    (search size (fuel + 1) p).Returns s := by
  have hacc := hR.accessible p hp
  have hfits : ∀ free : Bool, (if free = true then (do return decide (size ≤ (← get .size p)) : M Bool)
      else pure false).run s =
      .ok (if free = true then decide (size ≤ getField s.sys.mem .size p) else false, s) := by
    intro free
    rw [run_ite]
    split
    · rw [run_bind_ok (run_get_of hacc)]
      rfl
    · rfl
  unfold search
  refine .bind_ok (hR.run_validateCookie (.inr hp)) (.bind_ok (run_getFree_of hacc) ?_)
  refine .bind_ok (hfits _) (.ite (fun _ => returns_pure _ s) fun _ => ?_)
  exact .bind_ok (run_get_of hacc) (.ite h fun _ => returns_pure _ s)

/-- The search returns if it has a round for each of the nodes from `p` on. -/
theorem search_returns (hS : Spread S) (hR : Ready S s) {fuel : ℕ} (hp : p ∈ S)
    (hl : ∀ b ∈ l, b ∈ S) (hL : Linked (nxt s) (prv s) p l) (hf : l.length < fuel) :
    (search size fuel p).Returns s := by
  induction l generalizing p fuel with
  | nil =>
      obtain ⟨fuel, rfl⟩ := Nat.exists_eq_succ_of_ne_zero (Nat.ne_of_gt hf)
      have hz : nxt s p = 0 := hL
      rw [nxt, if_neg (hS.pos p hp)] at hz
      exact search_returns_of hR hp fun hne => absurd hz hne
  | cons z l ih =>
      obtain ⟨fuel, rfl⟩ := Nat.exists_eq_succ_of_ne_zero (Nat.ne_of_gt (Nat.zero_lt_of_lt hf))
      obtain ⟨hz, -, -, hL⟩ := hL
      rw [nxt, if_neg (hS.pos p hp)] at hz
      refine search_returns_of hR hp fun _ => ?_
      rw [hz]
      exact ih (hl z (by simp)) (fun b hb => hl b (List.mem_cons_of_mem z hb)) hL
        (Nat.lt_of_succ_lt_succ hf)

/-- What `split` does before it turns to the list. -/
theorem split_returns_of (hp : s.sys.mem.accessible p sizeofMetadata = true)
    (hq : s.sys.mem.accessible q sizeofMetadata = true)
    (hv : (validateCookie p).run s = .ok ((), s)) (hpq : add64 (add64 p n) sizeofMetadata = q)
    (hc : canSplit (getField s.sys.mem .size p) n = true)
    (h : (do
      heapListRemove p
      heapListInsert p
      heapListInsert q : M Unit).Returns (divided s p q n)) : (split p n).Returns s := by
  subst hpq
  unfold split
  refine .bind_ok hv (.bind_ok (run_get_of hp) (.ite (fun _ => ?_) fun hn => absurd hc hn))
  refine .bind_ok (run_modify _ s) (.bind_ok (run_gets _ _) ?_)
  -- no page changes on the way
  refine .bind_ok (run_set_of hq) (.bind_ok (run_set_of hq) ?_)
  refine .bind_ok (run_get_of hp) (.bind_ok (run_set_of hq) ?_)
  refine .bind_ok (run_getFree_of hp) (.bind_ok (run_get_of hq) ?_)
  refine .bind_ok (run_modify _ _) (.bind_ok (run_set_of hp) ?_)
  refine .bind_ok (run_set_of hp) (.bind_ok (run_modify _ _) ?_)
  exact h

theorem markUsed_returns (hp : s.sys.mem.accessible p sizeofMetadata = true) :
    (markUsed p).Returns s := by
  unfold markUsed
  refine .bind_ok (run_set_of hp) (.bind_ok (run_get_of hp) ?_)
  exact returns_modify _ _

/-- The header that `split` writes lies inside the block. -/
theorem Tiled.back_not_mem (ht : Tiled s bs) (hf : f ∈ bs) (hn : n + sizeofMetadata ≤ f.size) :
    (f.back n).addr ∉ addrs bs := by
  rintro ⟨d, hd, he⟩
  simp only [Block.back, sizeofMetadata] at he hn
  obtain rfl | h | h := (ht.tiles (List.ne_nil_of_mem hf)).eq_or_apart hf hd
  · omega
  · simp only [Block.stop, sizeofMetadata] at h
    omega
  · simp only [Block.stop, sizeofMetadata] at h
    omega

/-- **`split` returns** on a free block that is large enough. -/
theorem split_returns (h : OrderedHeap s bs order) (hf : f ∈ bs) (hn : n ≤ f.size) :
    (split f.addr n).Returns s := by
  have ht := h.laid.tiled
  have hR := h.ready
  have hfS : f.addr ∈ addrs bs := mem_addrs hf
  have hp := hR.accessible _ hfS
  have hv := hR.run_validateCookie (.inr hfS)
  cases hc : canSplit f.size n with
  | false =>
      unfold split
      refine .bind_ok hv (.bind_ok (run_get_of hp) (.ite (fun ht' => ?_) fun _ => ?_))
      · rw [ht.size_eq hf, hc] at ht'
        cases ht'
      · exact .bind_ok (run_getFree_of hp) (.ite (fun _ => markUsed_returns hp) fun _ =>
          returns_pure _ s)
  | true =>
      have hfit : n + sizeofMetadata ≤ f.size := by
        have := canSplit_le (.inl hn) hc
        omega
      have hqS := ht.back_not_mem hf hfit
      have hb := ht.bounds hf
      have hq : s.sys.mem.accessible (f.back n).addr sizeofMetadata = true := by
        simp only [Block.stop, sizeofMetadata] at hb hfit
        refine h.backed.accessible ?_ ?_ <;> simp only [Block.back, sizeofMetadata] <;> omega
      obtain ⟨as, cs, rfl⟩ := List.append_of_mem hf
      have hS : Spread (insert (f.back n).addr (addrs (as ++ f :: cs))) := by
        refine (ht.split_spread (.inl hn)).mono (Set.insert_subset (.inr ?_) Set.subset_union_left)
        rw [splitBlock_of_canSplit hc]
        exact mem_addrs (by simp)
      have hpT : f.addr ∈ insert (f.back n).addr (addrs (as ++ f :: cs)) := .inr hfS
      have hqT := Set.mem_insert (f.back n).addr (addrs (as ++ f :: cs))
      have hRd := hR.divided (n := n) hS hq hfS
      have hCd := (h.chained.mono (Set.subset_insert _ _)).sameLinks
        (divided_sameLinks (n := n) hS hpT hqT)
      have hnull : (divided s f.addr (f.back n).addr n).sys.mem.page 0 = false := ht.null
      have hfl : f.addr ∈ order.map Block.addr :=
        List.mem_map_of_mem (h.perm.mem_iff.mpr hf)
      obtain ⟨s₁, l₁, h₁, k₁, hC₁, hout, hsub₁⟩ := hCd.remove hS hRd hnull hfl
      have hR₁ := hRd.of_linkStep hS k₁
      obtain ⟨s₂, l₂, h₂, k₂, hC₂, hsub₂⟩ := hC₁.insert hS hR₁ hpT hout
      have hqout : (f.back n).addr ∉ l₂ := fun hm => by
        obtain he | hm := List.mem_cons.mp (hsub₂ _ hm)
        · exact hqS (he ▸ hfS)
        · exact hqS (h.chained.mem _ (hsub₁ _ hm))
      obtain ⟨s₃, -, h₃, -⟩ := hC₂.insert hS (hR₁.of_linkStep hS k₂) hqT hqout
      refine split_returns_of hp hq hv (back_addr_eq ht hfit) ((ht.size_eq hf).symm ▸ hc) ?_
      exact .bind_ok h₁ (.bind_ok h₂ (.of_ok h₃))

/-! ### Asking for more memory -/

/-- The call has made one request, `sbrk(n)`, and it returned `NULL` if the request was refused. -/
structure Asked (n : ℕ) (s s' : State) (r : ℕ) : Prop where
  sys : s'.sys = { (s.sys.sbrk n).2 with mem := s'.sys.mem }
  null : r = 0 ↔ (s.sys.sbrk n).1 = failed

theorem Asked.of_eq (h : s.sys.sbrk n = (q, x)) (hs : s'.sys = { x with mem := s'.sys.mem })
    (hr : r = 0 ↔ q = failed) : Asked n s s' r := by
  refine ⟨?_, ?_⟩
  · rw [h]
    exact hs
  · rw [h]
    exact hr

theorem run_sbrk_of (h : s.sys.sbrk n = (q, x)) :
    (sbrk n).run s = .ok (q, { s with sys := x }) :=
  sbrk_eq_ok.mpr ⟨by rw [h], by rw [h]⟩

/-- A request that was not refused. -/
theorem extended_of_sbrk (h : s.sys.sbrk n = (q, x)) (hn : n < 2 ^ 63) (hb : s.sys.brk ≤ userTop)
    (hq : q ≠ failed) : q = s.sys.brk ∧ System.Extended s.sys x n := by
  have hcases := System.sbrk_cases s.sys hn hb
  rw [h] at hcases
  obtain ⟨hf, -⟩ | ⟨ha, -, hx⟩ := hcases
  · exact absurd hf hq
  · exact ⟨ha, hx⟩

/-- Behind `sbrk`, every header is as it was. -/
theorem OrderedHeap.extended (h : OrderedHeap s bs order) (hx : System.Extended s.sys x n) :
    Ready (addrs bs) { s with sys := x } ∧
      Chained (addrs bs) { s with sys := x } (order.map Block.addr) ∧ x.mem.page 0 = false := by
  have ht := h.laid.tiled
  have hpos := ht.firsthead_pos h.ne
  have hle := (ht.tiles h.ne).le
  refine ⟨⟨fun p hp => ?_, fun p hp => ?_⟩, h.chained.sameLinks ?_, ?_⟩
  · obtain ⟨h₁, h₂⟩ := ht.header_bounds hp
    refine (h.backed.extended hx).accessible h₁ (h₂.trans ?_)
    rw [hx.brk]
    omega
  · exact (getField_congr fun y _ _ => congrFun hx.byte y).trans (h.ready.cookie p hp)
  · exact .of_byte ht.spread rfl fun _ _ y _ _ => congrFun hx.byte y
  · rw [hx.page, if_neg (by have := pageCeil_pos (a := s.sys.brk) (by omega); omega)]
    exact ht.null

/-- A free wilderness that is too small: `smalloc` asks for the bytes that are missing. -/
theorem growFreeWilderness_asked (h : OrderedHeap s (as ++ [b]) order) (hlt : b.size < size)
    (hs : size ≤ sizeLimit) : (growFreeWilderness size).Ends s fun r s' =>
      Asked (size - b.size) s s' r := by
  have ht := h.laid.tiled
  have hS := ht.spread
  have hbm : b ∈ as ++ [b] := by simp
  have hbS := mem_addrs hbm
  have hble := ht.stop_le hbm
  simp only [sizeLimit] at hs
  have hwild : s.heap.wilderness = b.addr := h.laid.wilderness.trans (lastAddr_concat as b)
  have hneeded : sub64 size b.size = size - b.size := sub64_eq hlt.le (by omega)
  unfold growFreeWilderness
  refine .bind_ok (run_gets _ s) ?_
  rw [hwild]
  refine .bind_ok (h.ready.run_validateCookie (.inr hbS)) (.bind_ok (h.ready.run_get hbS .size) ?_)
  rw [ht.size_eq hbm, hneeded]
  obtain ⟨a, x, hsbrk⟩ : ∃ a x, s.sys.sbrk (size - b.size) = (a, x) := ⟨_, _, rfl⟩
  refine .bind_ok (run_sbrk_of hsbrk) (.ite (fun hf => ?_) fun hf => ?_)
  · exact ends_pure (.of_eq hsbrk rfl (iff_of_true rfl hf))
  · obtain ⟨-, hx⟩ := extended_of_sbrk hsbrk (by omega) ht.brk_le hf
    obtain ⟨hR, hC, hnull⟩ := h.extended hx
    have hbl : b.addr ∈ order.map Block.addr := List.mem_map_of_mem (h.perm.mem_iff.mpr hbm)
    obtain ⟨s₁, l₁, h₁, k₁, hC₁, hout, -⟩ := hC.remove hS hR hnull hbl
    have hR₁ := hR.of_linkStep hS k₁
    have hR₂ := hR₁.setMem (v := false.toNat) hS hbS (f := .isFree) (by decide)
    have hC₂ := hC₁.sameLinks (.setField hS (f := .isFree) (by decide) hbS false.toNat)
    refine .bind_ok h₁ (.bind_ok (hR₁.run_set hbS .isFree _) ?_)
    refine .bind_ok (hR₂.run_get hbS .size) (.bind_ok (hR₂.run_set hbS .size _) ?_)
    generalize hv : add64 _ (size - b.size) = v
    have hR₃ := hR₂.setMem (v := v) hS hbS (f := .size) (by decide)
    have hC₃ := hC₂.sameLinks (.setField hS (f := .size) (by decide) hbS v)
    obtain ⟨s₂, -, h₂, k₂, -⟩ := hC₃.insert hS hR₃ hbS hout
    have hstep := (((k₁.heapStep {b.addr}).setField .isFree rfl false.toNat).setField .size rfl
      v).trans (k₂.heapStep _)
    refine .bind_ok h₂ (.bind_ok (run_modify _ _) (ends_pure (.of_eq hsbrk hstep.sys
      (iff_of_false ?_ hf))))
    refine add64_ne_zero ?_
    simp only [userTop]
    omega

/-- A wilderness in use: `smalloc` asks for a new block with its header. -/
theorem appendBlock_asked (h : OrderedHeap s bs order) (hs : size ≤ sizeLimit) :
    (appendBlock size).Ends s fun r s' => Asked (size + sizeofMetadata) s s' r := by
  have ht := h.laid.tiled
  have hbrk := ht.brk_le
  have htile := ht.tiles h.ne
  simp only [sizeLimit] at hs
  simp only [userTop] at hbrk
  have hadd : add64 size sizeofMetadata = size + sizeofMetadata :=
    add64_eq (by simp only [sizeofMetadata]; omega)
  unfold appendBlock
  rw [hadd]
  obtain ⟨a, x, hsbrk⟩ : ∃ a x, s.sys.sbrk (size + sizeofMetadata) = (a, x) := ⟨_, _, rfl⟩
  refine .bind_ok (run_sbrk_of hsbrk) (.ite (fun hf => ?_) fun hf => ?_)
  · exact ends_pure (.of_eq hsbrk rfl (iff_of_true rfl hf))
  · obtain ⟨rfl, hx⟩ := extended_of_sbrk hsbrk (by simp only [sizeofMetadata]; omega) ht.brk_le hf
    obtain ⟨hR, hC, hnull⟩ := h.extended hx
    -- the new header is mapped and lies behind all others
    have htile' : Tiles s.heap.firsthead (bs ++ [⟨s.sys.brk, size, false⟩]) x.brk := by
      refine Tiles.append_iff.mpr ⟨s.sys.brk, htile, ?_⟩
      rw [hx.brk, ← Nat.add_assoc]
      exact tiles_cons.mpr ⟨rfl, Nat.add_right_comm _ _ _⟩
    have hS : Spread (insert s.sys.brk (addrs bs)) := by
      have hsp := htile'.spread (ht.pos h.ne) hx.le
      rwa [addrs_append, addrs_singleton, Set.union_singleton] at hsp
    have hq : x.mem.accessible s.sys.brk sizeofMetadata = true := by
      refine (h.backed.extended hx).accessible htile.le ?_
      rw [hx.brk]
      omega
    have hqS : s.sys.brk ∉ addrs bs := fun hm => by
      have := (ht.header_bounds hm).2
      omega
    have hqT := Set.mem_insert s.sys.brk (addrs bs)
    have hR₀ := (hR.mapHeap fun h => { h with wilderness := s.sys.brk }).setCookie hS hq
    have hR₁ := hR₀.setMem (v := false.toNat) hS hqT (f := .isFree) (by decide)
    have hR₂ := hR₁.setMem (v := size) hS hqT (f := .size) (by decide)
    refine .bind_ok (run_modify _ _) (.bind_ok (run_gets _ _) ?_)
    refine .bind_ok (run_set_of hq) (.bind_ok (hR₀.run_set hqT .isFree _) ?_)
    refine .bind_ok (hR₁.run_set hqT .size _) (.bind_ok (run_modify _ _) ?_)
    have hC₀ := ((hC.mono (Set.subset_insert s.sys.brk _)).sameLinks (.mapHeap (f := fun h =>
      { h with wilderness := s.sys.brk }) rfl)).sameLinks (.setField hS (f := .cookie) (by decide)
        hqT s.mainCookie.toNat)
    have hC₁ := hC₀.sameLinks (.setField hS (f := .isFree) (by decide) hqT false.toNat)
    have hC₂ := hC₁.sameLinks (.setField hS (f := .size) (by decide) hqT size)
    have hC₃ := hC₂.sameLinks (.mapHeap (f := fun h => { h with
      numAllocatedBlocks := add64 h.numAllocatedBlocks 1
      numAllocatedBytes := add64 h.numAllocatedBytes size
      numMetaDataBytes := add64 h.numMetaDataBytes sizeofMetadata }) rfl)
    obtain ⟨s₂, -, h₂, k₂, -⟩ := hC₃.insert hS (hR₂.mapHeap _) hqT fun hm => hqS (h.chained.mem _ hm)
    refine .bind_ok h₂ (ends_pure (.of_eq hsbrk k₂.sys (iff_of_false (add64_ne_zero ?_) hf)))
    exact ht.brk_le

/-! ### The three answers of `smalloc` -/

/-- `smalloc` on an ordered heap, once the search is done. -/
theorem smalloc_search (h : OrderedHeap s bs order) (h₁ : 1 ≤ size) (hT : size < mmapThreshold) :
    (smalloc size).run s = (match (found order size).map Block.addr with
      | some p => do
        split p size
        pure (add64 p sizeofMetadata)
      | none => do
        validateCookie (← getHeap).wilderness
        if ← getFree (← getHeap).wilderness then growFreeWilderness size
        else appendBlock size : M ℕ).run s := by
  have hS := h.laid.tiled.spread
  have hR := h.ready
  obtain ⟨hh, hL, -⟩ := h.links
  have hC := h.chained
  have h₀ : ∀ c ∈ order, c.addr ≠ 0 := fun c hc => hL.ne_zero _ (List.mem_map_of_mem hc)
  have hlen := length_le_rounds hS hC.mem hC.nodup
  cases order with
  | nil => exact absurd (List.nil_perm.mp h.perm) h.ne
  | cons c order =>
      have hhead : s.heap.head = c.addr := hL.1
      have hne : s.heap.head ≠ 0 := hhead ▸ h₀ c (by simp)
      have hret : (search size rounds c.addr).Returns s :=
        search_returns hS hR (hC.mem _ (by simp)) (fun b hb => hC.mem b (by simp [hb])) hL.2.2.2 hlen
      rw [← hhead] at hret
      obtain ⟨⟨o, s₁⟩, ho⟩ := hret
      obtain ⟨rfl, rfl⟩ := search_order hh h₀ hL hne ho
      have hbad : ¬(size = 0 ∨ sizeLimit < size) := by
        simp only [mmapThreshold, sizeLimit] at hT ⊢
        omega
      have hheap : getHeap.run s = .ok (s.heap, s) := rfl
      rw [smalloc, run_ite, if_neg hbad, run_ite, if_neg (Nat.not_le.mpr hT), run_bind_ok hheap,
        run_ite, if_neg hne, run_bind_ok hheap]
      exact run_bind_ok ho

/-- If no block suits, the wilderness `b` decides. -/
theorem smalloc_none (h : OrderedHeap s (as ++ [b]) order) (h₁ : 1 ≤ size)
    (hT : size < mmapThreshold) (hf : found order size = none) : (smalloc size).run s =
      (if b.free then growFreeWilderness size else appendBlock size : M ℕ).run s := by
  have hbm : b ∈ as ++ [b] := by simp
  have hbS := mem_addrs hbm
  have hwild : s.heap.wilderness = b.addr := h.laid.wilderness.trans (lastAddr_concat as b)
  have hheap : getHeap.run s = .ok (s.heap, s) := rfl
  rw [smalloc_search h h₁ hT, hf]
  simp only [Option.map_none]
  rw [run_bind_ok hheap, hwild, run_bind_ok (h.ready.run_validateCookie (.inr hbS)),
    run_bind_ok hheap, hwild, run_bind_ok (run_getFree_of (h.ready.accessible _ hbS)),
    h.laid.tiled.free_eq hbm]

/-- What a successful call has done.  It hands out the payload of `g.1`, and the heap has the
blocks `g.2` then: `g.1` is in use, and so are exactly those that were in use before, with the
same bytes in their payloads. -/
structure HandsOut (s s' : State) (bs : List Block) (r : ℕ) (g : Block × List Block) : Prop where
  payload : r = g.1.payload
  laid : Laid s' g.2
  inUse : used g.2 = insert g.1 (used bs)
  intact : ∀ c ∈ used bs, Intact s s' c

/-- The three answers of `smalloc` on a heap with the blocks `bs`.  It takes the best fit, and
makes no system call.  If no block suits, it asks for the bytes that a free wilderness `b` lacks
and makes it exactly `size` bytes long, or it asks for a new block of exactly `size` bytes, which
is the wilderness then. -/
inductive Answer (s s' : State) (bs : List Block) (size r : ℕ) : Prop
  | reuse {as cs : List Block} {f : Block} : bs = as ++ f :: cs → BestFit bs size f →
      s'.sys = { s.sys with mem := s'.sys.mem } →
      HandsOut s s' bs r (f.taken size, as ++ (splitBlock f size ++ cs)) → Answer s s' bs size r
  | grow {as : List Block} {b : Block} : bs = as ++ [b] → (∀ c ∈ bs, ¬c.Suits size) →
      b.free = true → 0 < size - b.size → Asked (size - b.size) s s' r →
      (r ≠ 0 → HandsOut s s' bs r (⟨b.addr, size, false⟩, as ++ [⟨b.addr, size, false⟩])) →
      Answer s s' bs size r
  | append {as : List Block} {b : Block} : bs = as ++ [b] → (∀ c ∈ bs, ¬c.Suits size) →
      b.free = false → Asked (size + sizeofMetadata) s s' r →
      (r ≠ 0 → HandsOut s s' bs r (⟨s.sys.brk, size, false⟩, bs ++ [⟨s.sys.brk, size, false⟩])) →
      Answer s s' bs size r

theorem OrderedHeap.handsOut (h : OrderedHeap s bs order) (hT : size < mmapThreshold) (hr : r ≠ 0)
    (hrun : (smalloc size).run s = .ok (r, s')) :
    HandsOut s s' bs r (granted order bs s.sys.brk size) := by
  have ht := h.laid.tiled
  have hle := (ht.tiles h.ne).le
  have hpos := ht.firsthead_pos h.ne
  have hv := smalloc_heap h.whole h.list.blocks (hpos.trans_le hle) (h.base.trans hle)
    (fun _ => h.base) hT hr hrun
  exact ⟨hv.payload, hv.shape.laid, (granted_grants ht h.perm).inUse, hv.intact⟩

/-- **`smalloc` is best fit.** -/
theorem smalloc_best_fit (h : OrderedHeap s bs order) (h₁ : 1 ≤ size) (hT : size < mmapThreshold) :
    ∃ r s', (smalloc size).run s = .ok (r, s') ∧ Answer s s' bs size r := by
  have hs : size ≤ sizeLimit := by
    simp only [mmapThreshold, sizeLimit] at hT ⊢
    omega
  have hsearch := smalloc_search h h₁ hT
  cases hfound : found order size with
  | some f =>
      obtain ⟨hm, hfit, hbefore⟩ := found_bestFit h.list.sorted h.perm hfound
      obtain ⟨⟨⟨⟩, s'⟩, hsplit⟩ := split_returns h hm hfit.2
      obtain ⟨as, cs, rfl⟩ := List.append_of_mem hm
      have hrun : (smalloc size).run s = .ok (add64 f.addr sizeofMetadata, s') := by
        rw [hsearch, hfound, Option.map_some]
        exact (run_bind_ok hsplit).trans rfl
      have hr : add64 f.addr sizeofMetadata ≠ 0 := by
        have := h.laid.tiled.stop_le hm
        refine add64_ne_zero ?_
        simp only [userTop]
        omega
      have hout := h.handsOut hT hr hrun
      obtain ⟨has, hcs⟩ := h.laid.tiled.not_mem_around
      rw [granted, hfound] at hout
      simp only [replaceBlock_eq has hcs] at hout
      have hstep := (split_turns h.whole.shape (.inr hs) (h.laid.tiled.split_spread (.inr hs)) hsplit).step
      exact ⟨_, s', hrun, .reuse rfl ⟨hm, hfit, hbefore⟩ hstep.sys hout⟩
  | none =>
      obtain ⟨as, b, rfl⟩ : ∃ as b, bs = as ++ [b] :=
        ⟨bs.dropLast, bs.getLast h.ne, (List.dropLast_append_getLast h.ne).symm⟩
      have hnone := found_none h.perm hfound
      have hbm : b ∈ as ++ [b] := by simp
      have hrest := smalloc_none h h₁ hT hfound
      have hlast : (as ++ [b]).getLast?.filter Block.free = if b.free then some b else none := by
        rw [List.getLast?_append_cons, List.getLast?_singleton, Option.filter_some]
      cases hb : b.free with
      | true =>
          -- the search has passed the wilderness
          have hlt : b.size < size := Nat.lt_of_not_le fun hle => hnone b hbm ⟨hb, hle⟩
          obtain ⟨r, s', hrun, hasked⟩ := growFreeWilderness_asked h hlt hs
          rw [hb, if_pos rfl, hrun] at hrest
          refine ⟨r, s', hrest, .grow rfl hnone hb (Nat.sub_pos_of_lt hlt) hasked fun hr => ?_⟩
          have hout := h.handsOut hT hr hrest
          simp only [granted, hfound, hlast, hb, if_true, List.dropLast_concat] at hout
          exact hout
      | false =>
          obtain ⟨r, s', hrun, hasked⟩ := appendBlock_asked h hs
          rw [hb, if_neg (by simp), hrun] at hrest
          refine ⟨r, s', hrest, .append rfl hnone hb hasked fun hr => ?_⟩
          have hout := h.handsOut hT hr hrest
          simp only [granted, hfound, hlast, hb, if_false, Bool.false_eq_true] at hout
          exact hout

/-- Of two free blocks that are large enough, the smaller one is taken. -/
theorem smalloc_best_fit_smaller : ∃ w, allocator.Reachable w ∧ ∃ r s',
    (smalloc 150).run w.state = .ok (r, s') ∧ Answer w.state s' [⟨65536, 300, true⟩,
      ⟨65876, 10, false⟩, ⟨65926, 200, true⟩, ⟨66166, 10, false⟩] 150 r := by
  obtain ⟨w, hreach, hw⟩ := World.exists_of_exec World.start World.start_initial
    [.call (.smalloc 300), .call (.smalloc 10), .call (.smalloc 200), .call (.smalloc 10),
      .call (.sfree 65576), .call (.sfree 65966)]
    (fun w => decide (WellFormed w.state [⟨65536, 300, true⟩, ⟨65876, 10, false⟩,
      ⟨65926, 200, true⟩, ⟨66166, 10, false⟩] []) && (decide (SortedList w.state
        [⟨65876, 10, false⟩, ⟨66166, 10, false⟩, ⟨65926, 200, true⟩, ⟨65536, 300, true⟩]) &&
      decide (∀ p ∈ ([65536, 65876, 65926, 66166] : List ℕ),
        getField w.state.sys.mem .cookie p = w.state.mainCookie.toNat))) (by decide +kernel)
  rw [Bool.and_eq_true, Bool.and_eq_true, decide_eq_true_eq, decide_eq_true_eq,
    decide_eq_true_eq] at hw
  obtain ⟨hwf, hl, hc⟩ := hw
  have h := hwf.orderedHeap (by simp) hl (by simpa using hc)
  exact ⟨w, hreach, smalloc_best_fit h (by decide) (by decide)⟩

end OsProjects.Malloc3
