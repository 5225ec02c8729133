import OsProjects.VirtualMemory.Malloc3.Growth

/-! # Blocks from `mmap`

The blocks that `mmap` has returned are chained from `Heap.mmhead` in the order of their
allocation (`MmList`).  The heap and this chain lie in different pages, so a call that works on
one of them leaves the other alone (`MmList.grown`, `Whole.elsewhere`). -/

namespace OsProjects.Malloc3

open Prog

variable {S : Set ℕ} {s s' s₁ : State} {bs mm m₁ m₂ : List Block} {b c : Block} {a p r lo size : ℕ}
  {u : Unit} {x : System} {m m' : Memory}

/-! ### The chain -/

/-- The state in which the list is the chain of the `mmap` blocks. -/
def State.mmView (s : State) : State := s.mapHeap fun h => { h with head := h.mmhead }

/-- The chain from `Heap.mmhead` has the blocks `mm` and is well linked. -/
structure MmList (s : State) (mm : List Block) : Prop where
  headers : Headers s.sys.mem mm
  linked : Linked (nxt s.mmView) (prv s.mmView) 0 (mm.map Block.addr)
  first : FirstPrev s.mmView (mm.map Block.addr)

theorem mmList_iff : MmList s mm ↔ MmBlocks s mm ∧ BackLinks s.sys.mem 0 mm := by
  have h : MmBlocks s mm ∧ BackLinks s.sys.mem 0 mm ↔ _ := order_iff (s := s.mmView)
  rw [h]
  exact ⟨fun h => ⟨h.headers, h.linked, h.first⟩, fun h => ⟨h.1, h.2.1, h.2.2⟩⟩

theorem WellFormed.mmList (h : WellFormed s bs mm) : MmList s mm :=
  mmList_iff.mpr ⟨h.mmap, h.mmapBack⟩

theorem getField_eq_of_header (h : ∀ y, p ≤ y → y < p + 40 → m'.byte y = m.byte y) (f : Field) :
    getField m' f p = getField m f p := by
  have := f.offset_width_le
  simp only [sizeofMetadata] at this
  exact getField_congr fun y h₁ h₂ => h y (by omega) (by omega)

/-- The chain depends only on the headers of its blocks. -/
theorem MmList.congr (h : MmList s mm) (hm : s'.heap.mmhead = s.heap.mmhead)
    (hb : ∀ b ∈ mm, ∀ y, b.addr ≤ y → y < b.addr + 40 → s'.sys.mem.byte y = s.sys.mem.byte y) :
    MmList s' mm := by
  have hf : ∀ b ∈ mm, ∀ f, getField s'.sys.mem f b.addr = getField s.sys.mem f b.addr :=
    fun b hbm => getField_eq_of_header (hb b hbm)
  have hpv : ∀ p ∈ mm.map Block.addr, prv s'.mmView p = prv s.mmView p := fun p hp => by
    obtain ⟨b, hbm, rfl⟩ := List.mem_map.mp hp
    exact hf b hbm .prev
  refine ⟨fun b hbm => ?_, h.linked.congr (fun p hp => ?_) hpv, fun p hp => ?_⟩
  · rw [blockAt, hf b hbm, hf b hbm]
    exact h.headers b hbm
  · obtain rfl | hp := List.mem_cons.mp hp
    · exact hm
    · obtain ⟨b, hbm, rfl⟩ := List.mem_map.mp hp
      have hn := hf b hbm .next
      simp only [nxt, State.mmView, State.mapHeap_sys, State.mapHeap_heap, hn, hm]
  · rw [hpv p (List.mem_of_mem_head? hp)]
    exact h.first p hp

/-! ### Pages -/

theorem Block.addr_lt_stop (b : Block) : b.addr < b.stop := extent.lt b

theorem Block.addr_div_lt (b : Block) : b.addr / pageSize < b.lastPage :=
  System.lt_pageCeil b.addr_lt_stop

/-- Pages that lie apart hold bytes that lie apart. -/
theorem Block.stop_le_of_page (h : b.lastPage ≤ p / pageSize) : b.stop ≤ p := by
  have h₁ := System.le_pageCeil_mul b.stop
  have h₂ := Nat.div_mul_le_self p pageSize
  have h₃ : b.lastPage * pageSize ≤ p / pageSize * pageSize := Nat.mul_le_mul_right _ h
  unfold Block.lastPage at h₃
  omega

theorem le_addr_of_page (h : pageCeil p ≤ a / pageSize) : p ≤ a := by
  have h₁ := System.le_pageCeil_mul p
  have h₂ := Nat.div_mul_le_self a pageSize
  have h₃ : pageCeil p * pageSize ≤ a / pageSize * pageSize := Nat.mul_le_mul_right _ h
  omega

namespace Regions

theorem heap_apart (h : Regions s mm) (hb : b ∈ mm) (hlt : s.sys.base < s.sys.brk) :
    b.stop ≤ s.sys.base ∨ s.sys.brk ≤ b.addr :=
  (h.heap (System.lt_pageCeil hlt) b hb).imp Block.stop_le_of_page le_addr_of_page

theorem pairwise (h : Regions s mm) : mm.Pairwise fun b c => b.stop ≤ c.addr ∨ c.stop ≤ b.addr :=
  h.apart.imp fun h => h.imp Block.stop_le_of_page Block.stop_le_of_page

theorem eq_or_apart (h : Regions s mm) (hb : b ∈ mm) (hc : c ∈ mm) :
    b = c ∨ b.stop ≤ c.addr ∨ c.stop ≤ b.addr := by
  obtain ⟨m₁, m₂, rfl⟩ := List.append_of_mem hb
  have hp := h.pairwise
  rw [List.pairwise_append, List.pairwise_cons] at hp
  obtain ⟨-, ⟨hp₂, -⟩, hp₃⟩ := hp
  obtain hc | hc := List.mem_append.mp hc
  · exact .inr (hp₃ c hc b List.mem_cons_self).symm
  · obtain rfl | hc := List.mem_cons.mp hc
    · exact .inl rfl
    · exact .inr (hp₂ c hc)

/-- The headers of the `mmap` blocks do not overlap. -/
theorem spread (h : Regions s mm) : Spread (addrs mm) where
  pos := by
    rintro _ ⟨b, hb, rfl⟩
    exact h.pos b hb
  lt := by
    rintro _ ⟨b, hb, rfl⟩
    have h₁ := h.le b hb
    have h₂ := b.addr_lt_stop
    simp only [userTop] at h₁
    unfold IsWord
    omega
  apart := by
    rintro _ ⟨b, hb, rfl⟩ _ ⟨c, hc, rfl⟩
    obtain rfl | h | h := h.eq_or_apart hb hc
    · exact .inl rfl
    · refine .inr (.inl ?_)
      unfold Block.stop at h
      omega
    · refine .inr (.inr ?_)
      unfold Block.stop at h
      omega

theorem nodup (h : Regions s mm) : (mm.map Block.addr).Nodup := by
  rw [List.Nodup, List.pairwise_map]
  refine h.pairwise.imp fun {b c} hbc => ?_
  have h₁ := b.addr_lt_stop
  have h₂ := c.addr_lt_stop
  omega

/-- The heap has grown into pages that were not mapped. -/
theorem grown (h : Regions s mm) (hg : Grown lo s s') : Regions s' mm where
  base_pos := by rw [hg.base]; exact h.base_pos
  base_le := by rw [hg.base]; exact h.base_le.trans hg.le
  brk_le := hg.top
  null := by
    have := pageCeil_pos (Nat.lt_of_lt_of_le h.base_pos h.base_le)
    rw [hg.page, if_neg (by omega)]
    exact h.null
  pos := h.pos
  aligned := h.aligned
  le := h.le
  mapped b hb p h₁ h₂ := by
    rw [hg.page]
    split
    next => rfl
    next => exact h.mapped b hb p h₁ h₂
  heapMapped p h₁ h₂ := by
    rw [hg.base] at h₁
    rw [hg.page]
    split
    next => rfl
    next => exact h.heapMapped p h₁ (by omega)
  apart := h.apart
  heap hlt' b hb := by
    rw [hg.base] at hlt' ⊢
    by_contra hne
    rw [not_or, not_le, not_le] at hne
    -- the page of `b` that would lie in the heap was mapped before the heap grew
    have hb₁ := b.addr_div_lt
    have hp : s.sys.mem.page (max (s.sys.base / pageSize) (b.addr / pageSize)) = true :=
      h.mapped b hb _ (le_max_right _ _) (by omega)
    by_cases hlt : max (s.sys.base / pageSize) (b.addr / pageSize) < pageCeil s.sys.brk
    · have := h.heap (by omega) b hb
      omega
    · rw [hg.fresh _ (by omega) (by omega)] at hp
      cases hp

end Regions

/-- A call that works on the heap leaves the chain alone. -/
theorem MmList.grown (h : MmList s mm) (hr : Regions s mm) (hlo : s.sys.base ≤ lo)
    (hg : Grown lo s s') : MmList s' mm := by
  refine h.congr hg.mmhead fun b hb y h₁ h₂ => hg.byte y ?_
  have h₃ := (hr.grown hg).heap_apart hb
  rw [hg.base] at h₃
  by_cases hlt : s.sys.base < s'.sys.brk
  case neg => omega
  replace h₃ := h₃ hlt
  have h₄ : b.addr + 40 ≤ b.stop := by
    simp only [Block.stop, sizeofMetadata]
    omega
  omega

/-- The heap depends only on the headers of its blocks. -/
theorem Laid.congr (hl : Laid s bs) (hfirst : s'.heap.firsthead = s.heap.firsthead)
    (hwild : s'.heap.wilderness = s.heap.wilderness) (hbrk : s'.sys.brk = s.sys.brk)
    (hnull : s'.sys.mem.page 0 = false)
    (hb : ∀ b ∈ bs, ∀ y, b.addr ≤ y → y < b.addr + 40 → s'.sys.mem.byte y = s.sys.mem.byte y) :
    Laid s' bs := by
  have ht := hl.tiled
  refine ⟨⟨hfirst.trans ht.first, fun h => ?_, fun h => ?_, fun b hbm => ?_, ?_, hnull⟩,
    hwild.trans hl.wilderness⟩
  · rw [hfirst]
    exact ht.pos h
  · rw [hfirst, hbrk]
    exact ht.tiles h
  · exact (blockAt_congr fun y h₁ h₂ => hb b hbm y h₁ (by omega)).trans (ht.headers b hbm)
  · rw [hbrk]
    exact ht.brk_le

theorem Listed.congr (hl : Listed s bs) (ht : Tiled s bs) (hhead : s'.heap.head = s.heap.head)
    (hb : ∀ b ∈ bs, ∀ y, b.addr ≤ y → y < b.addr + 40 → s'.sys.mem.byte y = s.sys.mem.byte y) :
    Listed s' bs := by
  have hlinks : SameLinks (addrs bs) s s' := by
    refine .of_byte ht.spread hhead fun p hp y h₁ h₂ => ?_
    obtain ⟨b, hbm, rfl⟩ := hp
    exact hb b hbm y (by omega) (by omega)
  exact hl.sameLinks hlinks subset_rfl

theorem Whole.congr (hw : Whole s bs) (hhead : s'.heap.head = s.heap.head)
    (hfirst : s'.heap.firsthead = s.heap.firsthead)
    (hwild : s'.heap.wilderness = s.heap.wilderness) (hbrk : s'.sys.brk = s.sys.brk)
    (hnull : s'.sys.mem.page 0 = false)
    (hb : ∀ b ∈ bs, ∀ y, b.addr ≤ y → y < b.addr + 40 → s'.sys.mem.byte y = s.sys.mem.byte y) :
    Whole s' bs := by
  have hl := Laid.congr ⟨hw.tiled, hw.wilderness⟩ hfirst hwild hbrk hnull hb
  exact ⟨hl.tiled, hl.wilderness, hw.listed.congr hw.tiled hhead hb⟩

theorem Regions.congr (h : Regions s mm) (hbase : s'.sys.base = s.sys.base)
    (hbrk : s'.sys.brk = s.sys.brk) (hpage : s'.sys.mem.page = s.sys.mem.page) : Regions s' mm where
  base_pos := by rw [hbase]; exact h.base_pos
  base_le := by rw [hbase, hbrk]; exact h.base_le
  brk_le := by rw [hbrk]; exact h.brk_le
  null := by rw [hpage]; exact h.null
  pos := h.pos
  aligned := h.aligned
  le := h.le
  mapped := by rw [hpage]; exact h.mapped
  heapMapped := by rw [hpage, hbase, hbrk]; exact h.heapMapped
  apart := h.apart
  heap := by rw [hbase, hbrk]; exact h.heap

/-! ### Well-formed heaps from their parts -/

/-- What a call keeps even when the list of the heap loses a block: the heap has the blocks `bs`
and the `mmap` list the blocks `mm`. -/
structure Settled (s : State) (bs mm : List Block) : Prop where
  laid : Laid s bs
  base : bs ≠ [] → s.sys.base ≤ s.heap.firsthead
  mmList : MmList s mm
  mmapKind : ∀ b ∈ mm, mmapThreshold ≤ b.size ∧ b.free = false
  regions : Regions s mm

namespace Settled

theorem bounds (h : Settled s bs mm) (hb : b ∈ bs) : s.sys.base ≤ b.addr ∧ b.stop ≤ s.sys.brk :=
  (h.laid.tiled.bounds hb).imp (h.base (List.ne_nil_of_mem hb)).trans id

theorem cross (h : Settled s bs mm) (hb : b ∈ bs) (hc : c ∈ mm) :
    b.stop ≤ c.addr ∨ c.stop ≤ b.addr := by
  have h₁ := h.bounds hb
  have h₂ := b.addr_lt_stop
  have h₃ := h.regions.heap_apart hc (by omega)
  omega

/-- Two blocks, of the heap or from `mmap`, are equal or do not overlap. -/
theorem apart (h : Settled s bs mm) (hb : b ∈ bs ++ mm) (hc : c ∈ bs ++ mm) :
    b = c ∨ b.stop ≤ c.addr ∨ c.stop ≤ b.addr := by
  obtain hb | hb := List.mem_append.mp hb
  · obtain hc | hc := List.mem_append.mp hc
    · exact (h.laid.tiled.tiles (List.ne_nil_of_mem hb)).eq_or_apart hb hc
    · exact .inr (h.cross hb hc)
  · obtain hc | hc := List.mem_append.mp hc
    · exact .inr (h.cross hc hb).symm
    · exact h.regions.eq_or_apart hb hc

theorem page_eq (h : Settled s bs mm) (hb : b ∈ bs ++ mm) {y : ℕ} (h₁ : b.addr ≤ y)
    (h₂ : y < b.stop) : s.sys.mem.page (y / pageSize) = true := by
  obtain hb | hb := List.mem_append.mp hb
  · have := h.bounds hb
    exact h.regions.heapMapped _ (Nat.div_le_div_right (by omega)) (System.lt_pageCeil (by omega))
  · exact h.regions.mapped b hb _ (Nat.div_le_div_right h₁) (System.lt_pageCeil h₂)

/-- The header in front of the payload of a block from `mmap`. -/
theorem mm_header (h : Settled s bs mm) (hb : b ∈ mm) :
    sub64 b.payload sizeofMetadata = b.addr ∧ getField s.sys.mem .size b.addr = b.size := by
  have hle := h.regions.le b hb
  simp only [Block.stop, sizeofMetadata, userTop] at hle
  refine ⟨?_, size_of_blockAt (h.mmList.headers b hb)⟩
  rw [Block.payload, sub64_eq] <;> simp only [sizeofMetadata] <;> omega

/-- A store that leaves all headers alone. -/
theorem setMem (h : Settled s bs mm) (hp : m.page = s.sys.mem.page)
    (hm : ∀ b ∈ bs ++ mm, ∀ y, b.addr ≤ y → y < b.addr + 40 → m.byte y = s.sys.mem.byte y) :
    Settled (s.setMem m) bs mm := by
  have hnull : (s.setMem m).sys.mem.page 0 = false := by
    rw [State.setMem_mem, hp]
    exact h.regions.null
  exact ⟨h.laid.congr rfl rfl rfl hnull fun b hb => hm b (List.mem_append_left _ hb), h.base,
    h.mmList.congr rfl fun b hb => hm b (List.mem_append_right _ hb), h.mmapKind,
    h.regions.congr rfl rfl hp⟩

/-- A store into the payload of a block. -/
theorem setPayload (h : Settled s bs mm) (hb : b ∈ bs ++ mm) (hp : m.page = s.sys.mem.page)
    (hm : ∀ y, y < b.payload ∨ b.stop ≤ y → m.byte y = s.sys.mem.byte y) :
    Settled (s.setMem m) bs mm := by
  refine h.setMem hp fun c hc y h₁ h₂ => hm y ?_
  simp only [Block.payload, Block.stop, sizeofMetadata]
  obtain rfl | h | h := h.apart hb hc
  · omega
  · simp only [Block.stop, sizeofMetadata] at h
    omega
  · simp only [Block.stop, sizeofMetadata] at h
    omega

end Settled

namespace WellFormed

theorem settled (h : WellFormed s bs mm) : Settled s bs mm :=
  ⟨⟨h.tiled, h.wilderness⟩, h.base, h.mmList, h.mmapKind, h.regions⟩

theorem of_whole (hw : Whole s bs) (hbase : bs ≠ [] → s.sys.base ≤ s.heap.firsthead)
    (hc : NoAdjacentFree bs) (hm : MmList s mm)
    (hk : ∀ b ∈ mm, mmapThreshold ≤ b.size ∧ b.free = false) (hr : Regions s mm) :
    WellFormed s bs mm :=
  ⟨hw.tiled.heapBlocks, hw.tiled.first, hbase, hw.wilderness,
    (completeList_iff hw.tiled.headers).mpr hw.listed, hc, (mmList_iff.mp hm).1,
    (mmList_iff.mp hm).2, hk, hr⟩

theorem of_settled (h : Settled s bs mm) (hl : Listed s bs) (hn : NoAdjacentFree bs) :
    WellFormed s bs mm :=
  .of_whole ⟨h.laid.tiled, h.laid.wilderness, hl⟩ h.base hn h.mmList h.mmapKind h.regions

theorem bounds (h : WellFormed s bs mm) (hb : b ∈ bs) : s.sys.base ≤ b.addr ∧ b.stop ≤ s.sys.brk :=
  h.settled.bounds hb

theorem apart (h : WellFormed s bs mm) (hb : b ∈ bs ++ mm) (hc : c ∈ bs ++ mm) :
    b = c ∨ b.stop ≤ c.addr ∨ c.stop ≤ b.addr := h.settled.apart hb hc

/-- A store into the payload of a block. -/
theorem setPayload (h : WellFormed s bs mm) (hb : b ∈ bs ++ mm) (hp : m.page = s.sys.mem.page)
    (hm : ∀ y, y < b.payload ∨ b.stop ≤ y → m.byte y = s.sys.mem.byte y) :
    WellFormed (s.setMem m) bs mm := by
  refine .of_settled (h.settled.setPayload hb hp hm) ?_ h.coalesced
  refine h.whole.listed.congr h.tiled rfl fun c hc y h₁ h₂ => hm y ?_
  simp only [Block.payload, Block.stop, sizeofMetadata]
  obtain rfl | h | h := h.apart hb (List.mem_append_left _ hc)
  · omega
  · simp only [Block.stop, sizeofMetadata] at h
    omega
  · simp only [Block.stop, sizeofMetadata] at h
    omega

end WellFormed

/-! ### Steps on the chain -/

/-- Only links of headers in `S` and `Heap.mmhead` change. -/
structure MmStep (S : Set ℕ) (s s' : State) : Prop where
  heap : s'.heap = { s.heap with mmhead := s'.heap.mmhead }
  sys : s'.sys = { s.sys with mem := s'.sys.mem }
  cookie : s'.mainCookie = s.mainCookie
  page : s'.sys.mem.page = s.sys.mem.page
  byte : ∀ y, (∀ p ∈ S, y < p + 24 ∨ p + 40 ≤ y) → s'.sys.mem.byte y = s.sys.mem.byte y

namespace MmStep

theorem refl (S : Set ℕ) (s : State) : MmStep S s s := ⟨rfl, rfl, rfl, rfl, fun _ _ => rfl⟩

theorem setLink (h : MmStep S s s') {f : Field} (hf : f = .next ∨ f = .prev) (hp : p ∈ S) (v : ℕ) :
    MmStep S s (s'.setMem (setField s'.sys.mem f p v)) where
  heap := h.heap
  sys := by rw [State.setMem, h.sys]
  cookie := h.cookie
  page := h.page
  byte y hy := by
    refine Eq.trans (Memory.write_byte_of_not_mem _ _ ?_) (h.byte y hy)
    have := hy p hp
    obtain rfl | rfl := hf
    · simp only [Field.offset, Field.width]
      omega
    · simp only [Field.offset, Field.width]
      omega

theorem setMmhead (h : MmStep S s s') (v : ℕ) :
    MmStep S s (s'.mapHeap fun h => { h with mmhead := v }) where
  heap := by rw [State.mapHeap_heap, h.heap]
  sys := h.sys
  cookie := h.cookie
  page := h.page
  byte := h.byte

theorem headers (h : MmStep S s s') (hS : Spread S) (hsub : addrs mm ⊆ S)
    (hh : Headers s.sys.mem mm) : Headers s'.sys.mem mm := fun b hb => by
  have hbS := hsub (mem_addrs hb)
  refine (blockAt_congr fun y h₁ h₂ => h.byte y fun p hp => ?_).trans (hh b hb)
  obtain rfl | h | h := hS.apart p hp _ hbS
  · omega
  · simp only [sizeofMetadata] at h
    omega
  · simp only [sizeofMetadata] at h
    omega

end MmStep

/-! ### A new block from `mmap` -/

theorem mmLast_eq {fuel v : ℕ} {l : List ℕ} (ha : a ≠ 0)
    (hL : Linked (nxt s.mmView) (prv s.mmView) a l) (h : (mmLast fuel a).run s = .ok (v, s')) :
    s = s' ∧ v = l.getLastD a := by
  induction fuel generalizing a l with
  | zero => simp [mmLast] at h
  | succ fuel ih =>
      have hnx : nxt s.mmView a = getField s.sys.mem .next a := if_neg ha
      simp only [mmLast, run_bind_eq_ok, run_ite_eq_ok, get_eq_ok, pure_eq_ok] at h
      obtain ⟨_, _, ⟨-, rfl, rfl⟩, ⟨hne, _, _, hv, h⟩ | ⟨he, rfl, rfl⟩⟩ := h
      · obtain rfl := validateCookie_eq_ok hv
        cases l with
        | nil => exact absurd (hnx.symm.trans hL) hne
        | cons b l =>
            obtain ⟨hb, hb₀, -, hL⟩ := hL
            rw [← hnx, hb] at h
            rw [List.getLastD_cons]
            exact ih hb₀ hL h
      · cases l with
        | nil => exact ⟨rfl, rfl⟩
        | cons b l => exact absurd (hL.1.symm.trans (hnx.trans (not_not.mp he))) hL.2.1

theorem mmAppend_inserted {l : List ℕ} (hS : Spread S) (hp : p ∈ S) (hl : ∀ q ∈ l, q ∈ S)
    (hpl : p ∉ l) (hL : Linked (nxt s.mmView) (prv s.mmView) 0 l) (hn : nxt s.mmView p = 0)
    (hv : prv s.mmView p = 0) (h : (mmAppend p).run s = .ok ((), s')) :
    MmStep S s s' ∧ Inserted S s.mmView s'.mmView p (l.getLastD 0) 0 := by
  have hp₀ := hS.pos p hp
  have hp₁ := hS.lt p hp
  simp only [mmAppend, run_bind_eq_ok, run_ite_eq_ok, getHeap_eq_ok, setHeap_eq_ok, set_eq_ok] at h
  obtain ⟨_, _, ⟨rfl, rfl⟩, ⟨h₀, _, _, rfl, h⟩ | ⟨h₀, q, s₁, h₁, _, _, ⟨-, rfl⟩, -, rfl⟩⟩ := h
  · obtain rfl := validateCookie_eq_ok h
    cases l with
    | cons b l => exact absurd (hL.1.symm.trans h₀) hL.2.1
    | nil =>
        refine ⟨(MmStep.refl S s).setMmhead p, ⟨?_, rfl, ?_, fun _ _ _ _ => rfl, hv,
          fun h => absurd rfl h⟩⟩
        · rintro b (rfl | hb) hbp hbx
          · exact absurd rfl hbp
          · simp only [nxt, if_neg (hS.pos b hb)]
            rfl
        · rw [← hn, nxt, nxt, if_neg hp₀, if_neg hp₀]
          rfl
  · have hL' : ∃ b l', l = b :: l' := by
      cases l with
      | nil => exact absurd hL h₀
      | cons b l => exact ⟨b, l, rfl⟩
    obtain ⟨b, l', rfl⟩ := hL'
    obtain ⟨hb, hb₀, -, hL'⟩ := hL
    have hbm : s.heap.mmhead = b := hb
    rw [hbm] at h₁
    obtain ⟨rfl, rfl⟩ := mmLast_eq hb₀ hL' h₁
    have hlast : (b :: l').getLastD 0 = l'.getLastD b := List.getLastD_cons
    rw [hlast]
    have hq : l'.getLastD b ∈ b :: l' := List.getLastD_mem_cons
    generalize l'.getLastD b = q at hq ⊢
    have hqS := hl q hq
    have hq₀ := hS.pos q hqS
    have hq₁ := hS.lt q hqS
    have hqp : q ≠ p := fun e => hpl (e ▸ hq)
    simp only [nxt, if_neg hp₀] at hn
    simp only [prv] at hv
    refine ⟨((MmStep.refl S s).setLink (.inl rfl) hqS p).setLink (.inr rfl) hp q, ?_⟩
    constructor
    · rintro c (rfl | hc) hcq hcp
      · simp [nxt, State.mmView]
      · simp [nxt, State.mmView, hS.get_setNext, hS.get_setPrev, *, Ne.symm hcq, Ne.symm hcp]
    · simp [nxt, State.mmView, hS.get_setNext, hS.get_setPrev, *]
    · have hn' : getField s.sys.mem .next p = 0 := hn
      simp [nxt, State.mmView, hS.get_setNext, hS.get_setPrev, *]
    · intro c hc _ hcp
      simp [prv, State.mmView, hS.get_setNext, hS.get_setPrev, *, Ne.symm hcp]
    · simp [prv, State.mmView, hS.get_setPrev, *]
    · exact fun h => absurd rfl h

/-- **A new block** goes behind the others. -/
theorem mmAppend_list (h : MmList s mm) (hS : Spread (addrs (mm ++ [b])))
    (hd : ((mm ++ [b]).map Block.addr).Nodup) (hb : blockAt s.sys.mem b.addr = b)
    (hn : getField s.sys.mem .next b.addr = 0) (hv : getField s.sys.mem .prev b.addr = 0)
    (hr : (mmAppend b.addr).run s = .ok ((), s')) :
    MmStep (addrs (mm ++ [b])) s s' ∧ MmList s' (mm ++ [b]) := by
  have hbS : b.addr ∈ addrs (mm ++ [b]) := mem_addrs (by simp)
  have hl : ∀ q ∈ mm.map Block.addr, q ∈ addrs (mm ++ [b]) := fun q hq => by
    obtain ⟨c, hc, rfl⟩ := List.mem_map.mp hq
    exact mem_addrs (by simp [hc])
  rw [List.map_append, List.nodup_append] at hd
  have hbl : b.addr ∉ mm.map Block.addr := fun hm => hd.2.2 _ hm b.addr (by simp) rfl
  have hn' : nxt s.mmView b.addr = 0 := (if_neg (hS.pos _ hbS)).trans hn
  obtain ⟨hs, hi⟩ := mmAppend_inserted hS hbS hl hbl h.linked hn' hv hr
  have hl' : ∀ q ∈ mm.map Block.addr ++ [], q ∈ addrs (mm ++ [b]) := by simpa using hl
  have hd' : (mm.map Block.addr ++ []).Nodup := by simpa using hd.1
  have hbl' : b.addr ∉ mm.map Block.addr ++ [] := by simpa using hbl
  refine ⟨hs, hs.headers hS subset_rfl fun c hc => ?_, ?_, ?_⟩
  · obtain hc | hc := List.mem_append.mp hc
    · exact h.headers c hc
    · obtain rfl := List.mem_singleton.mp hc
      exact hb
  · rw [List.map_append]
    exact hi.linked hS hbS hl' hd' hbl' (by simpa using h.linked)
  · rw [List.map_append]
    exact hi.firstPrev hS hl' hd' hbl' (by simpa using h.first)

/-! ### A block goes back -/

theorem mmUnlink_unlinked {block : ℕ} (hS : Spread S) (hb : block ∈ S)
    (hnull : s.sys.mem.page 0 = false) (hn : LinkIn S (nxt s.mmView block))
    (hp : LinkIn S (prv s.mmView block)) (h : (mmUnlink block).run s = .ok ((), s')) :
    MmStep S s s' ∧ Unlinked S s.mmView s'.mmView
      (if block = s.heap.mmhead then 0 else prv s.mmView block) (nxt s.mmView block) := by
  have hb₀ := hS.pos block hb
  have h₀ := isWord_zero
  simp only [nxt, if_neg hb₀] at hn ⊢
  simp only [mmUnlink, run_bind_eq_ok, run_ite_eq_ok, getHeap_eq_ok, setHeap_eq_ok, get_eq_ok,
    set_eq_ok, pure_eq_ok] at h
  obtain ⟨_, _, ⟨rfl, rfl⟩, ⟨he, _, _, ⟨-, rfl, rfl⟩, _, _, rfl, h⟩ |
    ⟨he, _, _, ⟨-, rfl, rfl⟩, _, _, ⟨-, rfl, rfl⟩, h⟩⟩ := h
  · rw [if_pos he]
    have hnb : getField s.mmView.sys.mem .next block = getField s.sys.mem .next block := rfl
    rw [hnb] at hn ⊢
    generalize getField s.sys.mem .next block = next at *
    obtain ⟨hne, _, _, hv, -, rfl⟩ | ⟨hne, -, rfl⟩ := h
    · obtain rfl := validateCookie_eq_ok hv
      have hn := hn.resolve_left hne
      refine ⟨((MmStep.refl S s).setMmhead next).setLink (.inr rfl) hn 0, ?_⟩
      constructor
      · rintro b (rfl | hb) hbp
        · exact absurd rfl hbp
        · simp [nxt, State.mmView, hS.get_setPrev, hn, hb, h₀, hbp]
      · simp [nxt, State.mmView]
      · intro b hb hbn
        simp [prv, State.mmView, hS.get_setPrev, hn, hb, h₀, Ne.symm hbn]
      · intro _
        simp [prv, State.mmView, hS.get_setPrev, hn, h₀]
    · obtain rfl := not_not.mp hne
      refine ⟨(MmStep.refl S s).setMmhead 0, ?_⟩
      constructor
      · rintro b (rfl | hb) hbp
        · exact absurd rfl hbp
        · simp [nxt, State.mmView, hbp]
      · simp [nxt, State.mmView]
      · exact fun b _ _ => rfl
      · exact fun h => absurd rfl h
  · rw [if_neg he]
    obtain ⟨_, s₁, ⟨hacc, rfl⟩, _, _, ⟨-, rfl, rfl⟩, _, _, hv, _, _, ⟨-, rfl, rfl⟩, h⟩ := h
    obtain rfl := validateCookie_eq_ok hv
    have hp₁ := hS.linkIn_isWord hp
    have hn₁ := hS.linkIn_isWord hn
    have hpb : prv s.mmView block = getField s.sys.mem .prev block := rfl
    have hnb : getField s.mmView.sys.mem .next block = getField s.sys.mem .next block := rfl
    rw [hpb] at hp hp₁ ⊢
    rw [hnb] at hn hn₁ ⊢
    simp only [State.setMem_mem] at h
    generalize hne : getField s.sys.mem .next block = next at *
    generalize hpe : getField s.sys.mem .prev block = prev at *
    -- the access to `prev->next` returned, so `prev` is not `NULL`
    have hp : prev ∈ S := by
      refine hp.resolve_left fun h₀ => ?_
      rw [h₀, not_accessible_null hnull (by decide) (by decide)] at hacc
      cases hacc
    have hp₀ := hS.pos _ hp
    have hpb' : getField (setField s.sys.mem .next prev next) .prev block = prev := by
      rw [hS.get_setNext hp hb hn₁, if_neg (by simp), hpe]
    have hnb' : getField (setField s.sys.mem .next prev next) .next block = next := by
      rw [hS.get_setNext hp hb hn₁, hne, ite_self]
    rw [hnb', hpb'] at h
    obtain ⟨hnz, _, _, ⟨-, rfl, rfl⟩, -, rfl⟩ | ⟨hnz, -, rfl⟩ := h
    · have hn := hn.resolve_left hnz
      refine ⟨((MmStep.refl S s).setLink (.inl rfl) hp next).setLink (.inr rfl) hn prev, ?_⟩
      constructor
      · rintro b (rfl | hb) hbp
        · simp [nxt, State.mmView]
        · simp [nxt, State.mmView, hS.get_setPrev, hS.get_setNext, *, Ne.symm hbp]
      · simp [nxt, State.mmView, hS.get_setPrev, hS.get_setNext, *]
      · intro b hb hbn
        simp [prv, State.mmView, hS.get_setPrev, hS.get_setNext, *, Ne.symm hbn]
      · intro _
        simp [prv, State.mmView, hS.get_setPrev, *]
    · obtain rfl := not_not.mp hnz
      refine ⟨(MmStep.refl S s).setLink (.inl rfl) hp 0, ?_⟩
      constructor
      · rintro b (rfl | hb) hbp
        · simp [nxt, State.mmView]
        · simp [nxt, State.mmView, hS.get_setNext, *, Ne.symm hbp]
      · simp [nxt, State.mmView, hS.get_setNext, *]
      · intro b hb hbn
        simp [prv, State.mmView, hS.get_setNext, *]
      · exact fun h => absurd rfl h

/-- **The block leaves** the chain. -/
theorem mmUnlink_list (h : MmList s (m₁ ++ b :: m₂)) (hS : Spread (addrs (m₁ ++ b :: m₂)))
    (hd : ((m₁ ++ b :: m₂).map Block.addr).Nodup) (hnull : s.sys.mem.page 0 = false)
    (hr : (mmUnlink b.addr).run s = .ok ((), s')) :
    MmStep (addrs (m₁ ++ b :: m₂)) s s' ∧ MmList s' (m₁ ++ m₂) := by
  have hl : ∀ q ∈ m₁.map Block.addr ++ b.addr :: m₂.map Block.addr,
      q ∈ addrs (m₁ ++ b :: m₂) := fun q hq => by
    have hq : q ∈ (m₁ ++ b :: m₂).map Block.addr := by simpa using hq
    obtain ⟨c, hc, rfl⟩ := List.mem_map.mp hq
    exact mem_addrs hc
  have hd' : (m₁.map Block.addr ++ b.addr :: m₂.map Block.addr).Nodup := by simpa using hd
  have hL := h.linked
  have hF := h.first
  rw [List.map_append, List.map_cons] at hL hF
  obtain ⟨⟨hnx, hn⟩, hpred, hp⟩ := linked_around hS hl hd' hL hF
  obtain ⟨hs, hU⟩ := mmUnlink_unlinked hS (mem_addrs (by simp)) hnull hn hp hr
  have hpred' : (if b.addr = s.heap.mmhead then 0 else prv s.mmView b.addr) =
      (m₁.map Block.addr).getLastD 0 := hpred
  rw [hpred', hnx] at hU
  refine ⟨hs, hs.headers hS ?_ fun c hc => h.headers c ?_, ?_, ?_⟩
  · exact addrs_mono fun c hc => mem_addrs (by
      obtain hc | hc := List.mem_append.mp hc <;> simp [hc])
  · obtain hc | hc := List.mem_append.mp hc <;> simp [hc]
  · rw [List.map_append]
    exact hU.linked hS hl hd' hL
  · rw [List.map_append]
    exact hU.firstPrev hS hl hd' hF

/-! ### `smalloc` and `sfree` on the chain -/

/-- The header of a new block from `mmap` at `a`. -/
def newMmBlock (m : Memory) (cookie a size : ℕ) : Memory :=
  setField (setField (newBlock m cookie a size) .next a 0) .prev a 0

theorem newMmBlock_byte {cookie y : ℕ} (h : y < a ∨ a + 40 ≤ y) :
    (newMmBlock m cookie a size).byte y = m.byte y := by
  rw [newMmBlock, setField, setField, Memory.write_byte_of_not_mem _ _ (by
    simp only [Field.offset, Field.width]; omega), Memory.write_byte_of_not_mem _ _ (by
    simp only [Field.offset, Field.width]; omega), newBlock_byte (by omega)]

theorem blockAt_newMmBlock {cookie : ℕ} (h : size < 2 ^ 64) :
    blockAt (newMmBlock m cookie a size) a = ⟨a, size, false⟩ := by
  have hn : blockAt (newBlock m cookie a size) a = ⟨a, size, false⟩ := blockAt_newBlock h
  refine Eq.trans ?_ hn
  simp only [blockAt, newMmBlock, ne_eq, reduceCtorEq, not_false_eq_true, getField_setField_field]

theorem smallocMmap_cases (hr : r ≠ 0) (h : (smallocMmap size).run s = .ok (r, s')) :
    let a := (s.sys.mmap (add64 size sizeofMetadata)).1
    let x := (s.sys.mmap (add64 size sizeofMetadata)).2
    a ≠ failed ∧ r = add64 a sizeofMetadata ∧ ∃ t : State,
      t.sys = { x with mem := newMmBlock x.mem s.mainCookie.toNat a size } ∧
      t.heap = { s.heap with
        numAllocatedBlocks := add64 s.heap.numAllocatedBlocks 1
        numAllocatedBytes := add64 s.heap.numAllocatedBytes size
        numMetaDataBytes := add64 s.heap.numMetaDataBytes sizeofMetadata } ∧
      t.mainCookie = s.mainCookie ∧ (mmAppend a).run t = .ok ((), s') := by
  simp only [smallocMmap, newAllocAdjustment, run_bind_eq_ok, run_ite_eq_ok, set_eq_ok, setHeap_eq_ok,
    setFree_eq_ok, mmap_eq_ok, gets_eq_ok, pure_eq_ok] at h
  obtain ⟨_, _, ⟨rfl, rfl⟩, ⟨-, rfl, -⟩ | ⟨hf, _, _, ⟨rfl, rfl⟩, _, _, ⟨-, rfl⟩, _, _, ⟨-, rfl⟩, _, _,
    ⟨-, rfl⟩, _, _, ⟨-, rfl⟩, _, _, ⟨-, rfl⟩, _, _, rfl, _, s₁, h, rfl, rfl⟩⟩ := h
  · exact absurd rfl hr
  · refine ⟨hf, rfl, _, ?_, ?_, ?_, h⟩ <;> rfl

theorem WellFormed.page_eq (h : WellFormed s bs mm) (hb : b ∈ bs ++ mm) {y : ℕ} (h₁ : b.addr ≤ y)
    (h₂ : y < b.stop) : s.sys.mem.page (y / pageSize) = true := h.settled.page_eq hb h₁ h₂

/-- A page that was mapped is not among those of a new region. -/
theorem apart_of_placed {n : ℕ} (h : System.Placed s.sys x a n)
    (hp : s.sys.mem.page p = true) : p < a / pageSize ∨ pageCeil (a + n) ≤ p := by
  by_contra hne
  rw [not_or, not_lt, not_le] at hne
  rw [h.fresh p hne.1 hne.2] at hp
  cases hp

theorem byte_of_placed {n y : ℕ} (h : System.Placed s.sys x a n)
    (hp : s.sys.mem.page (y / pageSize) = true) : x.mem.byte y = s.sys.mem.byte y ∧
      (y < a ∨ a + n ≤ y) := by
  have h₁ := System.le_pageCeil_mul (a + n)
  have hy : y < a ∨ pageCeil (a + n) * pageSize ≤ y := by
    obtain hp | hp := apart_of_placed h hp
    · left
      by_contra hle
      exact absurd (Nat.div_le_div_right (c := pageSize) (Nat.le_of_not_lt hle)) (by omega)
    · exact .inr ((Nat.le_div_iff_mul_le (by decide)).mp hp)
  exact ⟨h.byte y hy, by omega⟩

/-- The regions with a new one. -/
theorem Regions.placed {n : ℕ} (h : Regions s mm) (hx : System.Placed s.sys x a n)
    (hb : b.addr = a) (hn : b.stop = a + n) (hbase : s'.sys.base = x.base)
    (hbrk : s'.sys.brk = x.brk) (hpage : s'.sys.mem.page = x.mem.page) :
    Regions s' (mm ++ [b]) := by
  have hlast : b.lastPage = pageCeil (a + n) := by rw [Block.lastPage, hn]
  have hkeep : ∀ p, s.sys.mem.page p = true → s'.sys.mem.page p = true := fun p hp => by
    rw [hpage, hx.page]
    split
    next => rfl
    next => exact hp
  have hmem : ∀ {P : Block → Prop}, (∀ c ∈ mm, P c) → P b → ∀ c ∈ mm ++ [b], P c := by
    intro P h₁ h₂ c hc
    obtain hc | hc := List.mem_append.mp hc
    · exact h₁ c hc
    · exact List.mem_singleton.mp hc ▸ h₂
  have ha : 0 < a / pageSize := by
    have h₁ := hx.pos
    have h₂ := hx.aligned
    unfold pageSize at h₂ ⊢
    omega
  have hlt := b.addr_div_lt
  rw [hb, hlast] at hlt
  constructor
  · rw [hbase, hx.base]
    exact h.base_pos
  · rw [hbase, hbrk, hx.base, hx.brk]
    exact h.base_le
  · rw [hbrk, hx.brk]
    exact h.brk_le
  · rw [hpage, hx.page, if_neg (by omega)]
    exact h.null
  · exact hmem h.pos (hb ▸ hx.pos)
  · exact hmem h.aligned (hb ▸ hx.aligned)
  · exact hmem h.le (hn ▸ hx.le)
  · refine hmem (fun c hc p h₁ h₂ => hkeep p (h.mapped c hc p h₁ h₂)) fun p h₁ h₂ => ?_
    rw [hb] at h₁
    rw [hlast] at h₂
    rw [hpage, hx.page, if_pos ⟨h₁, h₂⟩]
  · intro p h₁ h₂
    rw [hbase, hx.base] at h₁
    rw [hbrk, hx.brk] at h₂
    exact hkeep p (h.heapMapped p h₁ h₂)
  · refine List.pairwise_append.mpr ⟨h.apart, List.pairwise_singleton _ _, fun c hc d hd => ?_⟩
    obtain rfl := List.mem_singleton.mp hd
    rw [hb, hlast]
    by_contra hne
    -- the first page that the two would share
    have hp := h.mapped c hc (max (c.addr / pageSize) (a / pageSize)) (le_max_left _ _) (by
      have := c.addr_div_lt
      omega)
    have := apart_of_placed hx hp
    omega
  · intro hlt'
    rw [hbase, hbrk, hx.base, hx.brk] at hlt' ⊢
    refine hmem (h.heap hlt') ?_
    rw [hb, hlast]
    by_contra hne
    have hp := h.heapMapped (max (s.sys.base / pageSize) (a / pageSize)) (le_max_left _ _) (by omega)
    have := apart_of_placed hx hp
    omega

/-- The system and the heap after the chain has changed. -/
theorem WellFormed.mmStep (hw : Whole s bs) (hbase : bs ≠ [] → s.sys.base ≤ s.heap.firsthead)
    (hc : NoAdjacentFree bs) (hs : MmStep S s s') (hm : MmList s' m₁)
    (hk : ∀ b ∈ m₁, mmapThreshold ≤ b.size ∧ b.free = false) (hr : Regions s' m₁)
    (hS : ∀ p ∈ S, ∀ b ∈ bs, p + 40 ≤ b.addr ∨ b.addr + 40 ≤ p) : WellFormed s' bs m₁ := by
  have hheap := hs.heap
  have hsys := hs.sys
  refine .of_whole (hw.congr ?_ ?_ ?_ ?_ ?_ fun b hb y h₁ h₂ => hs.byte y fun p hp => ?_)
    (fun hne => ?_) hc hm hk hr
  · rw [hheap]
  · rw [hheap]
  · rw [hheap]
  · rw [hsys]
  · rw [hs.page]
    exact hw.tiled.null
  · have := hS p hp b hb
    omega
  · rw [hsys, hheap]
    exact hbase hne

/-- **The `mmap` branch of `smalloc`** appends a block to the chain. -/
theorem smallocMmap_wellFormed (h : WellFormed s bs mm) (hT : mmapThreshold ≤ size)
    (hs : size ≤ sizeLimit) (hr : r ≠ 0) (hrun : (smallocMmap size).run s = .ok (r, s')) :
    ∃ a, r = a + sizeofMetadata ∧ WellFormed s' bs (mm ++ [⟨a, size, false⟩]) ∧
      CountStep s.heap s'.heap (0, 0, 1, (size : ℤ)) ∧ (∀ c ∈ bs ++ mm, Intact s s' c) ∧
      s'.sys.base = s.sys.base ∧ s'.sys.brk = s.sys.brk := by
  simp only [sizeLimit] at hs
  have hadd : add64 size sizeofMetadata = size + 40 := add64_eq (by
    simp only [sizeofMetadata]
    omega)
  obtain ⟨hf, hrv, t, htsys, htheap, htcookie, hi⟩ := smallocMmap_cases hr hrun
  rw [hadd] at hf hrv htsys hi
  obtain ⟨hf', -⟩ | ⟨-, hx⟩ := System.mmap_cases s.sys (size + 40)
  · exact absurd hf' hf
  generalize (s.sys.mmap (size + 40)).1 = a at hx hf hrv htsys hi
  generalize (s.sys.mmap (size + 40)).2 = x at hx htsys
  have hxle := hx.le
  simp only [userTop] at hxle
  refine ⟨a, hrv.trans (add64_eq (by simp only [sizeofMetadata]; omega)), ?_⟩
  generalize hb : (⟨a, size, false⟩ : Block) = b
  have hba : b.addr = a := by rw [← hb]
  have hbsz : b.size = size := by rw [← hb]
  have hbf : b.free = false := by rw [← hb]
  have hbstop : b.stop = a + (size + 40) := by
    rw [Block.stop, hba, hbsz, sizeofMetadata]
    omega
  -- in `t` the new header is written, and the block is not yet in the chain
  have hbyte : ∀ c ∈ bs ++ mm, ∀ y, c.addr ≤ y → y < c.stop →
      t.sys.mem.byte y = s.sys.mem.byte y := fun c hc y h₁ h₂ => by
    obtain ⟨h₃, h₄⟩ := byte_of_placed hx (h.page_eq hc h₁ h₂)
    rw [htsys]
    exact (newMmBlock_byte (by omega)).trans h₃
  have hhead : ∀ c ∈ bs ++ mm, ∀ y, c.addr ≤ y → y < c.addr + 40 →
      t.sys.mem.byte y = s.sys.mem.byte y := fun c hc y h₁ h₂ => hbyte c hc y h₁ (by
    simp only [Block.stop, sizeofMetadata]
    omega)
  have hpage : t.sys.mem.page = x.mem.page := by
    rw [htsys]
    rfl
  have hmt : MmList t mm := h.mmList.congr (by rw [htheap]) fun c hc =>
    hhead c (List.mem_append_right _ hc)
  have hreg : Regions t (mm ++ [b]) :=
    h.regions.placed hx hba hbstop (by rw [htsys]) (by rw [htsys]) hpage
  have hwt : Whole t bs := by
    refine h.whole.congr (by rw [htheap]) (by rw [htheap]) (by rw [htheap]) ?_ hreg.null
      fun c hc => hhead c (List.mem_append_left _ hc)
    rw [htsys]
    exact hx.brk
  have hlt : size < 2 ^ 64 := by omega
  have hmem : t.sys.mem = newMmBlock x.mem s.mainCookie.toNat a size := by rw [htsys]
  rw [← hba] at hi
  obtain ⟨hst, hml⟩ := mmAppend_list hmt hreg.spread hreg.nodup
    (by rw [hmem, hba, blockAt_newMmBlock hlt, hb])
    (by rw [hmem, hba, newMmBlock, getField_setField_field (by decide),
      getField_setField_same (by decide)])
    (by rw [hmem, hba, newMmBlock, getField_setField_same (by decide)]) hi
  have hbase : s'.sys.base = s.sys.base := by
    rw [hst.sys]
    show t.sys.base = _
    rw [htsys]
    exact hx.base
  have hbrk : s'.sys.brk = s.sys.brk := by
    rw [hst.sys]
    show t.sys.brk = _
    rw [htsys]
    exact hx.brk
  have hreg' : Regions s' (mm ++ [b]) :=
    hreg.congr (by rw [hst.sys]) (by rw [hst.sys]) hst.page
  -- no block overlaps a header of the chain
  have hap : ∀ p ∈ addrs (mm ++ [b]), ∀ c ∈ bs ++ mm, p = c.addr ∨ p + 40 ≤ c.addr ∨ c.stop ≤ p := by
    rintro _ ⟨d, hd, rfl⟩ c hc
    have h₁ := d.addr_lt_stop
    have h₂ := c.addr_lt_stop
    obtain hd | hd := List.mem_append.mp hd
    · obtain rfl | h | h := h.apart (List.mem_append_right _ hd) hc
      · exact .inl rfl
      · simp only [Block.stop, sizeofMetadata] at h
        omega
      · omega
    · obtain rfl := List.mem_singleton.mp hd
      have h₃ := byte_of_placed hx (h.page_eq hc le_rfl c.addr_lt_stop)
      have h₄ := byte_of_placed hx (h.page_eq hc (y := c.stop - 1) (by omega) (by omega))
      rw [hba]
      by_contra hne
      have h₅ := byte_of_placed hx (h.page_eq hc (y := a) (by omega) (by omega))
      omega
  refine ⟨.mmStep hwt (fun hne => ?_) h.coalesced hst hml (fun c hc => ?_) hreg' ?_, ?_,
    fun c hc y h₁ h₂ => ?_, hbase, hbrk⟩
  · rw [htsys, htheap]
    show x.base ≤ _
    rw [hx.base]
    exact h.base hne
  · obtain hc | hc := List.mem_append.mp hc
    · exact h.mmapKind c hc
    · rw [List.mem_singleton.mp hc, hbsz]
      exact ⟨hT, hbf⟩
  · intro p hp c hc
    have h₁ := hap p hp c (List.mem_append_left _ hc)
    have h₂ : p ≠ c.addr := by
      rintro rfl
      obtain ⟨d, hd, he⟩ := hp
      obtain hd | hd := List.mem_append.mp hd
      · obtain rfl | h | h := h.apart (List.mem_append_right _ hd) (List.mem_append_left _ hc)
        · have := h.bounds hc
          have := h.regions.heap_apart hd (by have := d.addr_lt_stop; omega)
          have := d.addr_lt_stop
          omega
        · have := d.addr_lt_stop
          omega
        · have := c.addr_lt_stop
          omega
      · obtain rfl := List.mem_singleton.mp hd
        have h₃ := byte_of_placed hx
          (h.page_eq (List.mem_append_left mm hc) le_rfl c.addr_lt_stop)
        omega
    simp only [Block.stop, sizeofMetadata] at h₁
    omega
  · rw [hst.heap]
    exact countStep_new (by rw [htheap])
  · rw [hst.byte y fun p hp => ?_]
    · refine hbyte c hc y ?_ h₂
      unfold Block.payload at h₁
      omega
    · have := hap p hp c hc
      simp only [Block.payload, sizeofMetadata] at h₁
      omega

/-- The counters after a block from `mmap` was given back. -/
theorem countStep_gone {h h' : MemoryList} (e : h' = { h with
      mmhead := h'.mmhead
      numAllocatedBlocks := sub64 h.numAllocatedBlocks 1
      numAllocatedBytes := sub64 h.numAllocatedBytes size
      numMetaDataBytes := sub64 h.numMetaDataBytes sizeofMetadata }) :
    CountStep h h' (0, 0, -1, -(size : ℤ)) := by
  rw [e]
  rintro ⟨i, j, k, l⟩ ⟨e₁, e₂, e₃, e₄, e₅⟩
  constructor
  all_goals simp only [sub64_cast, Prod.mk_add_mk, add_zero, sizeofMetadata, *]
  all_goals omega

/-- The regions without one of them. -/
theorem Regions.unmap (h : Regions s (m₁ ++ b :: m₂)) (hbase : s'.sys.base = s.sys.base)
    (hbrk : s'.sys.brk = s.sys.brk) (hpage : ∀ p, s'.sys.mem.page p =
      if b.addr / pageSize ≤ p ∧ p < b.lastPage then false else s.sys.mem.page p) :
    Regions s' (m₁ ++ m₂) := by
  have hsub : ∀ c ∈ m₁ ++ m₂, c ∈ m₁ ++ b :: m₂ := fun c hc => by
    obtain hc | hc := List.mem_append.mp hc <;> simp [hc]
  have hb : b ∈ m₁ ++ b :: m₂ := by simp
  have hap := h.apart
  rw [List.pairwise_append, List.pairwise_cons] at hap
  obtain ⟨h₁, ⟨h₂, h₃⟩, h₄⟩ := hap
  have hcb : ∀ c ∈ m₁ ++ m₂, c.lastPage ≤ b.addr / pageSize ∨ b.lastPage ≤ c.addr / pageSize := by
    intro c hc
    obtain hc | hc := List.mem_append.mp hc
    · exact h₄ c hc b List.mem_cons_self
    · exact (h₂ c hc).symm
  constructor
  · rw [hbase]
    exact h.base_pos
  · rw [hbase, hbrk]
    exact h.base_le
  · rw [hbrk]
    exact h.brk_le
  · rw [hpage, h.null, ite_self]
  · exact fun c hc => h.pos c (hsub c hc)
  · exact fun c hc => h.aligned c (hsub c hc)
  · exact fun c hc => h.le c (hsub c hc)
  · intro c hc p hp₁ hp₂
    have := hcb c hc
    rw [hpage, if_neg (by omega)]
    exact h.mapped c (hsub c hc) p hp₁ hp₂
  · intro p hp₁ hp₂
    rw [hbase] at hp₁
    rw [hbrk] at hp₂
    have := h.heap (by omega) b hb
    rw [hpage, if_neg (by omega)]
    exact h.heapMapped p hp₁ hp₂
  · exact List.pairwise_append.mpr ⟨h₁, h₃, fun c hc d hd => h₄ c hc d (List.mem_cons_of_mem _ hd)⟩
  · rw [hbase, hbrk]
    exact fun hlt c hc => h.heap hlt c (hsub c hc)

theorem sfreeMmap_cases {block : ℕ} (h : (sfreeMmap block).run s = .ok (u, s')) :
    ∃ s₁, (mmUnlink block).run s = .ok ((), s₁) ∧
      s'.sys = s₁.sys.munmap block (add64 (getField s₁.sys.mem .size block) sizeofMetadata) ∧
      s'.heap = { s₁.heap with
        numAllocatedBlocks := sub64 s₁.heap.numAllocatedBlocks 1
        numAllocatedBytes := sub64 s₁.heap.numAllocatedBytes (getField s₁.sys.mem .size block)
        numMetaDataBytes := sub64 s₁.heap.numMetaDataBytes sizeofMetadata } := by
  simp only [sfreeMmap, munmap, run_bind_eq_ok, get_eq_ok, setHeap_eq_ok, run_modify,
    Except.ok.injEq, Prod.mk.injEq] at h
  obtain ⟨_, s₁, h₁, _, _, ⟨-, rfl, rfl⟩, _, _, rfl, -, rfl⟩ := h
  exact ⟨s₁, h₁, rfl, rfl⟩

/-- **The `mmap` branch of `sfree`** takes the block out of the chain. -/
theorem sfreeMmap_settled (h : Settled s bs (m₁ ++ b :: m₂))
    (hrun : (sfreeMmap b.addr).run s = .ok (u, s')) :
    Settled s' bs (m₁ ++ m₂) ∧ (Listed s bs → Listed s' bs) ∧
      CountStep s.heap s'.heap (0, 0, -1, -(b.size : ℤ)) ∧
      (∀ c ∈ bs ++ (m₁ ++ m₂), Intact s s' c) ∧ s'.sys.base = s.sys.base ∧
      s'.sys.brk = s.sys.brk := by
  have hb : b ∈ m₁ ++ b :: m₂ := by simp
  have hsub : ∀ c ∈ m₁ ++ m₂, c ∈ m₁ ++ b :: m₂ := fun c hc => by
    obtain hc | hc := List.mem_append.mp hc <;> simp [hc]
  have hreg := h.regions
  have hle := hreg.le b hb
  simp only [Block.stop, userTop, sizeofMetadata] at hle
  obtain ⟨s₁, h₁, hsys, hheap⟩ := sfreeMmap_cases hrun
  obtain ⟨hst, hml⟩ := mmUnlink_list h.mmList hreg.spread hreg.nodup hreg.null h₁
  have hsz : getField s₁.sys.mem .size b.addr = b.size :=
    size_of_blockAt (hst.headers hreg.spread subset_rfl h.mmList.headers b hb)
  have hadd : add64 b.size sizeofMetadata = b.size + 40 := add64_eq (by
    simp only [sizeofMetadata]
    omega)
  rw [hsz, hadd] at hsys
  rw [hsz] at hheap
  have hmun : s₁.sys.munmap b.addr (b.size + 40) = { s₁.sys with
      mem := s₁.sys.mem.setPages (b.addr / pageSize) (pageCeil (b.addr + (b.size + 40))) false } :=
    if_pos (hreg.aligned b hb)
  rw [hmun] at hsys
  have hlast : pageCeil (b.addr + (b.size + 40)) = b.lastPage := by
    rw [Block.lastPage, Block.stop, sizeofMetadata, Nat.add_comm b.size 40, Nat.add_assoc]
  rw [hlast] at hsys
  have hbyte : s'.sys.mem.byte = s₁.sys.mem.byte := by
    rw [hsys]
    rfl
  have hbase : s'.sys.base = s.sys.base := by
    rw [hsys]
    show s₁.sys.base = _
    rw [hst.sys]
  have hbrk : s'.sys.brk = s.sys.brk := by
    rw [hsys]
    show s₁.sys.brk = _
    rw [hst.sys]
  have hreg' : Regions s' (m₁ ++ m₂) := hreg.unmap hbase hbrk fun p => by
    rw [hsys, ← hst.page]
    rfl
  -- the headers of the chain lie apart from the blocks of the heap
  have hap : ∀ c ∈ bs, ∀ d ∈ m₁ ++ b :: m₂, d.stop ≤ c.addr ∨ c.stop ≤ d.addr := fun c hc d hd => by
    have h₁ := h.bounds hc
    have h₂ := c.addr_lt_stop
    have h₃ := hreg.heap_apart hd (by omega)
    omega
  have hlink : ∀ c ∈ bs, ∀ y, c.addr ≤ y → y < c.stop →
      s'.sys.mem.byte y = s.sys.mem.byte y := fun c hc y hy₁ hy₂ => by
    rw [hbyte]
    refine hst.byte y ?_
    rintro _ ⟨d, hd, rfl⟩
    have := hap c hc d hd
    simp only [Block.stop, sizeofMetadata] at this hy₂
    omega
  have hhead : ∀ c ∈ bs, ∀ y, c.addr ≤ y → y < c.addr + 40 →
      s'.sys.mem.byte y = s.sys.mem.byte y := fun c hc y hy₁ hy₂ => hlink c hc y hy₁ (by
    simp only [Block.stop, sizeofMetadata]
    omega)
  refine ⟨⟨h.laid.congr ?_ ?_ hbrk hreg'.null hhead, fun hne => ?_, hml.congr ?_ fun c _ y _ _ => ?_,
      fun c hc => h.mmapKind c (hsub c hc), hreg'⟩, fun hl => hl.congr h.laid.tiled ?_ hhead, ?_,
    fun c hc y hy₁ hy₂ => ?_, hbase, hbrk⟩
  · rw [hheap, hst.heap]
  · rw [hheap, hst.heap]
  · rw [hbase, hheap, hst.heap]
    exact h.base hne
  · rw [hheap]
  · rw [hbyte]
  · rw [hheap, hst.heap]
  · exact countStep_gone (by rw [hheap, hst.heap])
  · obtain hc | hc := List.mem_append.mp hc
    · refine hlink c hc y ?_ hy₂
      unfold Block.payload at hy₁
      omega
    · rw [hbyte]
      refine hst.byte y ?_
      rintro _ ⟨d, hd, rfl⟩
      simp only [Block.payload, sizeofMetadata] at hy₁
      obtain rfl | h | h := hreg.eq_or_apart hd (hsub c hc)
      · omega
      · simp only [Block.stop, sizeofMetadata] at h
        omega
      · omega

end OsProjects.Malloc3
