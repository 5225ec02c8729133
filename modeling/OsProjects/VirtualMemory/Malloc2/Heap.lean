import Mathlib.Algebra.BigOperators.Group.List.Basic
import OsProjects.Lib.DoublyLinked
import OsProjects.Lib.Tiling
import OsProjects.VirtualMemory.Malloc2.Client

/-! # The list of blocks behind the memory

`Heap s bs` says that the memory of `s` is the list of blocks `bs`: they tile the region that
`sbrk` has given, their headers describe them, the pointers link them in this order, and the
counters are their sums. -/

namespace OsProjects.Malloc2

variable {s s' : State} {as bs cs : List Block} {b c : Block} {f : Field} {p e v : ℕ}

/-- The extent of a block. -/
def extent : Extent Block where
  addr := Block.addr
  stop := Block.stop
  lt b := by unfold Block.stop sizeofMetadata; omega

/-- The first pointer of the list, for `NULL`, and the `next` of a block. -/
def nx (s : State) (p : ℕ) : ℕ := if p = 0 then s.heap.head else metadata.get s.sys.mem .next p

/-- The `prev` of a block. -/
def pv (s : State) (p : ℕ) : ℕ := metadata.get s.sys.mem .prev p

theorem nx_setMem (s : State) (m : Memory) (p : ℕ) :
    nx (s.setMem m) p = if p = 0 then s.heap.head else metadata.get m .next p := rfl

theorem nx_mapHeap (s : State) (g : MemoryList → MemoryList) (p : ℕ) :
    nx (s.mapHeap g) p = if p = 0 then (g s.heap).head else metadata.get s.sys.mem .next p := rfl

/-- The region between `base` and the break is mapped, with the rest of its last page. -/
structure Region (s : System) : Prop where
  base_pos : 0 < s.base
  brk_le : s.brk ≤ userTop
  mapped : ∀ x, s.base ≤ x → x < s.brk → s.mem.page (x / pageSize) = true
  edge : s.brk % pageSize ≠ 0 → s.mem.page (s.brk / pageSize) = true

/-- The blocks `bs` lie from `base` up to `e`, below the break, and are linked in order. -/
structure Shape (s : State) (bs : List Block) (e : ℕ) : Prop where
  region : Region s.sys
  tiles : extent.Tiles s.sys.base bs e
  le : e ≤ s.sys.brk
  header : ∀ b ∈ bs, blockAt s.sys.mem b.addr = b
  linked : Linked (nx s) (pv s) 0 (bs.map Block.addr)
  first : ∀ b ∈ bs.head?, pv s b.addr = 0

/-- The counters of `Heap` are those of the blocks `bs`. -/
structure Counted (h : MemoryList) (bs : List Block) : Prop where
  numFreeBlocks : h.numFreeBlocks = bs.countP Block.free
  numFreeBytes : h.numFreeBytes = ((bs.filter Block.free).map Block.size).sum
  numAllocatedBlocks : h.numAllocatedBlocks = bs.length
  numAllocatedBytes : h.numAllocatedBytes = (bs.map Block.size).sum
  numMetaDataBytes : h.numMetaDataBytes = bs.length * sizeofMetadata

/-- The state holds the blocks `bs`. -/
structure Heap (s : State) (bs : List Block) : Prop where
  shape : Shape s bs s.sys.brk
  obtained : s.obtained = bs.map Block.addr
  counted : Counted s.heap bs

/-! ### Blocks of a heap -/

@[simp] theorem blockAt_addr (m : Memory) (p : ℕ) : (blockAt m p).addr = p := rfl

@[simp] theorem metadata_apart : metadata.Apart p v ↔ p + 32 ≤ v ∨ v + 32 ≤ p := Iff.rfl

/-! ### The region -/

namespace Region

theorem setMem {m : Memory} (h : Region s.sys) (hp : m.page = s.sys.mem.page) :
    Region (s.setMem m).sys where
  base_pos := h.base_pos
  brk_le := h.brk_le
  mapped x h₁ h₂ := by
    show m.page _ = true
    rw [hp]
    exact h.mapped x h₁ h₂
  edge he := by
    show m.page _ = true
    rw [hp]
    exact h.edge he

theorem accessible (h : Region s.sys) {n : ℕ} (h₁ : s.sys.base ≤ p) (h₂ : p + n ≤ s.sys.brk) :
    s.sys.mem.accessible p n = true :=
  (Memory.accessible_iff _ _ _).mpr fun x hx hn => h.mapped x (by omega) (by omega)

/-- A header in the region is mapped. -/
theorem accessible_field (h : Region s.sys) (h₁ : s.sys.base ≤ p)
    (h₂ : p + sizeofMetadata ≤ s.sys.brk) (f : Field) :
    s.sys.mem.accessible (p + f.offset) f.width = true := by
  have : f.offset + f.width ≤ sizeofMetadata := metadata.fits f
  exact h.accessible (by omega) (by omega)

/-- `sbrk` extends the region. -/
theorem extend {t t' : System} {n : ℕ} (h : Region t) (ht : System.Extended t t' n) :
    Region t' := by
  have hpage : ∀ x, t.brk ≤ x → x / pageSize < pageCeil t'.brk →
      t'.mem.page (x / pageSize) = true := by
    intro x h₁ h₂
    rw [ht.page]
    split
    next => rfl
    next hlow =>
      -- the page that the old break lies in
      have hx : x / pageSize = t.brk / pageSize ∧ t.brk % pageSize ≠ 0 := by
        unfold pageCeil pageSize at *
        omega
      rw [hx.1]
      exact h.edge hx.2
  have hbrk := ht.brk
  refine ⟨by rw [ht.base]; exact h.base_pos, ht.le, fun x h₁ h₂ => ?_, fun he => ?_⟩
  · by_cases hx : t.brk ≤ x
    · exact hpage x hx (System.lt_pageCeil h₂)
    · rw [ht.page]
      split
      next => rfl
      next => exact h.mapped x (by rwa [← ht.base]) (by omega)
  · refine hpage _ (by omega) ?_
    unfold pageCeil pageSize at *
    omega

end Region

namespace Shape

theorem bounds (h : Shape s bs e) (hb : b ∈ bs) : s.sys.base ≤ b.addr ∧ b.stop ≤ e :=
  h.tiles.bounds hb

theorem ne_zero (h : Shape s bs e) (hb : b ∈ bs) : b.addr ≠ 0 := by
  have h₁ := (h.bounds hb).1
  have h₂ := h.region.base_pos
  omega

theorem eq_or_apart (h : Shape s bs e) (hb : b ∈ bs) (hc : c ∈ bs) :
    b = c ∨ b.stop ≤ c.addr ∨ c.stop ≤ b.addr := h.tiles.eq_or_apart hb hc

/-- Headers of two blocks do not overlap. -/
theorem apart (h : Shape s bs e) (hb : b ∈ bs) (hc : c ∈ bs) :
    b.addr = c.addr ∨ metadata.Apart b.addr c.addr := by
  obtain rfl | h | h := h.eq_or_apart hb hc
  · exact .inl rfl
  · refine .inr (.inl ?_)
    show b.addr + sizeofMetadata ≤ c.addr
    unfold Block.stop at h
    omega
  · refine .inr (.inr ?_)
    show c.addr + sizeofMetadata ≤ b.addr
    unfold Block.stop at h
    omega

theorem length_lt (h : Shape s bs e) : bs.length < rounds := by
  have h₁ := h.tiles.length_le
  have h₂ := h.le
  have h₃ := h.region.brk_le
  unfold userTop at h₃
  unfold rounds
  omega

theorem header_size (h : Shape s bs e) (hb : b ∈ bs) :
    metadata.get s.sys.mem .size b.addr = b.size := by
  have := congrArg Block.size (h.header b hb)
  exact this

theorem header_free (h : Shape s bs e) (hb : b ∈ bs) :
    (metadata.get s.sys.mem .isFree b.addr != 0) = b.free := by
  have := congrArg Block.free (h.header b hb)
  exact this

/-- The `next` of a block. -/
theorem next_eq (h : Shape s (as ++ b :: cs) e) :
    metadata.get s.sys.mem .next b.addr = (cs.map Block.addr).headD 0 := by
  have hne := h.ne_zero (b := b) (by simp)
  have hl := h.linked
  rw [List.map_append, List.map_cons] at hl
  rw [← hl.nx_eq, nx, if_neg hne]

theorem head_eq (h : Shape s bs e) : s.heap.head = (bs.map Block.addr).headD 0 := by
  have hl := h.linked
  cases bs with
  | nil => exact hl
  | cons b bs => exact hl.1

/-! ### Changes of the memory -/

/-- The headers, and with them everything, are kept. -/
theorem of_headers {m : Memory} (h : Shape s bs e) (hp : m.page = s.sys.mem.page)
    (hh : ∀ b ∈ bs, ∀ f, metadata.get m f b.addr = metadata.get s.sys.mem f b.addr) :
    Shape (s.setMem m) bs e where
  region := h.region.setMem hp
  tiles := h.tiles
  le := h.le
  header b hb := by
    show blockAt m b.addr = b
    rw [blockAt, hh b hb, hh b hb]
    exact h.header b hb
  linked := by
    refine h.linked.congr (fun a ha => ?_) fun a ha => ?_
    · rw [nx_setMem, nx]
      obtain rfl | ha := List.mem_cons.mp ha
      · rw [if_pos rfl, if_pos rfl]
      · obtain ⟨b, hb, rfl⟩ := List.mem_map.mp ha
        rw [hh b hb .next]
    · obtain ⟨b, hb, rfl⟩ := List.mem_map.mp ha
      exact hh b hb .prev
  first b hb := (hh b (List.mem_of_mem_head? hb) .prev).trans (h.first b hb)

/-- Stores behind `e` are not seen. -/
theorem setField (h : Shape s bs e) (he : e ≤ p) :
    Shape (s.setMem (metadata.set s.sys.mem f p v)) bs e := by
  refine h.of_headers rfl fun b hb g => metadata.get_set_apart (.inr ?_)
  have := (h.bounds hb).2
  show b.addr + sizeofMetadata ≤ p
  unfold Block.stop at this
  omega

/-- Stores into the payload of a block are not seen. -/
theorem of_payload {m : Memory} (h : Shape s bs e) (hp : m.page = s.sys.mem.page) (hb : b ∈ bs)
    (hm : ∀ x, x < b.payload ∨ b.stop ≤ x → m.byte x = s.sys.mem.byte x) :
    Shape (s.setMem m) bs e := by
  refine h.of_headers hp fun c hc g => metadata.get_congr fun x h₁ h₂ => hm x ?_
  replace h₂ : x < c.addr + sizeofMetadata := h₂
  unfold Block.payload
  obtain rfl | hbc | hbc := h.eq_or_apart hb hc
  · exact .inl h₂
  · exact .inr (by omega)
  · unfold Block.stop at hbc
    exact .inl (by omega)

theorem mapHeap {g : MemoryList → MemoryList} (h : Shape s bs e)
    (hg : (g s.heap).head = s.heap.head) : Shape (s.mapHeap g) bs e :=
  { h with
    linked := by
      refine h.linked.congr (fun a _ => ?_) fun _ _ => rfl
      rw [nx_mapHeap, hg, nx]
    first := h.first }

/-- The flag of one block is changed. -/
theorem setFree (h : Shape s (as ++ b :: cs) e) (v : ℕ) (free : Bool) (hfree : v = free.toNat) :
    Shape (s.setMem (metadata.set s.sys.mem .isFree b.addr v))
      (as ++ { b with free := free } :: cs) e := by
  subst hfree
  have hv : free.toNat < 256 ^ metadata.width .isFree := by cases free <;> decide
  have hb : b ∈ as ++ b :: cs := by simp
  -- all fields but the flag of `b` are kept
  have hget : ∀ c ∈ as ++ b :: cs, ∀ g, metadata.get
      (metadata.set s.sys.mem .isFree b.addr free.toNat) g c.addr =
        if .isFree = g ∧ b.addr = c.addr then free.toNat else metadata.get s.sys.mem g c.addr :=
    fun c hc g => metadata.get_set (h.apart hb hc) hv
  have hmap : (as ++ { b with free := free } :: cs).map Block.addr =
      (as ++ b :: cs).map Block.addr := by simp
  have hmem : ∀ c ∈ as ++ cs, c ∈ as ++ b :: cs := by
    intro c hc
    rw [List.mem_append] at hc
    obtain hc | hc := hc <;> simp [hc]
  have hne : ∀ c ∈ as ++ cs, b.addr ≠ c.addr := by
    intro c hc hbc
    have hd := h.tiles.nodup_addr
    rw [List.map_append, List.map_cons, List.nodup_middle, List.nodup_cons] at hd
    refine hd.1 ?_
    rw [← List.map_append]
    exact List.mem_map.mpr ⟨c, hc, hbc.symm⟩
  have hlinks : ∀ a ∈ (as ++ b :: cs).map Block.addr, ∀ g, g ≠ .isFree → metadata.get
      (metadata.set s.sys.mem .isFree b.addr free.toNat) g a = metadata.get s.sys.mem g a := by
    intro a ha g hg
    obtain ⟨c, hc, rfl⟩ := List.mem_map.mp ha
    rw [hget c hc g, if_neg fun e => hg e.1.symm]
  refine ⟨h.region.setMem rfl, ?_, h.le, fun c hc => ?_, ?_, fun c hc => ?_⟩
  · obtain ⟨q, h₁, h₂⟩ := Extent.Tiles.append_iff.mp h.tiles
    exact Extent.Tiles.append_iff.mpr ⟨q, h₁, h₂⟩
  · rw [List.mem_append, List.mem_cons] at hc
    have hcases : c = { b with free := free } ∨ c ∈ as ++ cs := by
      rw [List.mem_append]
      tauto
    show blockAt (metadata.set s.sys.mem .isFree b.addr free.toNat) c.addr = c
    obtain rfl | hc := hcases
    · have h₁ := hget b hb .size
      have h₂ := hget b hb .isFree
      rw [if_neg (by simp)] at h₁
      rw [if_pos ⟨rfl, rfl⟩] at h₂
      rw [blockAt, h₁, h₂, h.header_size hb]
      cases free <;> rfl
    · rw [blockAt, hget c (hmem c hc), hget c (hmem c hc), if_neg fun e => hne c hc e.2,
        if_neg fun e => hne c hc e.2]
      exact h.header c (hmem c hc)
  · rw [hmap]
    refine h.linked.congr (fun a ha => ?_) fun a ha => hlinks a ha .prev (by simp)
    obtain rfl | ha := List.mem_cons.mp ha
    · rw [nx_setMem, nx, if_pos rfl, if_pos rfl]
    · rw [nx_setMem, nx, hlinks a ha .next (by simp)]
  · have hc' : ∃ d ∈ (as ++ b :: cs).head?, d.addr = c.addr := by
      cases as with
      | nil => exact ⟨b, rfl, by simp at hc; rw [← hc]⟩
      | cons a as => exact ⟨a, rfl, by simp at hc; rw [← hc]⟩
    obtain ⟨d, hd, hdc⟩ := hc'
    rw [← hdc]
    exact (hlinks d.addr (List.mem_map_of_mem (List.mem_of_mem_head? hd)) .prev (by simp)).trans
      (h.first d hd)

end Shape

end OsProjects.Malloc2
