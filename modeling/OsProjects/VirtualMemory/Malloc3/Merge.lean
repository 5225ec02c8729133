import Mathlib.Tactic.Abel
import OsProjects.VirtualMemory.Malloc3.Blocks
import OsProjects.VirtualMemory.Malloc3.HeapList

/-! # Splitting and merging in memory

`smerge`, `merge` and `split` against `coalesce` and `splitBlock`.  The results of this module
need of the size-ordered list only that its links stay among headers that do not overlap
(`Closed`, `Spread`): the blocks are right even where the list has lost some of them. -/

namespace OsProjects.Malloc3

open Prog

variable {S L L' H H' : Set ℕ} {s s' s'' : State} {as bs cs : List Block} {b c : Block}

/-! ### Steps inside the heap -/

/-- Only the links of headers in `L`, whole headers in `H` and `Heap` change. -/
structure HeapStep (L H : Set ℕ) (s s' : State) : Prop where
  sys : s'.sys = { s.sys with mem := s'.sys.mem }
  page : s'.sys.mem.page = s.sys.mem.page
  cookie : s'.mainCookie = s.mainCookie
  firsthead : s'.heap.firsthead = s.heap.firsthead
  mmhead : s'.heap.mmhead = s.heap.mmhead
  byte : ∀ y, (∀ p ∈ L, y < p + 24 ∨ p + 40 ≤ y) → (∀ p ∈ H, y < p ∨ p + 40 ≤ y) →
    s'.sys.mem.byte y = s.sys.mem.byte y

namespace HeapStep

theorem refl (L H : Set ℕ) (s : State) : HeapStep L H s s := ⟨rfl, rfl, rfl, rfl, rfl, fun _ _ _ => rfl⟩

theorem trans (h : HeapStep L H s s') (h' : HeapStep L H s' s'') : HeapStep L H s s'' where
  sys := by rw [h'.sys, h.sys]
  page := h'.page.trans h.page
  cookie := h'.cookie.trans h.cookie
  firsthead := h'.firsthead.trans h.firsthead
  mmhead := h'.mmhead.trans h.mmhead
  byte y hL hH := (h'.byte y hL hH).trans (h.byte y hL hH)

theorem mono (h : HeapStep L H s s') (hL : L ⊆ L') (hH : H ⊆ H') : HeapStep L' H' s s' :=
  { h with byte := fun y h₁ h₂ => h.byte y (fun p hp => h₁ p (hL hp)) fun p hp => h₂ p (hH hp) }

theorem brk (h : HeapStep L H s s') : s'.sys.brk = s.sys.brk := by rw [h.sys]

/-- A field of a header in `H` is written. -/
theorem setField (h : HeapStep L H s s') (f : Field) {p : ℕ} (hp : p ∈ H) (v : ℕ) :
    HeapStep L H s (s'.setMem (setField s'.sys.mem f p v)) where
  sys := by rw [State.setMem, h.sys]
  page := h.page
  cookie := h.cookie
  firsthead := h.firsthead
  mmhead := h.mmhead
  byte y hL hH := by
    refine Eq.trans (Memory.write_byte_of_not_mem _ _ ?_) (h.byte y hL hH)
    have h₁ := hH p hp
    have h₂ := f.offset_width_le
    simp only [sizeofMetadata] at h₂
    omega

theorem mapHeap (h : HeapStep L H s s') {f : MemoryList → MemoryList}
    (h₁ : (f s'.heap).firsthead = s'.heap.firsthead) (h₂ : (f s'.heap).mmhead = s'.heap.mmhead) :
    HeapStep L H s (s'.mapHeap f) where
  sys := h.sys
  page := h.page
  cookie := h.cookie
  firsthead := h₁.trans h.firsthead
  mmhead := h₂.trans h.mmhead
  byte := h.byte

/-- Fields of a header stay as they are if no link in `L` and no header in `H` meets them. -/
theorem getField_eq (h : HeapStep L H s s') {f : Field} {p : ℕ}
    (hL : ∀ q ∈ L, p + f.offset + f.width ≤ q + 24 ∨ q + 40 ≤ p + f.offset)
    (hH : ∀ q ∈ H, p + f.offset + f.width ≤ q ∨ q + 40 ≤ p + f.offset) :
    getField s'.sys.mem f p = getField s.sys.mem f p := by
  refine getField_congr fun y h₁ h₂ => h.byte y (fun q hq => ?_) fun q hq => ?_
  · have := hL q hq; omega
  · have := hH q hq; omega

/-- The fields in front of the links of headers outside `H`. -/
theorem getField_of_not_mem (h : HeapStep L H s s') (hS : Spread S) (hL : L ⊆ S) (hH : H ⊆ S)
    {f : Field} (hf : f.offset < 24) {p : ℕ} (hp : p ∈ S) (hp' : p ∉ H) :
    getField s'.sys.mem f p = getField s.sys.mem f p := by
  have hw : f.offset + f.width ≤ 24 := by
    revert hf; cases f <;> decide
  refine h.getField_eq (fun q hq => ?_) fun q hq => ?_
  · rcases hS.apart p hp q (hL hq) with rfl | h | h
    · omega
    · simp only [sizeofMetadata] at h; omega
    · simp only [sizeofMetadata] at h; omega
  · rcases hS.apart p hp q (hH hq) with rfl | h | h
    · exact absurd hq hp'
    · simp only [sizeofMetadata] at h; omega
    · simp only [sizeofMetadata] at h; omega

theorem blockAt_of_not_mem (h : HeapStep L H s s') (hS : Spread S) (hL : L ⊆ S) (hH : H ⊆ S)
    {p : ℕ} (hp : p ∈ S) (hp' : p ∉ H) : blockAt s'.sys.mem p = blockAt s.sys.mem p := by
  rw [blockAt, blockAt, h.getField_of_not_mem hS hL hH (by decide) hp hp',
    h.getField_of_not_mem hS hL hH (by decide) hp hp']

end HeapStep

theorem LinkStep.heapStep (h : LinkStep S s s') (H : Set ℕ) : HeapStep S H s s' :=
  ⟨h.sys, h.page, h.cookie, by rw [h.heap], by rw [h.heap], fun y hy _ => h.byte y hy⟩

theorem LinkStep.wilderness (h : LinkStep S s s') : s'.heap.wilderness = s.heap.wilderness := by
  rw [h.heap]

theorem LinkStep.countStep (h : LinkStep S s s') : CountStep s.heap s'.heap 0 := fun c hc => by
  rw [add_zero, h.heap]
  exact hc.congr rfl rfl rfl rfl rfl

/-- All links of headers in `S`, and `Heap.head`, are the same. -/
structure SameLinks (S : Set ℕ) (s s' : State) : Prop where
  nx : ∀ b, LinkIn S b → nxt s' b = nxt s b
  pv : ∀ b ∈ S, prv s' b = prv s b

namespace SameLinks

theorem trans (h : SameLinks S s s') (h' : SameLinks S s' s'') : SameLinks S s s'' :=
  ⟨fun b hb => (h'.nx b hb).trans (h.nx b hb), fun b hb => (h'.pv b hb).trans (h.pv b hb)⟩

theorem of_byte (hS : Spread S) (hh : s'.heap.head = s.heap.head)
    (h : ∀ p ∈ S, ∀ y, p + 24 ≤ y → y < p + 40 → s'.sys.mem.byte y = s.sys.mem.byte y) :
    SameLinks S s s' := by
  constructor
  · rintro b (rfl | hb)
    · simpa [nxt] using hh
    · simp only [nxt, if_neg (hS.pos b hb)]
      refine getField_congr fun y h₁ h₂ => h b hb y ?_ ?_ <;>
        simp only [Field.offset, Field.width] at * <;> omega
  · intro b hb
    refine getField_congr fun y h₁ h₂ => h b hb y ?_ ?_ <;>
      simp only [Field.offset, Field.width] at * <;> omega

/-- A field in front of the links is written. -/
theorem setField (hS : Spread S) {f : Field} (hf : f.offset < 24) {p : ℕ} (hp : p ∈ S) (v : ℕ) :
    SameLinks S s (s.setMem (setField s.sys.mem f p v)) := by
  refine of_byte hS rfl fun q hq y h₁ h₂ => Memory.write_byte_of_not_mem _ _ ?_
  have hw : f.offset + f.width ≤ 24 := by
    revert hf; cases f <;> decide
  rcases hS.apart p hp q hq with rfl | h | h
  · omega
  · simp only [sizeofMetadata] at h; omega
  · simp only [sizeofMetadata] at h; omega

theorem mapHeap {f : MemoryList → MemoryList} (h : (f s.heap).head = s.heap.head) :
    SameLinks S s (s.mapHeap f) :=
  ⟨fun b _ => by simp [nxt, h], fun _ _ => rfl⟩

theorem mono {T : Set ℕ} (h : SameLinks T s s') (hST : S ⊆ T) : SameLinks S s s' :=
  ⟨fun b hb => h.nx b (hb.mono hST), fun b hb => h.pv b (hST hb)⟩

theorem closed (h : SameLinks S s s') (hC : Closed S s) : Closed S s' :=
  ⟨fun b hb => by rw [h.nx b hb]; exact hC.nx b hb, fun b hb => by rw [h.pv b hb]; exact hC.pv b hb⟩

end SameLinks

/-! ### The blocks that the memory holds -/

/-- The address of the first block. -/
def firstAddr (bs : List Block) : ℕ := (bs.head?.map Block.addr).getD 0

/-- The address of the last block. -/
def lastAddr (bs : List Block) : ℕ := (bs.getLast?.map Block.addr).getD 0

@[simp] theorem firstAddr_append_cons (as : List Block) (b c : Block) (cs ds : List Block)
    (h : b.addr = c.addr) : firstAddr (as ++ b :: cs) = firstAddr (as ++ c :: ds) := by
  cases as <;> simp [firstAddr, h]

@[simp] theorem lastAddr_concat (as : List Block) (b : Block) : lastAddr (as ++ [b]) = b.addr := by
  simp [lastAddr]

theorem exists_mem_lastAddr (h : bs ≠ []) : ∃ b ∈ bs, b.addr = lastAddr bs := by
  refine ⟨bs.getLast h, List.getLast_mem h, ?_⟩
  simp [lastAddr, List.getLast?_eq_some_getLast h]

@[simp] theorem lastAddr_append_cons_cons (as : List Block) (b c : Block) (cs : List Block) :
    lastAddr (as ++ b :: c :: cs) = lastAddr (c :: cs) := by
  simp [lastAddr, List.getLast?_append, List.getLast?_cons]

/-- The blocks `bs` tile the heap from `Heap.firsthead` to the program break, and their
headers say so. -/
structure Tiled (s : State) (bs : List Block) : Prop where
  first : s.heap.firsthead = firstAddr bs
  pos : bs ≠ [] → s.heap.firsthead ≠ 0
  tiles : bs ≠ [] → Tiles s.heap.firsthead bs s.sys.brk
  headers : Headers s.sys.mem bs
  brk_le : s.sys.brk ≤ userTop
  null : s.sys.mem.page 0 = false

namespace Tiled

theorem spread (h : Tiled s bs) : Spread (addrs bs) := by
  by_cases hb : bs = []
  · subst hb
    constructor <;> simp [addrs]
  · exact (h.tiles hb).spread (h.pos hb) h.brk_le

theorem bounds (h : Tiled s bs) (hb : b ∈ bs) : s.heap.firsthead ≤ b.addr ∧ b.stop ≤ s.sys.brk :=
  (h.tiles (List.ne_nil_of_mem hb)).bounds hb

/-- Addresses and sizes of blocks are far from wrapping around. -/
theorem stop_le (h : Tiled s bs) (hb : b ∈ bs) : b.addr + 40 + b.size ≤ 2 ^ 47 := by
  have h₁ := (h.bounds hb).2
  have h₂ := h.brk_le
  simp only [Block.stop, sizeofMetadata, userTop] at h₁ h₂
  omega

/-- The address that `smerge` computes from a header is that of the first byte behind the block. -/
theorem next_eq (h : Tiled s bs) (hb : b ∈ bs) :
    add64 (add64 b.addr (getField s.sys.mem .size b.addr)) sizeofMetadata = b.stop := by
  have hle := h.stop_le hb
  rw [size_of_blockAt (h.headers b hb)]
  simp only [add64, Block.stop, sizeofMetadata]
  omega

theorem size_eq (h : Tiled s bs) (hb : b ∈ bs) : getField s.sys.mem .size b.addr = b.size :=
  size_of_blockAt (h.headers b hb)

theorem free_eq (h : Tiled s bs) (hb : b ∈ bs) :
    (getField s.sys.mem .isFree b.addr != 0) = b.free :=
  free_of_blockAt (h.headers b hb)

theorem addr_next (h : Tiled s (as ++ b :: c :: cs)) : c.addr = b.stop := by
  obtain ⟨q, -, h⟩ := Tiles.append_iff.mp (h.tiles (by simp))
  exact h.2.1

theorem nodup (h : Tiled s bs) : (bs.map Block.addr).Nodup := by
  by_cases hb : bs = []
  · rw [hb]; exact .nil
  · exact (h.tiles hb).nodup_addr

theorem mapHeap (h : Tiled s bs) {f : MemoryList → MemoryList}
    (hf : (f s.heap).firsthead = s.heap.firsthead) : Tiled (s.mapHeap f) bs where
  first := hf.trans h.first
  pos hb := by rw [State.mapHeap_heap, hf]; exact h.pos hb
  tiles hb := by rw [State.mapHeap_heap, hf]; exact h.tiles hb
  headers := h.headers
  brk_le := h.brk_le
  null := h.null

/-- A step that keeps the headers of `bs` keeps the tiling. -/
theorem step (h : Tiled s as) (hs : HeapStep L H s s') (hf : firstAddr bs = firstAddr as)
    (hne : bs ≠ [] → as ≠ []) (hb : Tiles s.heap.firsthead as s.sys.brk →
      Tiles s.heap.firsthead bs s.sys.brk) (hh : Headers s'.sys.mem bs) : Tiled s' bs where
  first := by rw [hs.firsthead, h.first, hf]
  pos hb' := by rw [hs.firsthead]; exact h.pos (hne hb')
  tiles hb' := by rw [hs.firsthead, hs.brk]; exact hb (h.tiles (hne hb'))
  headers := hh
  brk_le := by rw [hs.brk]; exact h.brk_le
  null := by rw [hs.page]; exact h.null

end Tiled

/-- Blocks whose headers lie outside `H` keep their headers. -/
theorem HeapStep.headers (h : HeapStep L H s s') (hS : Spread S) (hL : L ⊆ S) (hH : H ⊆ S)
    (hb : addrs bs ⊆ S) (hn : ∀ b ∈ bs, b.addr ∉ H) (hh : Headers s.sys.mem bs) :
    Headers s'.sys.mem bs := fun b hb' => by
  rw [h.blockAt_of_not_mem hS hL hH (hb (mem_addrs hb')) (hn b hb'), hh b hb']

/-- In a tiling the headers outside a segment lie apart from the headers of the segment. -/
theorem Tiled.addr_ne (ms : List Block) (h : Tiled s (as ++ (ms ++ cs))) {d : Block}
    (hd : d ∈ as ++ cs) (hb : b ∈ ms) : d.addr ≠ b.addr := by
  have hn := h.nodup
  rw [List.map_append, List.map_append, List.nodup_append, List.nodup_append] at hn
  obtain ⟨-, ⟨-, -, hn₂⟩, hn₁⟩ := hn
  rcases List.mem_append.mp hd with hd | hd
  · exact hn₁ _ (List.mem_map_of_mem hd) _ (List.mem_append_left _ (List.mem_map_of_mem hb))
  · exact (hn₂ _ (List.mem_map_of_mem hb) _ (List.mem_map_of_mem hd)).symm

/-- A step that replaces the blocks `ms` by the blocks `ns` of the same region. -/
theorem Tiled.replace (ms ns : List Block) (h : Tiled s (as ++ (ms ++ cs)))
    (hs : HeapStep L H s s') (hS : Spread S) (hL : L ⊆ S) (hH : H ⊆ S)
    (hsub : addrs (as ++ cs) ⊆ S) (hn : ∀ d ∈ as ++ cs, d.addr ∉ H)
    (ht : ∀ p e, Tiles p ms e → Tiles p ns e) (hm : ms ≠ []) (hh : Headers s'.sys.mem ns) :
    Tiled s' (as ++ (ns ++ cs)) := by
  have hne : as ++ (ms ++ cs) ≠ [] := by simp [hm]
  have hT : Tiles s.heap.firsthead (as ++ (ns ++ cs)) s.sys.brk := by
    obtain ⟨p, h₁, h₂⟩ := Tiles.append_iff.mp (h.tiles hne)
    obtain ⟨e, h₂, h₃⟩ := Tiles.append_iff.mp h₂
    exact Tiles.append_iff.mpr ⟨p, h₁, Tiles.append_iff.mpr ⟨e, ht p e h₂, h₃⟩⟩
  have hlt : s.heap.firsthead < s.sys.brk := by
    obtain ⟨d, hd⟩ := List.exists_mem_of_ne_nil _ hne
    have := h.bounds hd
    simp only [Block.stop, sizeofMetadata] at this
    omega
  have hf : firstAddr (as ++ (ns ++ cs)) = s.heap.firsthead := by
    cases hl : as ++ (ns ++ cs) with
    | nil =>
        rw [hl] at hT
        exact absurd hT hlt.ne
    | cons d ds =>
        rw [hl] at hT
        exact hT.1
  have hkeep := hs.headers hS hL hH hsub hn fun d hd => h.headers d <| by
    rcases List.mem_append.mp hd with hd | hd
    · exact List.mem_append_left _ hd
    · exact List.mem_append_right _ (List.mem_append_right _ hd)
  refine h.step hs (hf.trans h.first) (fun _ => hne) (fun _ => hT) fun d hd => ?_
  rcases List.mem_append.mp hd with hd | hd
  · exact hkeep d (List.mem_append_left _ hd)
  · rcases List.mem_append.mp hd with hd | hd
    · exact hh d hd
    · exact hkeep d (List.mem_append_right _ hd)

/-- A link step keeps the blocks. -/
theorem Tiled.linkStep (h : Tiled s bs) (hs : LinkStep S s s') (hS : Spread S)
    (hb : addrs bs ⊆ S) : Tiled s' bs :=
  h.step (hs.heapStep ∅) rfl id id
    ((hs.heapStep ∅).headers hS subset_rfl (Set.empty_subset S) hb (fun _ _ => id) h.headers)

/-- The blocks `bs` tile the heap and the wilderness is the last of them. -/
structure Laid (s : State) (bs : List Block) : Prop where
  tiled : Tiled s bs
  wilderness : s.heap.wilderness = lastAddr bs

/-- The blocks `bs` tile the heap, the wilderness is the last of them, and all links stay among
the headers in `L`, which do not overlap. -/
structure Shape (L : Set ℕ) (s : State) (bs : List Block) : Prop where
  spread : Spread L
  sub : addrs bs ⊆ L
  closed : Closed L s
  tiled : Tiled s bs
  wilderness : s.heap.wilderness = lastAddr bs

theorem Shape.laid (h : Shape L s bs) : Laid s bs := ⟨h.tiled, h.wilderness⟩

/-- A step inside the heap that turns the blocks `as` into `bs`, with exact counters. -/
structure Becomes (L H : Set ℕ) (s s' : State) (as bs : List Block) : Prop where
  step : HeapStep L H s s'
  shape : Shape L s' bs
  counts : CountStep s.heap s'.heap (counts bs - counts as)

namespace Becomes

theorem refl (H : Set ℕ) (h : Shape L s bs) : Becomes L H s s bs bs :=
  ⟨HeapStep.refl L H s, h, fun c hc => by rwa [sub_self, add_zero]⟩

theorem trans (h : Becomes L H s s' as bs) (h' : Becomes L' H' s' s'' bs cs) (hL : L ⊆ L')
    (hH : H ⊆ H') : Becomes L' H' s s'' as cs :=
  ⟨(h.step.mono hL hH).trans h'.step, h'.shape,
    (h.counts.trans h'.counts).of_eq (by rw [add_comm, sub_add_sub_cancel])⟩

theorem mono (h : Becomes L H s s' as bs) (hH : H ⊆ H') : Becomes L H' s s' as bs :=
  ⟨h.step.mono subset_rfl hH, h.shape, h.counts⟩

end Becomes

/-! ### Absorbing the next block -/

/-- The counters after two free blocks became one. -/
def absorbCounters (h : MemoryList) : MemoryList := { h with
  numFreeBlocks := sub64 h.numFreeBlocks 1
  numFreeBytes := add64 h.numFreeBytes sizeofMetadata
  numAllocatedBlocks := sub64 h.numAllocatedBlocks 1
  numAllocatedBytes := add64 h.numAllocatedBytes sizeofMetadata
  numMetaDataBytes := sub64 h.numMetaDataBytes sizeofMetadata }

theorem absorbCounters_countStep (h : MemoryList) : CountStep h (absorbCounters h)
    (-1, (sizeofMetadata : ℤ), -1, (sizeofMetadata : ℤ)) := by
  rintro ⟨a, b, c, d⟩ ⟨h₁, h₂, h₃, h₄, h₅⟩
  constructor <;>
    simp only [absorbCounters, add64_cast, sub64_cast, sizeofMetadata, Prod.mk_add_mk, *] <;> omega

/-- The state in which `absorb` turns to the list. -/
def absorbed (s : State) (p q : ℕ) : State :=
  (s.setMem (setField s.sys.mem .size p (add64 (getField s.sys.mem .size p)
    (add64 (getField s.sys.mem .size q) sizeofMetadata)))).mapHeap absorbCounters

/-- What `absorb` does: the size of the first block and the counters change, both blocks
leave the list and the first one returns to it. -/
theorem absorb_cases {p q : ℕ} (h : (absorb p q).run s = .ok ((), s')) :
    ∃ s₂ s₃, (heapListRemove p).run (absorbed s p q) = .ok ((), s₂) ∧
      (heapListRemove q).run s₂ = .ok ((), s₃) ∧ (heapListInsert p).run s₃ = .ok ((), s') := by
  simp only [absorb, run_bind_eq_ok, get_eq_ok, set_eq_ok, setHeap_eq_ok] at h
  obtain ⟨_, _, ⟨-, rfl, rfl⟩, _, _, ⟨-, rfl, rfl⟩, _, _, ⟨-, rfl⟩, _, _, rfl, _, s₂, h₂, _, s₃, h₃,
    h₄⟩ := h
  exact ⟨s₂, s₃, h₂, h₃, h₄⟩

theorem absorbed_heapStep (s : State) (p q : ℕ) : HeapStep L {p} s (absorbed s p q) :=
  ((HeapStep.refl L {p} s).setField .size (Set.mem_singleton p) _).mapHeap rfl rfl

theorem absorbed_sameLinks (hS : Spread S) {p : ℕ} (hp : p ∈ S) (q : ℕ) :
    SameLinks S s (absorbed s p q) :=
  (SameLinks.setField hS (by decide) hp _).trans (SameLinks.mapHeap rfl)

/-- The blocks once the size of `b` was set. -/
theorem absorbed_tiled (hS : Spread S) (hsub : addrs (as ++ b :: c :: cs) ⊆ S)
    (ht : Tiled s (as ++ b :: c :: cs)) :
    Tiled (absorbed s b.addr c.addr) (as ++ b.absorb c :: cs) := by
  have hb : b ∈ as ++ b :: c :: cs := by simp
  have hc : c ∈ as ++ b :: c :: cs := by simp
  have hcb := ht.addr_next
  have hsc := ht.stop_le hc
  refine Tiled.replace [b, c] [b.absorb c] ht (absorbed_heapStep (L := ∅) s _ _) hS
    (Set.empty_subset S) (Set.singleton_subset_iff.mpr (hsub (mem_addrs hb))) ?_
    (fun d hd => Tiled.addr_ne [b, c] ht hd (by simp)) ?_ (by simp) ?_
  · exact (addrs_mono fun d hd => mem_addrs (by
      rcases List.mem_append.mp hd with hd | hd <;> simp [hd])).trans hsub
  · intro p e h
    simp only [tiles_cons, tiles_nil, Block.absorb_stop hcb] at h ⊢
    exact ⟨h.1, h.2.2⟩
  · -- the header of the block that grew
    intro d hd
    obtain rfl := List.mem_singleton.mp hd
    have hw : add64 b.size (add64 c.size sizeofMetadata) = b.size + (c.size + 40) := by
      simp only [Block.stop, sizeofMetadata] at hcb
      simp only [add64, sizeofMetadata]
      omega
    have hlt : b.size + (c.size + 40) < 256 ^ Field.size.width := by
      simp only [Block.stop, sizeofMetadata] at hcb
      simp only [Field.width]
      omega
    simp only [Block.absorb_addr, blockAt, absorbed, State.mapHeap_sys, State.setMem_mem,
      ht.size_eq hb, ht.size_eq hc, hw]
    rw [getField_setField (.inl rfl) hlt, getField_setField (.inl rfl) hlt]
    simp [ht.free_eq hb, Block.absorb, sizeofMetadata]

theorem addrs_absorb (as : List Block) (b c : Block) (cs : List Block) :
    addrs (as ++ b.absorb c :: cs) ⊆ addrs (as ++ b :: c :: cs) := by
  refine addrs_mono fun d hd => ?_
  rcases List.mem_append.mp hd with hd | hd
  · exact ⟨d, by simp [hd], rfl⟩
  · rcases List.mem_cons.mp hd with rfl | hd
    · exact ⟨b, by simp, rfl⟩
    · exact ⟨d, by simp [hd], rfl⟩

/-- The three list operations of `absorb` touch links only. -/
theorem absorb_linkStep (hS : Spread S) (hnull : s.sys.mem.page 0 = false) (hC : Closed S s)
    {p q : ℕ} (hp : p ∈ S) (hq : q ∈ S) (h : (absorb p q).run s = .ok ((), s')) :
    LinkStep S (absorbed s p q) s' ∧ Closed S s' := by
  obtain ⟨s₂, s₃, h₂, h₃, h₄⟩ := absorb_cases h
  have hC₁ := (absorbed_sameLinks hS hp q).closed hC
  have hnull₁ : (absorbed s p q).sys.mem.page 0 = false := hnull
  obtain ⟨l₂, hC₂⟩ := heapListRemove_closed hS hnull₁ hp hC₁ h₂
  obtain ⟨l₃, hC₃⟩ := heapListRemove_closed hS (by rw [l₂.page]; exact hnull₁) hq hC₂ h₃
  have hS' : Spread (insert p S) := by rwa [Set.insert_eq_of_mem hp]
  obtain ⟨l₄, hC₄⟩ := heapListInsert_closed hS' (by rw [l₃.page, l₂.page]; exact hnull₁) hC₃ h₄
  rw [Set.insert_eq_of_mem hp] at l₄ hC₄
  exact ⟨(l₂.trans l₃).trans l₄, hC₄⟩

/-- `absorb` on two free blocks; the wilderness is left to the caller. -/
theorem absorb_tiled (hS : Spread S) (hsub : addrs (as ++ b :: c :: cs) ⊆ S) (hC : Closed S s)
    (ht : Tiled s (as ++ b :: c :: cs)) (h : (absorb b.addr c.addr).run s = .ok ((), s')) :
    HeapStep S {b.addr} s s' ∧ Closed S s' ∧ Tiled s' (as ++ b.absorb c :: cs) ∧
      s'.heap.wilderness = s.heap.wilderness ∧
      CountStep s.heap s'.heap (-1, (sizeofMetadata : ℤ), -1, (sizeofMetadata : ℤ)) := by
  have hb : b.addr ∈ S := hsub ⟨b, by simp, rfl⟩
  have hc : c.addr ∈ S := hsub ⟨c, by simp, rfl⟩
  obtain ⟨hl, hC'⟩ := absorb_linkStep hS ht.null hC hb hc h
  have ht' := absorbed_tiled hS hsub ht
  refine ⟨(absorbed_heapStep s _ _).trans (hl.heapStep _), hC',
    ht'.linkStep hl hS ((addrs_absorb as b c cs).trans hsub), hl.wilderness, ?_⟩
  have := (absorbCounters_countStep s.heap).trans hl.countStep
  rwa [add_zero] at this

/-! ### Merging -/

theorem counts_absorb (hb : b.free = true) (hc : c.free = true) :
    counts (as ++ b.absorb c :: cs) - counts (as ++ b :: c :: cs) =
      (-1, (sizeofMetadata : ℤ), -1, (sizeofMetadata : ℤ)) := by
  simp only [counts_append, counts_cons, Block.absorb_counts hb hc]
  abel

theorem addrs_append (as bs : List Block) : addrs (as ++ bs) = addrs as ∪ addrs bs := by
  ext p
  simp only [addrs, List.mem_append, Set.mem_ofPred_eq, Set.mem_union]
  constructor
  · rintro ⟨b, hb | hb, rfl⟩
    · exact .inl ⟨b, hb, rfl⟩
    · exact .inr ⟨b, hb, rfl⟩
  · rintro (⟨b, hb, rfl⟩ | ⟨b, hb, rfl⟩)
    · exact ⟨b, .inl hb, rfl⟩
    · exact ⟨b, .inr hb, rfl⟩

/-- What one round of `smerge` does. -/
theorem smerge_cases {limit fuel ptr next : ℕ}
    (hnext : add64 (add64 ptr (getField s.sys.mem .size ptr)) sizeofMetadata = next)
    (h : (smerge limit (fuel + 1) ptr).run s = .ok ((), s')) :
    (ptr = limit ∧ s = s') ∨ (next = limit ∧ s = s') ∨
    (next ≠ limit ∧ ((getField s.sys.mem .isFree ptr != 0) = false ∨
        (getField s.sys.mem .isFree next != 0) = false) ∧
      (smerge limit fuel next).run s = .ok ((), s')) ∨
    (next ≠ limit ∧ (getField s.sys.mem .isFree ptr != 0) = true ∧
      (getField s.sys.mem .isFree next != 0) = true ∧
      ∃ s₁, (absorb ptr next).run s = .ok ((), s₁) ∧
        (next = s₁.heap.wilderness ∧ s₁.mapHeap (fun h => { h with wilderness := ptr }) = s' ∨
          next ≠ s₁.heap.wilderness ∧ (smerge limit fuel ptr).run s₁ = .ok ((), s'))) := by
  simp only [smerge, run_ite_eq_ok, run_bind_eq_ok, get_eq_ok, pure_eq_ok, getFree_eq_ok,
    getHeap_eq_ok, setHeap_eq_ok] at h
  obtain ⟨he, -, rfl⟩ | ⟨-, _, _, hv, _, _, ⟨-, rfl, rfl⟩, h⟩ := h
  · exact .inl ⟨he, rfl⟩
  obtain rfl := validateCookie_eq_ok hv
  rw [hnext] at h
  obtain ⟨he, -, rfl⟩ | ⟨hne, _, _, hv, _, _, ⟨-, rfl, rfl⟩, _, _, ⟨-, rfl, rfl⟩, h⟩ := h
  · exact .inr (.inl ⟨he, rfl⟩)
  obtain rfl := validateCookie_eq_ok hv
  obtain ⟨hf, h⟩ | ⟨hf, _, s₁, h₁, _, _, ⟨rfl, rfl⟩, h⟩ := h
  · exact .inr (.inr (.inl ⟨hne, hf, h⟩))
  · rw [not_or, Bool.not_eq_false, Bool.not_eq_false] at hf
    exact .inr (.inr (.inr ⟨hne, hf.1, hf.2, s₁, h₁, h⟩))

theorem addrs_singleton (b : Block) : addrs [b] = {b.addr} := by
  ext p; simp [addrs, eq_comm]

/-- The block behind `b` was the wilderness, or it was not and the list of blocks goes on. -/
theorem absorb_shape (hsh : Shape L s (as ++ b :: c :: cs))
    (h : (absorb b.addr c.addr).run s = .ok ((), s')) :
    cs = [] ∧ c.addr = s'.heap.wilderness ∨
      cs ≠ [] ∧ c.addr ≠ s'.heap.wilderness ∧ Shape L s' (as ++ b.absorb c :: cs) := by
  obtain ⟨-, hC, ht, hw, -⟩ := absorb_tiled hsh.spread hsh.sub hsh.closed hsh.tiled h
  have hwild := hw.trans hsh.wilderness
  rw [lastAddr_append_cons_cons] at hwild
  cases cs with
  | nil => exact .inl ⟨rfl, by simpa [lastAddr] using hwild.symm⟩
  | cons d ds =>
      have hlast : s'.heap.wilderness = lastAddr (d :: ds) :=
        hwild.trans (lastAddr_append_cons_cons [] c d ds)
      refine .inr ⟨List.cons_ne_nil d ds, fun hc => ?_, ⟨hsh.spread,
        (addrs_absorb as b c _).trans hsh.sub, hC, ht, by rw [hlast, lastAddr_append_cons_cons]⟩⟩
      -- the wilderness is the last block, and `c` is not
      obtain ⟨e, he, hea⟩ := exists_mem_lastAddr (List.cons_ne_nil d ds)
      have hnd := hsh.tiled.nodup
      rw [List.map_append, List.nodup_append, List.map_cons, List.map_cons, List.nodup_cons,
        List.nodup_cons] at hnd
      refine hnd.2.1.2.1 ?_
      rw [hc, hlast, ← hea]
      exact List.mem_map_of_mem he

/-- What one round of `smerge` does to the blocks: it stops at the last one, it goes on behind
`b`, or it absorbs the block behind `b` and goes on with the larger one. -/
theorem smerge_round {fuel : ℕ} (hsh : Shape L s (as ++ b :: cs))
    (h : (smerge s.sys.brk (fuel + 1) b.addr).run s = .ok ((), s')) :
    (cs = [] ∧ s = s') ∨
    (∃ c ds, cs = c :: ds ∧ (b.free && c.free) = false ∧
      (smerge s.sys.brk fuel c.addr).run s = .ok ((), s')) ∨
    (∃ c ds s₁ s₂, cs = c :: ds ∧ b.free = true ∧ c.free = true ∧
      (absorb b.addr c.addr).run s = .ok ((), s₁) ∧
      s₂.sys = s₁.sys ∧ s₂.heap.head = s₁.heap.head ∧
      Becomes L {b.addr} s s₂ (as ++ b :: c :: ds) (as ++ b.absorb c :: ds) ∧
      (ds = [] ∧ s₂ = s' ∨ (smerge s₂.sys.brk fuel b.addr).run s₂ = .ok ((), s'))) := by
  have hb : b ∈ as ++ b :: cs := by simp
  have hst := (hsh.tiled.bounds hb).2
  have hne : b.addr ≠ s.sys.brk := by
    simp only [Block.stop, sizeofMetadata] at hst
    omega
  have h := smerge_cases (hsh.tiled.next_eq hb) h
  cases cs with
  | nil =>
      have hlast : b.stop = s.sys.brk := by
        obtain ⟨q, -, -, h⟩ := Tiles.append_iff.mp (hsh.tiled.tiles (by simp))
        exact h
      obtain ⟨he, -⟩ | ⟨-, rfl⟩ | ⟨he, -⟩ | ⟨he, -⟩ := h
      · exact absurd he hne
      · exact .inl ⟨rfl, rfl⟩
      · exact absurd hlast he
      · exact absurd hlast he
  | cons c cs =>
      have hc : c ∈ as ++ b :: c :: cs := by simp
      have hcb : c.addr = b.stop := hsh.tiled.addr_next
      have hcne : c.addr ≠ s.sys.brk := by
        have := (hsh.tiled.bounds hc).2
        simp only [Block.stop, sizeofMetadata] at this
        omega
      rw [← hcb, hsh.tiled.free_eq hb, hsh.tiled.free_eq hc] at h
      obtain ⟨he, -⟩ | ⟨he, -⟩ | ⟨-, hf, h⟩ | ⟨-, hbf, hcf, s₁, h₁, h⟩ := h
      · exact absurd he hne
      · exact absurd he hcne
      · exact .inr (.inl ⟨c, cs, rfl, by rcases hf with hf | hf <;> simp [hf], h⟩)
      · obtain ⟨hstep, hC, ht, hw, hcnt⟩ := absorb_tiled hsh.spread hsh.sub hsh.closed hsh.tiled h₁
        have hsub := (addrs_absorb as b c cs).trans hsh.sub
        have hcnt : CountStep s.heap s₁.heap
            (counts (as ++ b.absorb c :: cs) - counts (as ++ b :: c :: cs)) :=
          hcnt.of_eq (counts_absorb hbf hcf).symm
        refine .inr (.inr ⟨c, cs, s₁, ?_⟩)
        obtain ⟨rfl, hwild⟩ | ⟨-, hwild, hsh₁⟩ := absorb_shape hsh h₁
        · obtain ⟨-, rfl⟩ | ⟨hc, -⟩ := h
          · refine ⟨s₁.mapHeap fun h => { h with wilderness := b.addr }, rfl, hbf, hcf, h₁, rfl,
              rfl, ⟨hstep.mapHeap rfl rfl, ⟨hsh.spread, hsub,
              (SameLinks.mapHeap rfl).closed hC, ht.mapHeap rfl, by simp⟩, ?_⟩, .inl ⟨rfl, rfl⟩⟩
            exact fun k hk => (hcnt k hk).congr rfl rfl rfl rfl rfl
          · exact absurd hwild hc
        · obtain ⟨hc, -⟩ | ⟨-, h⟩ := h
          · exact absurd hc hwild
          · rw [← hstep.brk] at h
            exact ⟨s₁, rfl, hbf, hcf, h₁, rfl, rfl, ⟨hstep, hsh₁, hcnt⟩, .inr h⟩

/-- **`smerge`** from the block `b` on coalesces the blocks from `b` on. -/
theorem smerge_becomes {fuel : ℕ} (hsh : Shape L s (as ++ b :: cs))
    (h : (smerge s.sys.brk fuel b.addr).run s = .ok ((), s')) :
    Becomes L (addrs (as ++ coalesceFrom b cs)) s s' (as ++ b :: cs) (as ++ coalesceFrom b cs) := by
  induction fuel generalizing s as b cs with
  | zero => simp [smerge] at h
  | succ fuel ih =>
      obtain ⟨rfl, rfl⟩ | ⟨c, cs, rfl, hf, h⟩ | ⟨c, cs, s₁, s₂, rfl, hb, hc, -, -, -, hm, h⟩ :=
        smerge_round hsh h
      · exact .refl _ hsh
      · have e : as ++ b :: c :: cs = (as ++ [b]) ++ c :: cs := by simp
        have e' : as ++ b :: coalesceFrom c cs = (as ++ [b]) ++ coalesceFrom c cs := by simp
        rw [coalesceFrom, if_neg (by simp [hf]), e']
        rw [e] at hsh ⊢
        exact ih hsh h
      · have hhead : {b.addr} ⊆ addrs (as ++ coalesceFrom (b.absorb c) cs) := by
          obtain ⟨d, ds, hd, hda, -⟩ := coalesceFrom_head (b.absorb c) cs
          rw [Set.singleton_subset_iff, hd]
          exact ⟨d, by simp, hda⟩
        rw [coalesceFrom, if_pos (by simp [hb, hc])]
        obtain ⟨rfl, rfl⟩ | h := h
        · exact hm.mono hhead
        · exact hm.trans (ih hm.shape h) subset_rfl hhead

@[simp] theorem sbrk_eq_ok {n v : ℕ} : (sbrk n).run s = .ok (v, s') ↔
    (s.sys.sbrk n).1 = v ∧ { s with sys := (s.sys.sbrk n).2 } = s' := by
  show Except.ok _ = _ ↔ _
  simp [Prod.ext_iff]

@[simp] theorem mmap_eq_ok {n v : ℕ} : (mmap n).run s = .ok (v, s') ↔
    (s.sys.mmap n).1 = v ∧ { s with sys := (s.sys.mmap n).2 } = s' := by
  show Except.ok _ = _ ↔ _
  simp [Prod.ext_iff]

theorem merge_cases (h : merge.run s = .ok ((), s')) :
    (s.heap.firsthead = 0 ∨ s.sys.brk = failed) ∧ s = s' ∨
      s.heap.firsthead ≠ 0 ∧ (smerge s.sys.brk rounds s.heap.firsthead).run s = .ok ((), s') := by
  simp only [merge, run_bind_eq_ok, sbrk_eq_ok, System.sbrk_zero, getHeap_eq_ok, run_ite_eq_ok,
    pure_eq_ok] at h
  obtain ⟨_, _, ⟨rfl, rfl⟩, _, _, ⟨rfl, rfl⟩, ⟨hf, -, rfl⟩ | ⟨hf, h⟩⟩ := h
  · exact .inl ⟨hf, rfl⟩
  · exact .inr ⟨fun e => hf (.inl e), h⟩

theorem merge_nil (hsh : Shape L s []) (h : merge.run s = .ok ((), s')) : s = s' := by
  have hf : s.heap.firsthead = 0 := hsh.tiled.first
  obtain ⟨-, rfl⟩ | ⟨hf', -⟩ := merge_cases h
  · rfl
  · exact absurd hf hf'

theorem merge_cons (hsh : Shape L s (b :: cs)) (h : merge.run s = .ok ((), s')) :
    (smerge s.sys.brk rounds b.addr).run s = .ok ((), s') := by
  have hf : s.heap.firsthead = b.addr := hsh.tiled.first
  have hpos := hsh.tiled.pos (List.cons_ne_nil b cs)
  have hle := hsh.tiled.brk_le
  obtain ⟨hc | hc, -⟩ | ⟨-, h⟩ := merge_cases h
  · exact absurd hc hpos
  · simp only [userTop, failed] at hle hc
    omega
  · rwa [hf] at h

/-- **`merge`** coalesces the whole heap. -/
theorem merge_becomes (hsh : Shape L s bs) (h : merge.run s = .ok ((), s')) :
    Becomes L (addrs (coalesce bs)) s s' bs (coalesce bs) := by
  cases bs with
  | nil =>
      obtain rfl := merge_nil hsh h
      exact .refl _ hsh
  | cons b cs =>
      have hsh' : Shape L s ([] ++ b :: cs) := hsh
      exact smerge_becomes hsh' (merge_cons hsh h)

/-! ### Flags -/

theorem lastAddr_setFree (v : Bool) :
    lastAddr (as ++ { b with free := v } :: cs) = lastAddr (as ++ b :: cs) := by
  cases cs with
  | nil => simp
  | cons c cs => simp

theorem setFree_tiled {v : Bool} (ht : Tiled s (as ++ b :: cs))
    (h : (setFree b.addr v).run s = .ok ((), s')) :
    HeapStep L {b.addr} s s' ∧ Tiled s' (as ++ { b with free := v } :: cs) ∧
      s'.heap = s.heap ∧ ∀ S, Spread S → b.addr ∈ S → SameLinks S s s' := by
  obtain ⟨-, rfl⟩ := setFree_eq_ok.mp h
  have hb : b ∈ as ++ b :: cs := by simp
  have hstep : HeapStep L {b.addr} s (s.setMem (setField s.sys.mem .isFree b.addr v.toNat)) :=
    (HeapStep.refl L {b.addr} s).setField .isFree (Set.mem_singleton _) _
  have hstep₀ : HeapStep ∅ {b.addr} s (s.setMem (setField s.sys.mem .isFree b.addr v.toNat)) :=
    (HeapStep.refl ∅ {b.addr} s).setField .isFree (Set.mem_singleton _) _
  refine ⟨hstep, ?_, rfl, fun S hS hbS => .setField hS (by decide) hbS _⟩
  refine Tiled.replace [b] [{ b with free := v }] ht hstep₀ ht.spread
    (Set.empty_subset _) (Set.singleton_subset_iff.mpr (mem_addrs hb)) ?_
    (fun d hd => Tiled.addr_ne [b] ht hd (by simp)) (fun p e h => h) (by simp)
    fun d hd => ?_
  · exact addrs_mono fun d hd => mem_addrs (by
      rcases List.mem_append.mp hd with hd | hd <;> simp [hd])
  · obtain rfl := List.mem_singleton.mp hd
    have hv : v.toNat < 256 ^ Field.isFree.width := by cases v <;> decide
    simp only [blockAt, State.setMem_mem]
    rw [getField_setField (.inl rfl) hv, getField_setField (.inl rfl) hv]
    cases v <;> simp [ht.size_eq hb]

/-- The headers after the flag of one block was written. -/
theorem addrs_setFree (v : Bool) :
    addrs (as ++ { b with free := v } :: cs) = addrs (as ++ b :: cs) := by
  ext p
  simp [addrs, or_and_right, exists_or]

/-- Writing the flag of one block. -/
theorem setFree_shape {v : Bool} (hsh : Shape L s (as ++ b :: cs))
    (h : (setFree b.addr v).run s = .ok ((), s')) :
    HeapStep L {b.addr} s s' ∧ Shape L s' (as ++ { b with free := v } :: cs) ∧
      s'.heap = s.heap := by
  obtain ⟨hstep, ht, hheap, hlinks⟩ := setFree_tiled hsh.tiled h
  refine ⟨hstep, ⟨hsh.spread, ?_, ?_, ht, ?_⟩, hheap⟩
  · rw [addrs_setFree]
    exact hsh.sub
  · exact (hlinks L hsh.spread (hsh.sub (mem_addrs (by simp)))).closed hsh.closed
  · rw [hheap, lastAddr_setFree]
    exact hsh.wilderness

theorem markFree_cases {p : ℕ} (h : (markFree p).run s = .ok ((), s')) :
    ∃ s₁, (setFree p true).run s = .ok ((), s₁) ∧ s' = s₁.mapHeap fun h => { h with
      numFreeBlocks := add64 h.numFreeBlocks 1
      numFreeBytes := add64 h.numFreeBytes (getField s₁.sys.mem .size p) } := by
  simp only [markFree, run_bind_eq_ok, get_eq_ok, setHeap_eq_ok] at h
  obtain ⟨_, s₁, h₁, _, _, ⟨-, rfl, rfl⟩, rfl⟩ := h
  exact ⟨s₁, h₁, rfl⟩

theorem markUsed_cases {p : ℕ} (h : (markUsed p).run s = .ok ((), s')) :
    ∃ s₁, (setFree p false).run s = .ok ((), s₁) ∧ s' = s₁.mapHeap fun h => { h with
      numFreeBlocks := sub64 h.numFreeBlocks 1
      numFreeBytes := sub64 h.numFreeBytes (getField s₁.sys.mem .size p) } := by
  simp only [markUsed, run_bind_eq_ok, get_eq_ok, setHeap_eq_ok] at h
  obtain ⟨_, s₁, h₁, _, _, ⟨-, rfl, rfl⟩, rfl⟩ := h
  exact ⟨s₁, h₁, rfl⟩

/-- A change of the counters of `Heap` only. -/
theorem Shape.mapHeap (h : Shape L s bs) {f : MemoryList → MemoryList}
    (hf : f s.heap = { f s.heap with
      head := s.heap.head, firsthead := s.heap.firsthead, wilderness := s.heap.wilderness }) :
    Shape L (s.mapHeap f) bs where
  spread := h.spread
  sub := h.sub
  closed := (SameLinks.mapHeap (by rw [hf])).closed h.closed
  tiled := h.tiled.mapHeap (by rw [hf])
  wilderness := by rw [State.mapHeap_heap, hf]; exact h.wilderness

theorem counts_setFree (v : Bool) : counts (as ++ { b with free := v } :: cs) -
    counts (as ++ b :: cs) = ({ b with free := v } : Block).counts - b.counts := by
  simp only [counts_append, counts_cons]
  abel

theorem markFree_becomes (hsh : Shape L s (as ++ b :: cs)) (hb : b.free = false)
    (h : (markFree b.addr).run s = .ok ((), s')) :
    Becomes L {b.addr} s s' (as ++ b :: cs) (as ++ { b with free := true } :: cs) := by
  obtain ⟨s₁, h₁, rfl⟩ := markFree_cases h
  obtain ⟨hstep, hsh₁, hheap⟩ := setFree_shape hsh h₁
  have hs : getField s₁.sys.mem .size b.addr = b.size :=
    hsh₁.tiled.size_eq (b := { b with free := true }) (by simp)
  refine ⟨hstep.mapHeap rfl rfl, hsh₁.mapHeap rfl, ?_⟩
  have hd : ({ b with free := true } : Block).counts - b.counts = (1, (b.size : ℤ), 0, 0) := by
    simp [Block.counts, hb, Prod.ext_iff]
  rw [counts_setFree, hd]
  rintro ⟨i, j, k, l⟩ ⟨e₁, e₂, e₃, e₄, e₅⟩
  constructor <;>
    simp only [State.mapHeap_heap, add64_cast, Prod.mk_add_mk, add_zero, *] <;> omega

theorem markUsed_tiled (ht : Tiled s (as ++ b :: cs)) (hb : b.free = true)
    (h : (markUsed b.addr).run s = .ok ((), s')) :
    HeapStep L {b.addr} s s' ∧ Tiled s' (as ++ { b with free := false } :: cs) ∧
      s'.heap.wilderness = s.heap.wilderness ∧
      CountStep s.heap s'.heap (counts (as ++ { b with free := false } :: cs) -
        counts (as ++ b :: cs)) ∧ ∀ S, Spread S → b.addr ∈ S → SameLinks S s s' := by
  obtain ⟨s₁, h₁, rfl⟩ := markUsed_cases h
  obtain ⟨hstep, ht₁, hheap, hlinks⟩ := setFree_tiled ht h₁
  have hs : getField s₁.sys.mem .size b.addr = b.size :=
    ht₁.size_eq (b := { b with free := false }) (by simp)
  refine ⟨hstep.mapHeap rfl rfl, ht₁.mapHeap rfl, (congrArg MemoryList.wilderness hheap :), ?_,
    fun S hS hbS => (hlinks S hS hbS).trans (.mapHeap rfl)⟩
  have hd : ({ b with free := false } : Block).counts - b.counts = (-1, -(b.size : ℤ), 0, 0) := by
    simp [Block.counts, hb, Prod.ext_iff]
  rw [counts_setFree, hd]
  rintro ⟨i, j, k, l⟩ ⟨e₁, e₂, e₃, e₄, e₅⟩
  constructor <;>
    simp only [State.mapHeap_heap, sub64_cast, Prod.mk_add_mk, add_zero, *] <;> omega

theorem markUsed_becomes (hsh : Shape L s (as ++ b :: cs)) (hb : b.free = true)
    (h : (markUsed b.addr).run s = .ok ((), s')) :
    Becomes L {b.addr} s s' (as ++ b :: cs) (as ++ { b with free := false } :: cs) := by
  obtain ⟨hstep, ht, hwild, hcnt, hlinks⟩ := markUsed_tiled hsh.tiled hb h
  refine ⟨hstep, ⟨hsh.spread, ?_, ?_, ht, ?_⟩, hcnt⟩
  · rw [addrs_setFree]
    exact hsh.sub
  · exact (hlinks L hsh.spread (hsh.sub (mem_addrs (by simp)))).closed hsh.closed
  · rw [hwild, lastAddr_setFree]
    exact hsh.wilderness

theorem mergeWithout_cases {p : ℕ} (hp : p ≠ 0) (h : (mergeWithout p).run s = .ok ((), s')) :
    ∃ s₁ s₂, (setFree p false).run s = .ok ((), s₁) ∧ merge.run s₁ = .ok ((), s₂) ∧
      (setFree p (getField s.sys.mem .isFree p != 0)).run s₂ = .ok ((), s') := by
  simp only [mergeWithout, run_ite_eq_ok, run_bind_eq_ok, getFree_eq_ok] at h
  obtain ⟨-, _, _, ⟨-, rfl, rfl⟩, _, s₁, h₁, _, s₂, h₂, h₃⟩ | ⟨he, -⟩ := h
  · exact ⟨s₁, s₂, h₁, h₂, h₃⟩
  · exact absurd hp he

/-! ### Splitting -/

/-- The counters after a block was split to `n` bytes with a remainder of `r` bytes. -/
def splitCounters (free : Bool) (n r : ℕ) (h : MemoryList) : MemoryList :=
  let h := if free = false then { h with
      numFreeBlocks := add64 h.numFreeBlocks 1
      numFreeBytes := add64 h.numFreeBytes r }
    else { h with numFreeBytes := sub64 h.numFreeBytes (add64 n sizeofMetadata) }
  { h with
    numAllocatedBlocks := add64 h.numAllocatedBlocks 1
    numAllocatedBytes := sub64 h.numAllocatedBytes sizeofMetadata
    numMetaDataBytes := add64 h.numMetaDataBytes sizeofMetadata }

/-- The memory once `split` has written the header of the new block. -/
def newHeader (m : Memory) (cookie p q n : ℕ) : Memory :=
  let m := setField (setField m .cookie q cookie) .isFree q 1
  setField m .size q (sub64 (sub64 (getField m .size p) n) sizeofMetadata)

/-- The state in which `split` turns to the list; `q` is the new block. -/
def divided (s : State) (p q n : ℕ) : State :=
  let m := newHeader s.sys.mem s.mainCookie.toNat p q n
  (s.setMem (setField (setField m .isFree p 0) .size p n)).mapHeap fun h =>
    splitCounters (getField m .isFree p != 0) n (getField m .size q)
      { h with wilderness := if p = h.wilderness then q else h.wilderness }

theorem split_cases {p q n : ℕ} (hq : add64 (add64 p n) sizeofMetadata = q)
    (h : (split p n).run s = .ok ((), s')) :
    (canSplit (getField s.sys.mem .size p) n = true ∧ ∃ s₂ s₃,
      (heapListRemove p).run (divided s p q n) = .ok ((), s₂) ∧
      (heapListInsert p).run s₂ = .ok ((), s₃) ∧ (heapListInsert q).run s₃ = .ok ((), s')) ∨
    (canSplit (getField s.sys.mem .size p) n = false ∧
      ((getField s.sys.mem .isFree p != 0) = true ∧ (markUsed p).run s = .ok ((), s') ∨
        (getField s.sys.mem .isFree p != 0) = false ∧ s = s')) := by
  subst hq
  simp only [split, run_bind_eq_ok] at h
  obtain ⟨_, _, hv, h⟩ := h
  obtain rfl := validateCookie_eq_ok hv
  simp only [run_bind_eq_ok, run_ite_eq_ok, get_eq_ok, set_eq_ok, setHeap_eq_ok, getFree_eq_ok,
    setFree_eq_ok, gets_eq_ok, pure_eq_ok, and_assoc, exists_and_left, exists_eq_left', exists_const,
    Bool.not_eq_true, true_and, State.setMem_mem, State.mapHeap_sys, State.mapHeap_mainCookie,
    State.mapHeap_setMem, State.setMem_setMem, State.mapHeap_mapHeap] at h
  obtain ⟨-, ⟨hc, -, -, -, -, -, -, -, -, _, s₂, h₂, _, s₃, h₃, h₄⟩ | ⟨hc, -, h⟩⟩ := h
  · exact .inl ⟨hc, s₂, s₃, h₂, h₃, h₄⟩
  · exact .inr ⟨hc, h⟩

/-- The block that `split` leaves at the front. -/
def Block.front (b : Block) (n : ℕ) : Block := ⟨b.addr, n, false⟩

/-- The free block that `split` leaves at the back. -/
def Block.back (b : Block) (n : ℕ) : Block :=
  ⟨b.addr + n + sizeofMetadata, b.size - n - sizeofMetadata, true⟩

/-- Bytes that no field of the two headers covers. -/
theorem divided_byte {p q n y : ℕ} (h : ∀ f : Field, f.offset < 24 →
      (y < p + f.offset ∨ p + f.offset + f.width ≤ y) ∧
      (y < q + f.offset ∨ q + f.offset + f.width ≤ y)) :
    (divided s p q n).sys.mem.byte y = s.sys.mem.byte y := by
  simp only [divided, newHeader, State.mapHeap_sys, State.setMem_mem, setField]
  rw [Memory.write_byte_of_not_mem _ _ (h .size (by decide)).1,
    Memory.write_byte_of_not_mem _ _ (h .isFree (by decide)).1,
    Memory.write_byte_of_not_mem _ _ (h .size (by decide)).2,
    Memory.write_byte_of_not_mem _ _ (h .isFree (by decide)).2,
    Memory.write_byte_of_not_mem _ _ (h .cookie (by decide)).2]

theorem divided_heap (s : State) (p q n : ℕ) : ∃ v r, (divided s p q n).heap =
    splitCounters v n r { s.heap with
      wilderness := if p = s.heap.wilderness then q else s.heap.wilderness } :=
  ⟨_, _, rfl⟩

theorem splitCounters_eq (free : Bool) (n r : ℕ) (h : MemoryList) :
    splitCounters free n r h = { splitCounters free n r h with
      head := h.head, firsthead := h.firsthead, wilderness := h.wilderness, mmhead := h.mmhead } := by
  unfold splitCounters
  split <;> rfl

theorem divided_heapStep {p q n : ℕ} (hp : p ∈ H) (hq : q ∈ H) :
    HeapStep L H s (divided s p q n) := by
  obtain ⟨v, r, hk⟩ := divided_heap s p q n
  refine ⟨rfl, rfl, rfl, by rw [hk, splitCounters_eq], by rw [hk, splitCounters_eq],
    fun y _ hH => divided_byte fun f hf => ?_⟩
  have h₁ := hH p hp
  have h₂ := hH q hq
  have h₃ := f.offset_width_le
  simp only [sizeofMetadata] at h₃
  omega

theorem divided_sameLinks {p q n : ℕ} (hS : Spread S) (hp : p ∈ S) (hq : q ∈ S) :
    SameLinks S s (divided s p q n) := by
  obtain ⟨v, r, hk⟩ := divided_heap s p q n
  refine SameLinks.of_byte hS (by rw [hk, splitCounters_eq]) fun a' ha' y h₁ h₂ =>
    divided_byte fun f hf => ?_
  have hw : f.offset + f.width ≤ 24 := by
    revert hf; cases f <;> decide
  have hd : ∀ a ∈ S, y < a + f.offset ∨ a + f.offset + f.width ≤ y := by
    intro a ha
    rcases hS.apart a ha a' ha' with rfl | h | h
    · omega
    · simp only [sizeofMetadata] at h; omega
    · simp only [sizeofMetadata] at h; omega
  exact ⟨hd p hp, hd q hq⟩

/-- The two headers that `split` writes. -/
theorem divided_blocks {n : ℕ} (hb : blockAt s.sys.mem b.addr = b) (hsz : b.addr + b.size < 2 ^ 63)
    (hn : n + sizeofMetadata ≤ b.size) :
    let s' := divided s b.addr (b.back n).addr n
    blockAt s'.sys.mem (b.front n).addr = b.front n ∧ blockAt s'.sys.mem (b.back n).addr = b.back n ∧
      s'.heap = splitCounters b.free n (b.size - n - sizeofMetadata) { s.heap with wilderness :=
        if b.addr = s.heap.wilderness then (b.back n).addr else s.heap.wilderness } := by
  intro s'
  have hap : Apart b.addr (b.addr + n + sizeofMetadata) := .inl (by omega)
  have hap' : Apart (b.addr + n + sizeofMetadata) b.addr := hap.symm
  have hne : b.addr ≠ b.addr + n + sizeofMetadata := by simp only [sizeofMetadata]; omega
  have hsize : getField s.sys.mem .size b.addr = b.size := size_of_blockAt hb
  have hfree : (getField s.sys.mem .isFree b.addr != 0) = b.free := free_of_blockAt hb
  simp only [sizeofMetadata] at hn
  have hr : sub64 (sub64 b.size n) sizeofMetadata = b.size - n - sizeofMetadata := by
    have h₁ : sub64 b.size n = b.size - n := sub64_eq (by omega) (by omega)
    rw [h₁]
    exact sub64_eq (by simp only [sizeofMetadata]; omega) (by omega)
  have hnw : n < 256 ^ Field.size.width := by simp only [Field.width]; omega
  have hrw : b.size - n - sizeofMetadata < 256 ^ Field.size.width := by
    simp only [Field.width]; omega
  have hck : s.mainCookie.toNat < 256 ^ Field.cookie.width := s.mainCookie.toNat_lt
  have h1 : 1 < 256 ^ Field.isFree.width := by decide
  have h0 : 0 < 256 ^ Field.isFree.width := by decide
  simp only [blockAt, s', divided, newHeader, State.mapHeap_sys, State.setMem_mem, Block.front,
    Block.back, State.mapHeap_heap, State.setMem_heap]
  generalize b.addr + n + sizeofMetadata = q at *
  simp [getField_setField_same, getField_setField_field, getField_setField_apart, *]
  rfl

theorem splitCounters_countStep {n : ℕ} (hn : n + sizeofMetadata ≤ b.size)
    (hsz : b.size < 2 ^ 63) (h : MemoryList) :
    CountStep h (splitCounters b.free n (b.size - n - sizeofMetadata) h)
      (counts [b.front n, b.back n] - b.counts) := by
  have hr : ((b.size - n - sizeofMetadata : ℕ) : ℤ) = b.size - n - 40 := by
    simp only [sizeofMetadata] at *; omega
  have hnn : (add64 n sizeofMetadata : ℤ) = n + 40 := by
    rw [add64_eq (by omega)]; simp [sizeofMetadata]
  simp only [sizeofMetadata] at hn hr hnn ⊢
  cases hb : b.free with
  | false =>
      have hd : counts [b.front n, b.back n] - b.counts = (1, (b.size : ℤ) - n - 40, 1, -40) := by
        simp [Block.counts, Block.front, Block.back, hb, hr, sizeofMetadata]
        ring
      rw [hd]
      rintro ⟨i, j, k, l⟩ ⟨e₁, e₂, e₃, e₄, e₅⟩
      constructor <;>
        simp only [splitCounters, if_true, add64_cast, sub64_cast, Prod.mk_add_mk, sizeofMetadata,
          *] <;> omega
  | true =>
      have hd : counts [b.front n, b.back n] - b.counts = (0, -((n : ℤ) + 40), 1, -40) := by
        simp [Block.counts, Block.front, Block.back, hb, hr, sizeofMetadata]
        ring_nf
        simp
      rw [hd]
      rintro ⟨i, j, k, l⟩ ⟨e₁, e₂, e₃, e₄, e₅⟩
      constructor <;>
        simp only [splitCounters, Bool.true_eq_false, if_false, add64_cast, sub64_cast,
          Prod.mk_add_mk, sizeofMetadata, *] <;> omega

theorem splitBlock_of_canSplit {n : ℕ} (h : canSplit b.size n = true) :
    splitBlock b n = [b.front n, b.back n] := if_pos h

theorem splitBlock_of_not {n : ℕ} (h : canSplit b.size n = false) :
    splitBlock b n = [{ b with free := false }] := if_neg (by simp [h])

theorem back_addr_eq {n : ℕ} (ht : Tiled s (as ++ b :: cs)) (hn : n + sizeofMetadata ≤ b.size) :
    add64 (add64 b.addr n) sizeofMetadata = (b.back n).addr := by
  have hle := ht.stop_le (b := b) (by simp)
  simp only [add64, sizeofMetadata, Block.back] at hn ⊢
  omega

/-- The remainder of the wilderness is the new wilderness. -/
theorem wilderness_split {n : ℕ} (ht : Tiled s (as ++ b :: cs))
    (hw : s.heap.wilderness = lastAddr (as ++ b :: cs)) :
    (if b.addr = s.heap.wilderness then (b.back n).addr else s.heap.wilderness) =
      lastAddr (as ++ ([b.front n, b.back n] ++ cs)) := by
  simp only [hw]
  cases cs with
  | nil => simp [lastAddr]
  | cons c cs =>
      have hne : b.addr ≠ lastAddr (as ++ b :: c :: cs) := by
        rw [lastAddr_append_cons_cons]
        obtain ⟨d, hd, hda⟩ := exists_mem_lastAddr (List.cons_ne_nil c cs)
        rw [← hda]
        exact (Tiled.addr_ne [b] ht (List.mem_append_right as hd) (by simp)).symm
      rw [if_neg hne]
      have e : as ++ ([b.front n, b.back n] ++ c :: cs) =
          (as ++ [b.front n]) ++ b.back n :: c :: cs := by simp
      rw [e, lastAddr_append_cons_cons, lastAddr_append_cons_cons]

theorem addrs_front_back (b : Block) (n : ℕ) :
    addrs [b.front n, b.back n] = {b.addr, (b.back n).addr} := by
  ext p; simp [addrs, Block.front, eq_comm]

/-- The blocks once `split` has written the two headers. -/
theorem divided_tiled {n : ℕ} (ht : Tiled s (as ++ b :: cs)) (hS : Spread S)
    (hsub : addrs (as ++ b :: cs) ⊆ S) (hq : (b.back n).addr ∈ S)
    (hn : n + sizeofMetadata ≤ b.size) :
    Tiled (divided s b.addr (b.back n).addr n) (as ++ ([b.front n, b.back n] ++ cs)) := by
  have hb : b ∈ as ++ b :: cs := by simp
  have hle := ht.stop_le hb
  obtain ⟨hfront, hback, -⟩ :=
    divided_blocks (s := s) (n := n) (ht.headers b hb) (by omega) hn
  simp only [sizeofMetadata] at hn
  have hst : HeapStep ∅ {b.addr, (b.back n).addr} s (divided s b.addr (b.back n).addr n) :=
    divided_heapStep (by simp) (by simp)
  have hH : {b.addr, (b.back n).addr} ⊆ S := Set.insert_subset (hsub (mem_addrs hb))
    (Set.singleton_subset_iff.mpr hq)
  have hcs : addrs (as ++ cs) ⊆ S := (addrs_mono fun d hd => mem_addrs (by
    rcases List.mem_append.mp hd with hd | hd <;> simp [hd])).trans hsub
  refine Tiled.replace [b] [b.front n, b.back n] ht hst hS (Set.empty_subset S) hH hcs
    (fun d hd => ?_) (fun p e h => ?_) (by simp) ?_
  · -- the new header lies inside `b`
    have hne := Tiled.addr_ne [b] ht hd (List.mem_singleton_self b)
    have hd' : d ∈ as ++ b :: cs := by
      rcases List.mem_append.mp hd with hd | hd <;> simp [hd]
    rintro (h | h)
    · exact hne h
    · rcases (ht.tiles (by simp)).eq_or_apart hb hd' with e | e | e
      · exact hne (by rw [e])
      · simp only [Block.stop, Block.back, Set.mem_singleton_iff, sizeofMetadata] at e h
        omega
      · simp only [Block.stop, Block.back, Set.mem_singleton_iff, sizeofMetadata] at e h
        omega
  · simp only [tiles_cons, tiles_nil, Block.stop, Block.front, Block.back, sizeofMetadata] at h ⊢
    omega
  · simp only [Headers, List.forall_mem_cons]
    exact ⟨hfront, hback, by simp⟩

theorem addr_mem_splitBlock (b : Block) (n : ℕ) : b.addr ∈ addrs (splitBlock b n) := by
  cases hc : canSplit b.size n with
  | false =>
      rw [splitBlock_of_not hc]
      exact ⟨{ b with free := false }, by simp, rfl⟩
  | true =>
      rw [splitBlock_of_canSplit hc]
      exact ⟨b.front n, by simp, rfl⟩

/-- The parts of a split block tile it. -/
theorem splitBlock_tiles {n p e : ℕ} (hn : n ≤ b.size ∨ n ≤ sizeLimit) (h : Tiles p [b] e) :
    Tiles p (splitBlock b n) e := by
  cases hc : canSplit b.size n with
  | false =>
      rw [splitBlock_of_not hc]
      exact h
  | true =>
      rw [splitBlock_of_canSplit hc]
      have := canSplit_le hn hc
      simp only [tiles_cons, tiles_nil, Block.stop, Block.front, Block.back, sizeofMetadata] at *
      omega

theorem Tiled.split_spread {n : ℕ} (ht : Tiled s (as ++ b :: cs))
    (hn : n ≤ b.size ∨ n ≤ sizeLimit) :
    Spread (addrs (as ++ b :: cs) ∪ addrs (splitBlock b n)) := by
  have hT := ht.tiles (by simp)
  obtain ⟨p, h₁, h₂⟩ := Tiles.append_iff.mp hT
  rw [← List.singleton_append, Tiles.append_iff] at h₂
  obtain ⟨e, h₂, h₃⟩ := h₂
  have hT' : Tiles s.heap.firsthead (as ++ (splitBlock b n ++ cs)) s.sys.brk :=
    Tiles.append_iff.mpr ⟨p, h₁, Tiles.append_iff.mpr ⟨e, splitBlock_tiles hn h₂, h₃⟩⟩
  refine (hT'.spread (ht.pos (by simp)) ht.brk_le).mono ?_
  have hb := addr_mem_splitBlock b n
  rintro q (⟨d, hd, rfl⟩ | ⟨d, hd, rfl⟩)
  · rcases List.mem_append.mp hd with hd | hd
    · exact ⟨d, by simp [hd], rfl⟩
    · rcases List.mem_cons.mp hd with rfl | hd
      · rw [addrs_append, addrs_append]
        exact .inr (.inl hb)
      · exact ⟨d, by simp [hd], rfl⟩
  · exact ⟨d, by simp [hd], rfl⟩

/-- `split` on a heap whose other blocks may be out of reach of the list; `S` has all headers. -/
theorem split_tiled {n : ℕ} (ht₀ : Tiled s (as ++ b :: cs)) (hn : n ≤ b.size ∨ n ≤ sizeLimit)
    (hC : Closed L s) (hbL : b.addr ∈ L) (hS : Spread S) (hsubS : addrs (as ++ b :: cs) ⊆ S)
    (hLS : L ∪ addrs (splitBlock b n) ⊆ S) (h : (split b.addr n).run s = .ok ((), s')) :
    HeapStep (L ∪ addrs (splitBlock b n)) (addrs (splitBlock b n)) s s' ∧
      Closed (L ∪ addrs (splitBlock b n)) s' ∧ Tiled s' (as ++ (splitBlock b n ++ cs)) ∧
      (s.heap.wilderness = lastAddr (as ++ b :: cs) →
        s'.heap.wilderness = lastAddr (as ++ (splitBlock b n ++ cs))) ∧
      CountStep s.heap s'.heap (counts (as ++ (splitBlock b n ++ cs)) -
        counts (as ++ b :: cs)) := by
  have hb : b ∈ as ++ b :: cs := by simp
  have hle := ht₀.stop_le hb
  have hcases := split_cases rfl h
  rw [ht₀.size_eq hb, ht₀.free_eq hb] at hcases
  obtain ⟨hc, s₂, s₃, h₂, h₃, h₄⟩ | ⟨hc, ⟨hf, h⟩ | ⟨hf, rfl⟩⟩ := hcases
  · have hfit : n + sizeofMetadata ≤ b.size := by
      have := canSplit_le hn hc
      omega
    rw [splitBlock_of_canSplit hc] at hLS ⊢
    rw [back_addr_eq ht₀ hfit] at h₂ h₄
    have hqA : (b.back n).addr ∈ addrs [b.front n, b.back n] := ⟨b.back n, by simp, rfl⟩
    have hpA : b.addr ∈ addrs [b.front n, b.back n] := ⟨b.front n, by simp, rfl⟩
    have hLS₁ : L ⊆ S := Set.subset_union_left.trans hLS
    have hA : addrs [b.front n, b.back n] ⊆ S := Set.subset_union_right.trans hLS
    have hins : insert (b.back n).addr L = L ∪ addrs [b.front n, b.back n] := by
      rw [addrs_front_back]
      ext p
      simp only [Set.mem_insert_iff, Set.mem_union, Set.mem_singleton_iff]
      constructor
      · rintro (rfl | h) <;> simp [*]
      · rintro (h | rfl | rfl) <;> simp [*]
    -- the state in which `split` turns to the list
    have hst : HeapStep L (addrs [b.front n, b.back n]) s (divided s b.addr (b.back n).addr n) :=
      divided_heapStep hpA hqA
    have hlinks : SameLinks L s (divided s b.addr (b.back n).addr n) :=
      (divided_sameLinks hS (hA hpA) (hA hqA)).mono hLS₁
    obtain ⟨-, -, hheap⟩ :=
      divided_blocks (s := s) (n := n) (ht₀.headers b hb) (by omega) hfit
    have hC := hlinks.closed hC
    have ht := divided_tiled ht₀ hS hsubS (hA hqA) hfit
    -- the three list operations
    have hnull := ht.null
    have hSL := hS.mono hLS₁
    obtain ⟨l₂, hC₂⟩ := heapListRemove_closed hSL hnull hbL hC h₂
    have hL : insert b.addr L = L := Set.insert_eq_of_mem hbL
    obtain ⟨l₃, hC₃⟩ := heapListInsert_closed (by rw [hL]; exact hSL)
      (by rw [l₂.page]; exact hnull) hC₂ h₃
    rw [hL] at l₃ hC₃
    obtain ⟨l₄, hC₄⟩ := heapListInsert_closed (by rw [hins]; exact hS.mono hLS)
      (by rw [l₃.page, l₂.page]; exact hnull) hC₃ h₄
    rw [hins] at l₄ hC₄
    have hl := ((l₂.trans l₃).mono Set.subset_union_left).trans l₄
    have hsub : addrs (as ++ ([b.front n, b.back n] ++ cs)) ⊆ S := by
      have hcs : addrs (as ++ cs) ⊆ S := (addrs_mono fun d hd => mem_addrs (by
        rcases List.mem_append.mp hd with hd | hd <;> simp [hd])).trans hsubS
      rw [addrs_append, addrs_append] at *
      exact Set.union_subset (Set.subset_union_left.trans hcs)
        (Set.union_subset hA (Set.subset_union_right.trans hcs))
    refine ⟨(hst.mono Set.subset_union_left subset_rfl).trans (hl.heapStep _), hC₄,
      ht.linkStep (hl.mono hLS) hS hsub, fun hw => ?_, ?_⟩
    · rw [hl.wilderness, hheap, splitCounters_eq]
      exact wilderness_split ht₀ hw
    · have hk := splitCounters_countStep (b := b) hfit (by omega) { s.heap with wilderness :=
        if b.addr = s.heap.wilderness then (b.back n).addr else s.heap.wilderness }
      rw [← hheap] at hk
      have hd : counts (as ++ ([b.front n, b.back n] ++ cs)) - counts (as ++ b :: cs) =
          counts [b.front n, b.back n] - b.counts + 0 := by
        simp only [counts_append, counts_cons, counts_nil]
        abel
      rw [hd]
      exact CountStep.trans (fun k hk' => hk k (hk'.congr rfl rfl rfl rfl rfl)) hl.countStep
  · have hA : addrs [{ b with free := false }] = {b.addr} := addrs_singleton _
    rw [splitBlock_of_not hc, hA, Set.union_eq_left.mpr (Set.singleton_subset_iff.mpr hbL)] at *
    obtain ⟨hstep, ht, hwild, hcnt, hlinks⟩ := markUsed_tiled ht₀ hf h
    have hSL := hS.mono (Set.subset_union_left.trans hLS)
    refine ⟨hstep, (hlinks L hSL hbL).closed hC, ht, fun hw => ?_, hcnt⟩
    rw [hwild, hw]
    exact (lastAddr_setFree false).symm
  · have hA : addrs [{ b with free := false }] = {b.addr} := addrs_singleton _
    have he : { b with free := false } = b := by rw [← hf]
    rw [splitBlock_of_not hc, hA, Set.union_eq_left.mpr (Set.singleton_subset_iff.mpr hbL), he]
    exact ⟨.refl _ _ s, hC, ht₀, id,
      fun c hc => by rwa [List.singleton_append, sub_self, add_zero]⟩

/-- **`split`** turns the block `b` into `splitBlock b n`. -/
theorem split_becomes {n : ℕ} (hsh : Shape L s (as ++ b :: cs))
    (hn : n ≤ b.size ∨ n ≤ sizeLimit) (hS : Spread (L ∪ addrs (splitBlock b n)))
    (h : (split b.addr n).run s = .ok ((), s')) :
    Becomes (L ∪ addrs (splitBlock b n)) (addrs (splitBlock b n)) s s' (as ++ b :: cs)
      (as ++ (splitBlock b n ++ cs)) := by
  have hsubS := hsh.sub.trans (Set.subset_union_left (t := addrs (splitBlock b n)))
  obtain ⟨hstep, hC, ht, hwild, hcnt⟩ := split_tiled hsh.tiled hn hsh.closed
    (hsh.sub (mem_addrs (by simp))) hS hsubS subset_rfl h
  refine ⟨hstep, ⟨hS, ?_, hC, ht, hwild hsh.wilderness⟩, hcnt⟩
  have hcs : addrs (as ++ cs) ⊆ L ∪ addrs (splitBlock b n) := (addrs_mono fun d hd => mem_addrs (by
    rcases List.mem_append.mp hd with hd | hd <;> simp [hd])).trans hsubS
  rw [addrs_append] at hcs
  rw [addrs_append, addrs_append]
  exact Set.union_subset (Set.subset_union_left.trans hcs)
    (Set.union_subset Set.subset_union_right (Set.subset_union_right.trans hcs))

end OsProjects.Malloc3
