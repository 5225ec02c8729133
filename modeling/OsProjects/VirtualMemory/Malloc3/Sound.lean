import OsProjects.VirtualMemory.Malloc3.Allocate
import OsProjects.VirtualMemory.Malloc3.Atomic
import OsProjects.VirtualMemory.Malloc3.Srealloc

/-! # Calls that stay clear of the defects

`Event.Sound` tells from the state before a call whether the call reaches one of the defects of
the allocator: an insertion that drops blocks from the list, a block of the heap that is as large
as one from `mmap`, a rest that is left next to a free block, a header that is written over the
size of the block before it is copied, blocks that are merged before `sbrk` refuses, and a product
of `scalloc` that wraps.  A call that is refused before it has changed anything reaches none of
them. -/

namespace OsProjects.Malloc3

open Prog

variable {s s' : State} {as bs cs mm order : List Block} {b c : Block} {r n size : ℕ}

/-! ### Requests that are refused -/

/-- How many bytes `smalloc` asks `sbrk` for when no block of the list fits. -/
def lacking (bs : List Block) (size : ℕ) : ℕ :=
  match bs.getLast?.filter Block.free with
  | some b => size - b.size
  | none => size + sizeofMetadata

/-- `smalloc` returns `NULL`: the size is out of range, or the kernel refuses what is needed. -/
def Refuses (s : State) (order bs : List Block) (size : ℕ) : Prop :=
  size = 0 ∨ sizeLimit < size ∨
    (mmapThreshold ≤ size ∧ (s.sys.mmap (size + sizeofMetadata)).1 = failed) ∨
    (size < mmapThreshold ∧ found order size = none ∧ (s.sys.sbrk (lacking bs size)).1 = failed)

instance (s : State) (order bs : List Block) (size : ℕ) : Decidable (Refuses s order bs size) := by
  unfold Refuses; infer_instance

theorem smalloc_refuses (h : WellFormed s bs mm) (ho : ListBlocks s order)
    (href : Refuses s order bs size) (hrun : (smalloc size).run s = .ok (r, s')) : r = 0 := by
  by_contra hr
  obtain ⟨-, h₀, -⟩ | ⟨h₀, hs, hcase⟩ := smalloc_cases hrun
  · exact hr h₀
  have hadd : add64 size sizeofMetadata = size + sizeofMetadata := by
    simp only [sizeLimit] at hs
    exact add64_eq (by simp only [sizeofMetadata]; omega)
  obtain ⟨hp, hL⟩ := h.whole.perm_order ho
  obtain href | href | ⟨hT, hf⟩ | ⟨hT, hnone, hf⟩ := href
  · exact h₀ href
  · omega
  · obtain ⟨-, hmm⟩ | ⟨hlt, -⟩ | ⟨hlt, -⟩ := hcase
    · have := (smallocMmap_cases hr hmm).1
      rw [hadd] at this
      exact this hf
    · omega
    · omega
  obtain ⟨hT', -⟩ | ⟨-, hh, hfirst⟩ | ⟨-, hh, o, s₁, ho', hcase⟩ := hcase
  · omega
  · have : order = [] := by
      cases order with
      | nil => rfl
      | cons b l => exact absurd (hL.1.symm.trans hh) hL.2.1
    subst this
    obtain rfl : [] = bs := List.nil_perm.mp hp ▸ rfl
    have := (firstAllocation_cases hr hfirst).1
    rw [hadd] at this
    exact this hf
  have hmem : ∀ c ∈ order, c ∈ bs := fun c => hp.mem_iff.mp
  obtain ⟨rfl, rfl⟩ := search_order (fun c hc => h.tiled.headers c (hmem c hc))
    (fun c hc => h.tiled.spread.pos _ (mem_addrs (hmem c hc))) hL hh ho'
  have hne : bs ≠ [] := by
    rintro rfl
    rw [List.perm_nil.mp hp] at hL
    exact hh hL
  obtain ⟨as, b, rfl⟩ : ∃ as b, bs = as ++ [b] :=
    ⟨bs.dropLast, bs.getLast hne, (List.dropLast_append_getLast hne).symm⟩
  have hbm : b ∈ as ++ [b] := by simp
  have hwild : s.heap.wilderness = b.addr := h.wilderness.trans (lastAddr_concat as b)
  rw [hwild, h.tiled.free_eq hbm, hnone] at hcase
  simp only [lacking, List.getLast?_append_cons, List.getLast?_singleton, Option.filter_some] at hf
  obtain ⟨p, hp', -⟩ | ⟨-, ⟨hfree, hcase⟩ | ⟨hfree, hcase⟩⟩ := hcase
  · cases hp'
  · have hlt : b.size < size := by
      rw [found, List.find?_eq_none] at hnone
      simpa [hfree] using hnone b (hp.mem_iff.mpr hbm)
    obtain ⟨-, -, hg, -⟩ := growFreeWilderness_cases hr hcase
    rw [hwild, h.tiled.size_eq hbm, sub64_eq hlt.le (by simp only [sizeLimit] at hs; omega)] at hg
    rw [if_pos hfree] at hf
    exact hg hf
  · have hg := (appendBlock_cases hr hcase).1
    rw [hadd] at hg
    rw [hfree, if_neg Bool.false_ne_true] at hf
    exact hg hf

/-! ### Requests that are served -/

/-- How large a block of `room` bytes is once it has been split to `size` bytes, if it can be. -/
def splitSize (room size : ℕ) : ℕ := if canSplit room size = true then size else room

theorem Block.taken_size (b : Block) (n : ℕ) : (b.taken n).size = splitSize b.size n := by
  unfold Block.taken splitSize
  split
  next => rfl
  next => rfl

/-- `smalloc` drops no block from the list, and what it takes from the heap is smaller than a
block from `mmap`. -/
structure Serves (order bs : List Block) (size : ℕ) : Prop where
  list : smallocOk order bs size
  kind : ∀ f ∈ found order size, splitSize f.size size < mmapThreshold

/-- `smalloc` of `size` bytes is refused, or it reaches no defect; `mmap` has none. -/
def SoundRequest (s : State) (order bs : List Block) (size : ℕ) : Prop :=
  Refuses s order bs size ∨ (size < mmapThreshold → Serves order bs size)

theorem SoundRequest.serves (h : SoundRequest s order bs size) (hw : WellFormed s bs mm)
    (ho : ListBlocks s order) (hr : r ≠ 0) (hrun : (smalloc size).run s = .ok (r, s'))
    (hT : size < mmapThreshold) : Serves order bs size := by
  obtain href | h := h
  · exact absurd (smalloc_refuses hw ho href hrun) hr
  · exact h hT

/-- The block that is handed out. -/
theorem Serves.small (h : Serves order bs size) (hT : size < mmapThreshold) (brk : ℕ) :
    (granted order bs brk size).1.size < mmapThreshold := by
  unfold granted
  split
  next f hf =>
    rw [Block.taken_size]
    exact h.kind f hf
  next =>
    split
    next => exact hT
    next => exact hT

/-! ### Reallocating -/

/-- How many bytes the path asks `sbrk` for. -/
def Path.needs (b : Block) (size : ℕ) : Path → ℕ
  | grow => size - b.size
  | lowerGrow p => size - (p.absorb b).size
  | bothGrow p n => size - ((p.absorb b).absorb n).size
  | upperGrow n => size - (b.absorb n).size
  | _ => 0

/-- How large the block is that the path splits or returns. -/
def Path.room (b : Block) (size : ℕ) : Path → ℕ
  | reuse => b.size
  | lower p => (p.absorb b).size
  | upper n => (b.freed.absorb n).size
  | both p n => ((p.absorb b).absorb n).size
  | _ => size

/-- The path returns `NULL` and has changed nothing. -/
def Path.Refuses (s : State) (order as : List Block) (b : Block) (cs : List Block) (size : ℕ) :
    Path → Prop
  | grow => (s.sys.sbrk (size - b.size)).1 = failed
  | move => Malloc3.Refuses s order (as ++ b :: cs) size
  | _ => False

/-- The path reaches no defect. -/
structure Path.Serves (path : Path) (s : State) (order as : List Block) (b : Block) (cs : List Block)
    (size : ℕ) : Prop where
  /-- No insertion drops a block from the list. -/
  list : path ≠ .move ∨ size < mmapThreshold → path.listOk order as b cs s.sys.brk size
  listMmap : path = .move → mmapThreshold ≤ size → mergeOk (freeBlock (as ++ b :: cs) b)
  /-- The block stays smaller than one from `mmap`. -/
  kind : path ≠ .move → splitSize (path.room b size) size < mmapThreshold
  kindMove : path = .move → size < mmapThreshold →
    ∀ f ∈ found order size, splitSize f.size size < mmapThreshold
  /-- The size of `b` is not overwritten before `b` is copied. -/
  kept : path.KeepsSize b size
  /-- No rest is left next to a free block. -/
  parted : path.KeepsParted b cs size
  /-- Blocks are not merged before `sbrk` refuses. -/
  grows : path.MergesFirst → (s.sys.sbrk (path.needs b size)).1 ≠ failed

/-- Whether `sbrk` grants a request does not depend on the bytes of the memory. -/
theorem sbrk_fst_congr {x y : System} (hx : y = { x with mem := y.mem })
    (hp : y.mem.page = x.mem.page) : (y.sbrk n).1 = (x.sbrk n).1 := by
  rw [hx]
  generalize y.mem = m at hp
  have hany : ∀ lo hi, m.anyMapped lo hi = x.mem.anyMapped lo hi := fun lo hi => by
    rw [Memory.anyMapped, Memory.anyMapped, hp]
  simp only [System.sbrk, System.grow, System.shrink, hany]
  split_ifs <;> rfl

/-- A path that merges first does not return `NULL` if `sbrk` grants what is missing. -/
theorem code_grows (h : WellFormed s (as ++ b :: cs) mm) (hb : b.free = false)
    (hs : size ≤ sizeLimit) (hpath : (pathOf as b cs size).MergesFirst)
    (hgrant : (s.sys.sbrk ((pathOf as b cs size).needs b size)).1 ≠ failed)
    (hrun : ((pathOf as b cs size).code as b cs b.payload size).run s = .ok (r, s')) : r ≠ 0 := by
  have hw := h.whole
  have hn := h.coalesced
  have hle : ∀ c ∈ as ++ b :: cs, add64 c.addr sizeofMetadata ≠ 0 := fun c hc => by
    have := h.tiled.stop_le hc
    refine add64_ne_zero ?_
    simp only [userTop]
    omega
  have hchosen := pathOf_chosen as b cs size
  generalize pathOf as b cs size = path at hpath hgrant hrun hchosen
  cases path with
  | reuse | lower | grow | upper | both | move => exact absurd hpath not_false
  | lowerGrow p =>
      obtain ⟨⟨as, rfl⟩, rfl, hp, hlt⟩ := hchosen
      rw [List.append_assoc, List.singleton_append] at hw hn hle
      obtain ⟨s₁, s₂, s₃, h₁, h₂, h₃, ⟨hf, -, -⟩ | ⟨-, rfl, -⟩⟩ := reallocLowerGrow_cases hrun
      · have hm := (lowerGrow_turns hw hn hp hb hlt hs h₁ h₂ h₃).turns
        rw [(sbrk_needed (b := (p.absorb b).inUse) hm.shape.laid hlt hs).1,
          sbrk_fst_congr hm.step.sys hm.step.page] at hf
        exact absurd hf hgrant
      · exact hle p (by simp)
  | bothGrow p n =>
      obtain ⟨⟨as, rfl⟩, rfl, hp, hnf, hlt⟩ := hchosen
      rw [List.append_assoc, List.singleton_append] at hw hn hle
      obtain ⟨s₁, s₂, s₃, h₁, h₂, h₃, ⟨hf, -, -⟩ | ⟨-, rfl, -⟩⟩ := reallocBothGrow_cases hrun
      · have hm := (bothGrow_turns hw hn hp hb hnf h₁ h₂ h₃).turns
        have hwild : s₃.heap.wilderness = p.addr := by
          rw [hm.shape.wilderness, lastAddr_concat]
          rfl
        have hpay := add64_payload hw.tiled (by simp : p ∈ as ++ [p, b, n])
        -- the copy lies behind the header that tells the size
        have hsize : getField (s₃.sys.mem.copy (add64 p.addr sizeofMetadata) b.payload
            (getField s₃.sys.mem .size b.addr)) .size s₃.heap.wilderness =
              getField s₃.sys.mem .size s₃.heap.wilderness := by
          refine getField_congr fun y h₁ h₂ => Memory.copy_byte_of_not_mem _ (.inl ?_)
          rw [hpay, Block.payload]
          rw [hwild] at h₂
          simp only [Field.offset, Field.width, sizeofMetadata] at h₂ ⊢
          omega
        simp only [State.setMem_mem, State.setMem_heap, hsize,
          (sbrk_needed (b := ((p.absorb b).absorb n).inUse) hm.shape.laid hlt hs).1] at hf
        generalize ht : s₃.setMem _ = t at hf
        have hsys : t.sys = { s.sys with mem := t.sys.mem } := by
          rw [← ht, State.setMem, hm.step.sys]
        have hpage : t.sys.mem.page = s.sys.mem.page := by
          rw [← ht]
          exact hm.step.page
        rw [sbrk_fst_congr hsys hpage] at hf
        exact absurd hf hgrant
      · exact hle p (by simp)
  | upperGrow n =>
      obtain ⟨rfl, hnf, hl, hlt⟩ := hchosen
      obtain ⟨s₁, s₂, s₃, h₁, h₂, h₃, ⟨hf, -, -⟩ | ⟨-, rfl, -⟩⟩ := reallocUpperGrow_cases hrun
      · have hm := upperGrow_turns hw hn hb hnf hl h₁ h₂ h₃
        have hlt' : (b.freed.absorb n).inUse.size < size := hlt
        rw [(sbrk_needed (b := (b.freed.absorb n).inUse) hm.shape.laid hlt' hs).1,
          sbrk_fst_congr hm.step.sys hm.step.page] at hf
        exact absurd hf hgrant
      · exact hle b (by simp)

theorem code_refuses (h : WellFormed s (as ++ b :: cs) mm) (ho : ListBlocks s order)
    (hs : size ≤ sizeLimit)
    (href : (pathOf as b cs size).Refuses s order as b cs size)
    (hrun : ((pathOf as b cs size).code as b cs b.payload size).run s = .ok (r, s')) : r = 0 := by
  have hchosen := pathOf_chosen as b cs size
  generalize pathOf as b cs size = path at href hrun hchosen
  cases path with
  | reuse | lower | lowerGrow | upper | both | bothGrow | upperGrow => exact absurd href not_false
  | grow =>
      obtain ⟨rfl, hlt⟩ := hchosen
      obtain ⟨-, hr, -⟩ | ⟨hf, -, -⟩ := reallocGrow_cases hrun
      · exact hr
      · rw [(sbrk_needed h.whole.shape.laid hlt hs).1] at hf
        exact absurd href hf
  | move =>
      obtain ⟨hr, -⟩ | ⟨-, s₁, h₁, -⟩ := reallocMove_cases hrun
      · exact hr
      · exact smalloc_refuses h ho href h₁

/-! ### Calls -/

/-- `srealloc` of the block `b` is refused, or it reaches no defect. -/
def SoundPath (s : State) (order as : List Block) (b : Block) (cs : List Block) (size : ℕ) : Prop :=
  (pathOf as b cs size).Refuses s order as b cs size ∨
    (pathOf as b cs size).Serves s order as b cs size

/-- The call reaches no defect on a heap with the blocks `bs`, in the order of the list `order`,
and the blocks `mm` from `mmap`. -/
def Call.Sound (s : State) (order bs mm : List Block) : Call → Prop
  | smalloc size => SoundRequest s order bs size
  | scalloc num size => Refuses s order bs (num * size % 2 ^ 64) ∨
      num * size < 2 ^ 64 ∧ SoundRequest s order bs (num * size)
  | sfree p => ∀ b ∈ used bs, b.payload = p → mergeOk (freeBlock bs b)
  | srealloc oldp size =>
    if oldp = 0 then SoundRequest s order bs size
    else size = 0 ∨ sizeLimit < size ∨
      (∀ as b cs, bs = as ++ b :: cs → b.free = false → b.payload = oldp →
        SoundPath s order as b cs size) ∧
      ∀ b ∈ mm, b.payload = oldp → b.size ≠ size → SoundRequest s order bs size

/-- The event reaches no defect. -/
def Event.Sound (w : World) : Event → Prop
  | .call c => ∀ order bs mm, ListBlocks w.state order → HeapBlocks w.state bs →
      MmBlocks w.state mm → c.Sound w.state order bs mm
  | .store _ _ => True

theorem Event.sound_iff {w : World} {c : Call} (ho : ListBlocks w.state order)
    (hb : HeapBlocks w.state bs) (hm : MmBlocks w.state mm) :
    Event.Sound w (.call c) ↔ c.Sound w.state order bs mm := by
  refine ⟨fun h => h order bs mm ho hb hm, fun h order' bs' mm' ho' hb' hm' => ?_⟩
  rw [ho'.unique ho, hb'.unique hb, hm'.unique hm]
  exact h

end OsProjects.Malloc3
