import OsProjects.VirtualMemory.Malloc3.Evaluate
import OsProjects.VirtualMemory.Malloc3.Runs

/-! # What every run keeps

The results for runs whose calls reach none of the defects (`Event.Sound`), read off the invariant
`Good`: the live allocations are safe, the list is complete, the two kinds of blocks are told apart
by their sizes, the statistics are exact, and no two adjacent blocks are free.  Each result stands
beside a run that reaches a defect and breaks it. -/

namespace OsProjects.Malloc3

open Prog

variable {s : State} {bs mm : List Block} {b c : Block} {w : World}

/-- Payloads of different blocks are apart. -/
theorem Settled.payload_apart (h : Settled s bs mm) (hb : b ∈ bs ++ mm) (hc : c ∈ bs ++ mm)
    (hne : b.payload ≠ c.payload) : b.stop ≤ c.payload ∨ c.stop ≤ b.payload := by
  unfold Block.payload at hne ⊢
  obtain rfl | h | h := h.apart hb hc
  · exact absurd rfl hne
  · exact .inl (by omega)
  · exact .inr (by omega)

theorem HeapBlocks.not (h : HeapBlocks s bs) {P : List Block → Prop} (hP : ¬P bs) :
    ∀ bs, HeapBlocks s bs → ¬P bs := fun _ h' hP' => hP (h.unique h' ▸ hP')

/-! ### A run -/

/-- What is live at the end of `exists_sound_run`. -/
def endLive : List Alloc := [⟨66356, 250⟩, ⟨66056, 120⟩, ⟨100663336, 150000⟩, ⟨67108904, 131072⟩]

/-- The heap at the end of `exists_sound_run`. -/
def endHeap : List Block := [⟨65536, 440, true⟩, ⟨66016, 260, false⟩, ⟨66316, 250, false⟩]

/-- The blocks from `mmap` at the end of `exists_sound_run`. -/
def endMmap : List Block := [⟨67108864, 131072, false⟩, ⟨100663296, 150000, false⟩]

/-- A run in which a freed block is used again, blocks move and grow, and two free blocks merge. -/
theorem exists_sound_run : ∃ w, allocator.Run Event.Sound w ∧ w.live = endLive ∧
    HeapBlocks w.state endHeap ∧ MmBlocks w.state endMmap := by
  obtain ⟨w, hw, hf⟩ := World.exists_of_execSound 4 World.start World.start_initial
    [.call (.smalloc 100), .call (.smalloc 600), .call (.smalloc 200), .call (.smalloc 131072),
      .call (.smalloc 200000), .call (.smalloc 150000), .call (.sfree 65716),
      .call (.scalloc 3 100), .store 65720 7, .call (.srealloc 65576 120),
      .call (.srealloc 66356 250), .call (.sfree 83886120), .call (.sfree 65716)]
    (fun w => decide (w.live = endLive ∧ HeapBlocks w.state endHeap ∧ MmBlocks w.state endMmap))
    (by decide +kernel)
  exact ⟨w, hw, of_decide_eq_true hf⟩

/-! ### Live allocations -/

/-- **The live allocations are safe**: each pointer is the payload of a block in use that is large
enough, and the payloads of two of them are apart. -/
theorem live_allocations_safe (h : allocator.Run Event.Sound w) :
    ∃ bs mm, HeapBlocks w.state bs ∧ MmBlocks w.state mm ∧
      (∀ a ∈ w.live, ∃ b ∈ bs ++ mm, b.payload = a.ptr ∧ b.free = false ∧ a.size ≤ b.size) ∧
      w.live.Pairwise fun a a' => ∀ b ∈ bs ++ mm, ∀ b' ∈ bs ++ mm, b.payload = a.ptr →
        b'.payload = a'.ptr → b.stop ≤ b'.payload ∨ b'.stop ≤ b.payload := by
  obtain ⟨bs, mm, hgood⟩ := run_good h
  refine ⟨bs, mm, hgood.wellFormed.heap, hgood.wellFormed.mmap, fun a ha => ?_, ?_⟩
  · obtain ⟨b, ⟨hb, hfree⟩, hp, hle⟩ := hgood.owned.block a ha
    exact ⟨b, hb, hp, hfree, hle⟩
  · have hd := hgood.owned.distinct
    rw [List.Nodup, List.pairwise_map] at hd
    refine hd.imp fun hne b hb b' hb' hp hp' => hgood.wellFormed.settled.payload_apart hb hb' ?_
    rwa [hp, hp']

theorem live_allocations_safe_replayed : ∃ w : World, w.live = endLive ∧
    HeapBlocks w.state endHeap ∧ MmBlocks w.state endMmap ∧
      ∀ a ∈ endLive, ∃ b ∈ endHeap ++ endMmap,
        b.payload = a.ptr ∧ b.free = false ∧ a.size ≤ b.size := by
  obtain ⟨w, hw, hlive, hb, hm⟩ := exists_sound_run
  obtain ⟨bs, mm, hb', hm', hblock, -⟩ := live_allocations_safe hw
  rw [hb'.unique hb, hm'.unique hm, hlive] at hblock
  exact ⟨w, hlive, hb, hm, hblock⟩

/-- A block that shrinks in front of a free block leaves two free blocks side by side.  The next
`srealloc` returns a pointer to a place where there is no block. -/
theorem live_allocation_lost : ∃ w, allocator.Reachable w ∧ ∃ a ∈ w.live,
    ∀ bs mm, HeapBlocks w.state bs → MmBlocks w.state mm → ¬∃ b ∈ bs ++ mm, b.payload = a.ptr := by
  obtain ⟨w, hw, hf⟩ := World.exists_of_exec World.start World.start_initial
    [.call (.smalloc 10), .call (.smalloc 600), .call (.smalloc 200), .call (.smalloc 100),
      .call (.sfree 66266), .call (.srealloc 65626 100), .call (.srealloc 66506 250)]
    (fun w => decide ((⟨66266, 250⟩ : Alloc) ∈ w.live ∧ HeapBlocks w.state
      [⟨65536, 10, false⟩, ⟨65586, 100, false⟩, ⟨65726, 840, true⟩] ∧ MmBlocks w.state []))
    (by decide +kernel)
  obtain ⟨hlive, hb, hm⟩ := of_decide_eq_true hf
  refine ⟨w, hw, _, hlive, fun bs mm hb' hm' => ?_⟩
  rw [hb'.unique hb, hm'.unique hm]
  decide

/-! ### The list -/

/-- **The list loses nothing.** -/
theorem heapList_complete (h : allocator.Run Event.Sound w) :
    ∃ bs, HeapBlocks w.state bs ∧ CompleteList w.state bs := by
  obtain ⟨bs, mm, hgood⟩ := run_good h
  exact ⟨bs, hgood.wellFormed.heap, hgood.wellFormed.list⟩

theorem heapList_complete_replayed : ∃ w : World, w.live = endLive ∧
    HeapBlocks w.state endHeap ∧ CompleteList w.state endHeap := by
  obtain ⟨w, hw, hlive, hb, -⟩ := exists_sound_run
  obtain ⟨bs, hb', hlist⟩ := heapList_complete hw
  exact ⟨w, hlive, hb, hb'.unique hb ▸ hlist⟩

/-- A third block that is smaller than the first two drops one of them. -/
theorem heapList_drops : ∃ w, allocator.Reachable w ∧
    ∀ bs, HeapBlocks w.state bs → ¬CompleteList w.state bs := by
  obtain ⟨w, hw, hf⟩ := World.exists_of_exec World.start World.start_initial
    [.call (.smalloc 200), .call (.smalloc 300), .call (.smalloc 100)]
    (fun w => decide (HeapBlocks w.state
        [⟨65536, 200, false⟩, ⟨65776, 300, false⟩, ⟨66116, 100, false⟩] ∧
      ¬CompleteList w.state
        [⟨65536, 200, false⟩, ⟨65776, 300, false⟩, ⟨66116, 100, false⟩])) (by decide +kernel)
  obtain ⟨hb, hl⟩ := of_decide_eq_true hf
  exact ⟨w, hw, hb.not hl⟩

/-! ### The kinds of blocks -/

/-- **The size tells the kind of a block** that is in use. -/
theorem kind_of_size (h : allocator.Run Event.Sound w) :
    ∃ bs mm, HeapBlocks w.state bs ∧ MmBlocks w.state mm ∧
      (∀ b ∈ bs, b.free = false → b.size < mmapThreshold) ∧ (∀ b ∈ mm, mmapThreshold ≤ b.size) ∧
      ∀ a ∈ w.live, mmapThreshold ≤ getField w.state.sys.mem .size (a.ptr - sizeofMetadata) ↔
        ∃ b ∈ mm, b.payload = a.ptr := by
  obtain ⟨bs, mm, hgood⟩ := run_good h
  have hwf := hgood.wellFormed
  refine ⟨bs, mm, hwf.heap, hwf.mmap, fun b hb hfree => hgood.kind b ⟨hb, hfree⟩,
    fun b hb => (hwf.mmapKind b hb).1, fun a ha => ?_⟩
  obtain ⟨b, ⟨hb, hfree⟩, hp, -⟩ := hgood.owned.block a ha
  rw [← hp, Block.payload, Nat.add_sub_cancel]
  obtain hb | hb := List.mem_append.mp hb
  · rw [hwf.tiled.size_eq hb]
    refine iff_of_false (Nat.not_le.mpr (hgood.kind b ⟨hb, hfree⟩)) ?_
    rintro ⟨c, hc, he⟩
    obtain rfl := hwf.settled.eq_of_addr (List.mem_append_left mm hb)
      (List.mem_append_right bs hc) (Nat.add_right_cancel he.symm)
    exact hwf.settled.not_mem hb ⟨hc, hfree⟩
  · rw [(hwf.settled.mm_header hb).2]
    exact iff_of_true (hwf.mmapKind b hb).1 ⟨b, hb, rfl⟩

theorem kind_of_size_replayed : ∃ w : World, w.live = endLive ∧
    HeapBlocks w.state endHeap ∧ MmBlocks w.state endMmap ∧
      ∀ a ∈ endLive, mmapThreshold ≤ getField w.state.sys.mem .size (a.ptr - sizeofMetadata) ↔
        ∃ b ∈ endMmap, b.payload = a.ptr := by
  obtain ⟨w, hw, hlive, hb, hm⟩ := exists_sound_run
  obtain ⟨bs, mm, hb', hm', -, -, hkind⟩ := kind_of_size hw
  rw [hm'.unique hm, hlive] at hkind
  exact ⟨w, hlive, hb, hm, hkind⟩

/-- `srealloc` grows the only block of the heap to `MMAP_THRESHOLD` bytes. -/
theorem kind_confused : ∃ w, allocator.Reachable w ∧ ∀ bs, HeapBlocks w.state bs →
    ¬∀ b ∈ bs, b.free = false → b.size < mmapThreshold := by
  obtain ⟨w, hw, hf⟩ := World.exists_of_exec World.start World.start_initial
    [.call (.smalloc 100), .call (.srealloc 65576 131072)]
    (fun w => decide (HeapBlocks w.state [⟨65536, 131072, false⟩])) (by decide +kernel)
  exact ⟨w, hw, (of_decide_eq_true hf).not (by decide)⟩

/-! ### Statistics -/

/-- **The statistics are exact**; no block from `mmap` counts as free. -/
theorem counters_exact (h : allocator.Run Event.Sound w) :
    ∃ bs mm, HeapBlocks w.state bs ∧ MmBlocks w.state mm ∧ Matches w.state.heap (bs ++ mm) ∧
      ∀ b ∈ mm, b.free = false := by
  obtain ⟨bs, mm, hgood⟩ := run_good h
  exact ⟨bs, mm, hgood.wellFormed.heap, hgood.wellFormed.mmap, hgood.counters,
    fun b hb => (hgood.wellFormed.mmapKind b hb).2⟩

theorem counters_exact_replayed : ∃ w : World, w.live = endLive ∧
    HeapBlocks w.state endHeap ∧ MmBlocks w.state endMmap ∧
      Matches w.state.heap (endHeap ++ endMmap) := by
  obtain ⟨w, hw, hlive, hb, hm⟩ := exists_sound_run
  obtain ⟨bs, mm, hb', hm', hmatch, -⟩ := counters_exact hw
  rw [hb'.unique hb, hm'.unique hm] at hmatch
  exact ⟨w, hlive, hb, hm, hmatch⟩

/-- `srealloc` grows the last block of the heap to `MMAP_THRESHOLD` bytes, and `sfree` counts it as
a block from `mmap` that is gone. -/
theorem counters_off : ∃ w, allocator.Reachable w ∧ ∀ bs mm, HeapBlocks w.state bs →
    MmBlocks w.state mm → ¬Matches w.state.heap (bs ++ mm) := by
  obtain ⟨w, hw, hf⟩ := World.exists_of_exec World.start World.start_initial
    [.call (.smalloc 100), .call (.smalloc 100), .call (.srealloc 65716 131072),
      .call (.sfree 65716)]
    (fun w => decide (HeapBlocks w.state [⟨65536, 100, false⟩, ⟨65676, 131072, false⟩] ∧
      MmBlocks w.state [] ∧ ¬Matches w.state.heap [⟨65536, 100, false⟩, ⟨65676, 131072, false⟩]))
    (by decide +kernel)
  obtain ⟨hb, hm, hmatch⟩ := of_decide_eq_true hf
  refine ⟨w, hw, fun bs mm hb' hm' => ?_⟩
  rwa [hb'.unique hb, hm'.unique hm]

/-! ### Coalescing -/

/-- **No two adjacent blocks are free.** -/
theorem fully_coalesced (h : allocator.Run Event.Sound w) :
    ∃ bs, HeapBlocks w.state bs ∧ NoAdjacentFree bs := by
  obtain ⟨bs, mm, hgood⟩ := run_good h
  exact ⟨bs, hgood.wellFormed.heap, hgood.wellFormed.coalesced⟩

theorem fully_coalesced_replayed : ∃ w : World, w.live = endLive ∧ HeapBlocks w.state endHeap ∧
    NoAdjacentFree endHeap := by
  obtain ⟨w, hw, hlive, hb, -⟩ := exists_sound_run
  obtain ⟨bs, hb', hfree⟩ := fully_coalesced hw
  exact ⟨w, hlive, hb, hb'.unique hb ▸ hfree⟩

/-- A block that shrinks in front of a free block. -/
theorem shrinking_leaves_adjacent_free : ∃ w, allocator.Reachable w ∧
    ∀ bs, HeapBlocks w.state bs → ¬NoAdjacentFree bs := by
  obtain ⟨w, hw, hf⟩ := World.exists_of_exec World.start World.start_initial
    [.call (.smalloc 10), .call (.smalloc 600), .call (.smalloc 600), .call (.smalloc 600),
      .call (.sfree 66266), .call (.srealloc 65626 100)]
    (fun w => decide (HeapBlocks w.state [⟨65536, 10, false⟩, ⟨65586, 100, false⟩,
      ⟨65726, 460, true⟩, ⟨66226, 600, true⟩, ⟨66866, 600, false⟩])) (by decide +kernel)
  exact ⟨w, hw, (of_decide_eq_true hf).not (by decide)⟩

end OsProjects.Malloc3
