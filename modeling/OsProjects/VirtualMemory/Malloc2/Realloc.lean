import OsProjects.VirtualMemory.Malloc2.Safety

/-! # `srealloc` and `scalloc` for a live allocation

In every run, also when products of `scalloc` have wrapped, the live allocations are different
blocks in use (`run_wrapped`).  `srealloc` of one of them either moves all that it holds or
changes nothing (`srealloc_moves`).  `scalloc` clears as many bytes as it has asked `smalloc`
for (`Heap.scalloc_cleared`). -/

namespace OsProjects.Malloc2

variable {s s' : State} {bs bs' : List Block} {b c : Block} {w : World} {live : List Alloc}
  {brk r size : ℕ}

/-! ### Live allocations of all runs -/

/-- The allocation as the code has served it. -/
def Alloc.wrap (a : Alloc) : Alloc := ⟨a.ptr, a.bytes⟩

/-- The call as the code serves it. -/
def Call.wrap : Call → Call
  | scalloc num size => scalloc 1 (num * size % 2 ^ 64)
  | c => c

theorem Alloc.map_filter_wrap (p : ℕ) (live : List Alloc) :
    (live.filter fun a => a.ptr != p).map wrap = (live.map wrap).filter fun a => a.ptr != p := by
  rw [List.filter_map]
  rfl

theorem Call.ptr_wrap (c : Call) : c.wrap.ptr = c.ptr := by cases c <;> rfl

theorem Call.Legal.wrap {c : Call} (h : c.Legal live) : c.wrap.Legal (live.map Alloc.wrap) := by
  have hp : c.wrap.ptr = 0 ∨ ∃ a ∈ live.map Alloc.wrap, a.ptr = c.wrap.ptr := by
    rw [c.ptr_wrap]
    exact h.1.imp_right fun ⟨a, ha, hap⟩ => ⟨a.wrap, List.mem_map_of_mem ha, hap⟩
  cases c with
  | scalloc num size => exact ⟨hp, by decide, Nat.mod_lt _ (by decide)⟩
  | smalloc | sfree | srealloc => exact ⟨hp, h.2⟩

theorem Call.fits_wrap (c : Call) : Event.Fits w (.call c.wrap) := by
  cases c with
  | scalloc num size => exact .inl (by rw [Nat.one_mul]; exact Nat.mod_lt _ (by decide))
  | smalloc | sfree | srealloc => trivial

theorem Effect.wrap {c : Call} (h : Effect brk bs c r bs') : Effect brk bs c.wrap r bs' := by
  cases h with
  | smalloc h => exact .smalloc h
  | scalloc h => exact .scalloc (by rwa [Nat.one_mul, Nat.mod_mod])
  | freeNull => exact .freeNull
  | sfree h => exact .sfree h
  | reallocNull h => exact .reallocNull h
  | srealloc hb h => exact .srealloc hb h

theorem Call.live_wrap {c : Call} (h : c.Legal live) (r : ℕ) :
    (c.live r live).map Alloc.wrap = c.wrap.live r (live.map Alloc.wrap) := by
  -- a call other than `sfree`
  have hlive : ∀ (p n m : ℕ), n % 2 ^ 64 = m →
      (if r = 0 then live else ⟨r, n⟩ :: live.filter fun a => a.ptr != p).map Alloc.wrap =
        if r = 0 then live.map Alloc.wrap
        else ⟨r, m⟩ :: (live.map Alloc.wrap).filter fun a => a.ptr != p := by
    intro p n m hm
    split
    · rfl
    · rw [List.map_cons, Alloc.map_filter_wrap, ← hm]
      rfl
  cases c with
  | smalloc size => exact hlive 0 size size (Nat.mod_eq_of_lt h.2)
  | scalloc num size => exact hlive 0 _ _ (Nat.one_mul _).symm
  | sfree p => exact Alloc.map_filter_wrap p live
  | srealloc oldp size => exact hlive oldp size size (Nat.mod_eq_of_lt h.2)

/-- What every run keeps if the client uses live pointers only. -/
theorem run_wrapped (h : (allocator World.live).Reachable w) :
    ∃ bs, Heap w.state bs ∧ Live bs (w.live.map Alloc.wrap) := by
  refine h.invariant (I := fun w => ∃ bs, Heap w.state bs ∧ Live bs (w.live.map Alloc.wrap))
    (fun w h₀ => ⟨[], .init h₀, by simp [h₀.live], by simp [h₀.live]⟩) ?_
  rintro w e w' ⟨bs, hheap, hlive⟩ - hs
  cases hs with
  | @call c r s' hlegal hrun =>
      have hp : c.ptr = 0 ∨ ∃ b ∈ bs, b.payload = c.ptr := by
        refine hlegal.1.imp_right fun ⟨a, ha, hap⟩ => ?_
        obtain ⟨b, hb, hbp, -⟩ := hlive.block a.wrap (List.mem_map_of_mem ha)
        exact ⟨b, hb, hbp.trans hap⟩
      obtain ⟨r', s'', bs', hrun', heff, hheap'⟩ := hheap.call_run c hp
      rw [hrun] at hrun'
      cases hrun'
      refine ⟨bs', hheap', ?_⟩
      rw [Call.live_wrap hlegal]
      exact hlive.call (w := w) hlegal.wrap c.fits_wrap hheap.shape.tiles.nodup_addr
        hheap'.shape.tiles.nodup_addr heff.wrap
  | @store a x v ha h₁ h₂ =>
      obtain ⟨b, hb, hp, -, hle⟩ := hlive.block a.wrap (List.mem_map_of_mem ha)
      exact ⟨bs, hheap.store (a := a) hb hp hle h₁ h₂, hlive⟩

/-! ### `srealloc` -/

/-- What `srealloc` of the block `b` does that returns `q`. -/
structure Reallocated (s : State) (bs : List Block) (b : Block) (size q : ℕ) (s' : State)
    (bs' : List Block) : Prop where
  block : q ≠ 0 → ∃ c ∈ bs', c.payload = q ∧ c.free = false ∧ size ≤ c.size
  content : q ≠ 0 → ∀ i < min b.size size,
    s'.sys.mem.byte (q + i) = s.sys.mem.byte (b.payload + i)
  others : ∀ c ∈ bs, c.free = false → c ≠ b → c ∈ bs' ∧
    ∀ x, c.payload ≤ x → x < c.stop → s'.sys.mem.byte x = s.sys.mem.byte x
  freed : q ≠ 0 → ((∃ c ∈ bs', c.payload = b.payload ∧ c.free = true) ↔ q ≠ b.payload)
  refused : q = 0 → bs' = bs ∧ s'.heap = s.heap ∧ s'.sys.mem = s.sys.mem

theorem nodup_of_setFree {as cs : List Block} {free : Bool}
    (h : ((as ++ { c with free := free } :: cs).map Block.addr).Nodup) :
    ((as ++ c :: cs).map Block.addr).Nodup := by simpa using h

/-- What happens to the blocks in use other than `b`. -/
theorem Reallocs.others (h : Reallocs size brk b bs r bs') (hd : (bs.map Block.addr).Nodup)
    (hb : b ∈ bs) (hc : c ∈ bs) (hf : c.free = false) (hne : c ≠ b) : c ∈ bs' := by
  cases h with
  | kept | refused => exact hc
  | @moved as cs d _ _ _ hserves haddr =>
      have hmem := hserves.used hc hf
      rw [List.mem_append, List.mem_cons] at hmem ⊢
      obtain hmem | rfl | hmem := hmem
      · exact .inl hmem
      · exact absurd (List.inj_on_of_nodup_map hd hc hb haddr) hne
      · exact .inr (.inr hmem)

/-- **`srealloc`** of a block in use. -/
theorem Heap.srealloc_reallocated (h : Heap s bs) (hb : b ∈ bs) (hf : b.free = false) (size : ℕ) :
    ∃ q s' bs', (srealloc b.payload size).run s = .ok (q, s') ∧ Heap s' bs' ∧
      Reallocated s bs b size q s' bs' := by
  obtain ⟨q, s', bs', hrun, hre, hheap, hkeep, hcontent, hrefused⟩ := h.srealloc_run hb size
  have hd : (bs.map Block.addr).Nodup := h.shape.tiles.nodup_addr
  have hd' : (bs'.map Block.addr).Nodup := hheap.shape.tiles.nodup_addr
  refine ⟨q, s', bs', hrun, hheap, ?_, hcontent, ?_, ?_, ?_⟩
  · intro hq
    cases hre with
    | kept hle => exact ⟨b, hb, rfl, hf, hle⟩
    | refused => exact absurd rfl hq
    | @moved as cs c _ _ _ hserves haddr =>
        have hd₁ := nodup_of_setFree hd'
        obtain ⟨d, hmem, rfl, hle, hused⟩ := hserves.block hq
        have hdc : d ≠ c := by
          rintro rfl
          refine hserves.ne_used hd hd₁ hb hf ?_
          unfold Block.payload
          rw [haddr]
        refine ⟨d, ?_, rfl, hused, hle⟩
        rw [List.mem_append, List.mem_cons] at hmem ⊢
        exact hmem.imp_right fun hmem => .inr (hmem.resolve_left hdc)
  · intro c hc hused hne
    refine ⟨hre.others hd hb hc hused hne, hkeep c hc ?_⟩
    cases hre with
    | kept => exact fun e => hne (List.inj_on_of_nodup_map hd hc hb (payload_inj e))
    | refused => exact c.payload_ne_zero
    | @moved as cs d _ _ _ hserves _ =>
        have hd₁ := nodup_of_setFree hd'
        exact hserves.ne_used hd hd₁ hc hused
  · intro hq
    cases hre with
    | kept =>
        refine iff_of_false ?_ fun hne => hne rfl
        rintro ⟨c, hc, hp, hfree⟩
        obtain rfl := List.inj_on_of_nodup_map hd hc hb (payload_inj hp)
        rw [hf] at hfree
        cases hfree
    | refused => exact absurd rfl hq
    | @moved as cs c _ _ _ hserves haddr =>
        have hd₁ := nodup_of_setFree hd'
        refine iff_of_true ⟨{ c with free := true }, by simp, ?_, rfl⟩
          (hserves.ne_used hd hd₁ hb hf).symm
        show c.addr + _ = b.addr + _
        rw [haddr]
  · intro hq
    refine ⟨?_, hrefused hq⟩
    cases hre with
    | kept => exact absurd hq b.payload_ne_zero
    | refused => rfl
    | moved _ hr => exact absurd hq hr

/-- **`srealloc` of a live allocation moves it or changes nothing.** -/
theorem srealloc_moves (h : (allocator World.live).Reachable w) :
    ∃ bs, ListBlocks w.state bs ∧ ∀ a ∈ w.live, ∃ b ∈ bs, b.payload = a.ptr ∧ b.free = false ∧
      ∀ size, ∃ q s' bs', (srealloc a.ptr size).run w.state = .ok (q, s') ∧ ListBlocks s' bs' ∧
        Reallocated w.state bs b size q s' bs' := by
  obtain ⟨bs, hheap, hlive⟩ := run_wrapped h
  refine ⟨bs, hheap.chain.1, fun a ha => ?_⟩
  obtain ⟨b, hb, hp, hf, -⟩ := hlive.block a.wrap (List.mem_map_of_mem ha)
  refine ⟨b, hb, hp, hf, fun size => ?_⟩
  obtain ⟨q, s', bs', hrun, hheap', hre⟩ := hheap.srealloc_reallocated hb hf size
  exact ⟨q, s', bs', (congrArg (fun p => (srealloc p size).run w.state) hp).symm.trans hrun,
    hheap'.chain.1, hre⟩

/-- An allocation that moves behind another one. -/
theorem srealloc_moves_behind :
    ∃ w : World, w.live = [⟨65700, 50⟩, ⟨65568, 100⟩] ∧
      ∃ bs, ∃ b ∈ bs, b.payload = 65568 ∧ ∃ q s' bs', ListBlocks s' bs' ∧
        Reallocated w.state bs b 200 q s' bs' := by
  obtain ⟨w, hw, hf⟩ := World.exists_of_exec World.live [.smalloc 100, .smalloc 50]
    (fun w => w.live == [⟨65700, 50⟩, ⟨65568, 100⟩]) (by decide +kernel)
  rw [beq_iff_eq] at hf
  obtain ⟨bs, -, h⟩ := srealloc_moves hw
  obtain ⟨b, hb, hp, -, h⟩ := h ⟨65568, 100⟩ (by rw [hf]; simp)
  obtain ⟨q, s', bs', -, hlist, hre⟩ := h 200
  exact ⟨w, hf, bs, b, hb, hp, q, s', bs', hlist, hre⟩

/-! ### `scalloc` -/

/-- The block in front of the pointer `q` has `n` bytes, and they are zero. -/
def Delivered (m : Memory) (q n : ℕ) : Prop :=
  n ≤ (blockAt m (q - sizeofMetadata)).size ∧ ∀ x, q ≤ x → x < q + n → m.byte x = 0

/-- A block has fewer than `2 ^ 64` bytes. -/
theorem Delivered.lt {m : Memory} {q n : ℕ} (h : Delivered m q n) : n < 2 ^ 64 :=
  h.1.trans_lt metadata.get_lt

/-- **What `scalloc` clears**: the product as a `size_t`. -/
theorem Heap.scalloc_cleared (h : Heap s bs) {num : ℕ} (hr : r ≠ 0)
    (hrun : (scalloc num size).run s = .ok (r, s')) :
    Delivered s'.sys.mem r (num * size % 2 ^ 64) := by
  obtain ⟨r', s'', bs', hrun', hserves, hheap, hzero⟩ := h.scalloc_run num size
  rw [hrun] at hrun'
  cases hrun'
  obtain ⟨b, hb, rfl, hle, -⟩ := hserves.block hr
  refine ⟨?_, hzero hr⟩
  rw [show b.payload - sizeofMetadata = b.addr from Nat.add_sub_cancel _ _,
    hheap.shape.header b hb]
  exact hle

end OsProjects.Malloc2
