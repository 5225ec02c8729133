import OsProjects.VirtualMemory.Malloc3.Coalesce
import OsProjects.VirtualMemory.Malloc3.Realloc

/-! # What each call leaves

On a well-formed heap `smalloc` hands out a new block (`Allocated`), `sfree` takes one back (`Freed`)
and `srealloc` puts one block in the place of another (`Replaced`), each of them in the heap or on
the `mmap` list.  The heap is settled again even where its list loses a block, and the counters stay
exact. -/

namespace OsProjects.Malloc3

open Prog

variable {s s' s₁ : State} {as bs bs' bs₁ cs mm mm' mm₁ order : List Block} {b c d : Block}
  {n r size i : ℕ} {ok ok' part keep : Prop}

/-! ### Settled heaps -/

theorem Outcome.settled (h : Outcome ok s s' bs bs') (hs : Settled s bs mm) : Settled s' bs' mm :=
  ⟨h.laid, fun _ => h.grown.base ▸ h.base, hs.mmList.grown hs.regions le_rfl h.grown, hs.mmapKind,
    hs.regions.grown h.grown⟩

namespace Settled

theorem heapBlocks (h : Settled s bs mm) : HeapBlocks s bs := h.laid.tiled.heapBlocks

theorem mmBlocks (h : Settled s bs mm) : MmBlocks s mm := (mmList_iff.mp h.mmList).1

theorem fits (h : Settled s bs mm) : Fits (bs ++ mm) := by
  refine extent.sum_le (n := userTop) ?_ fun b hb => ?_
  · have hbs : bs.Pairwise fun b c => b.stop ≤ c.addr ∨ c.stop ≤ b.addr := by
      by_cases hne : bs = []
      · rw [hne]
        exact .nil
      · exact (h.laid.tiled.tiles hne).pairwise.imp .inl
    exact List.pairwise_append.mpr ⟨hbs, h.regions.pairwise, fun b hb c hc => h.cross hb hc⟩
  · obtain hb | hb := List.mem_append.mp hb
    · exact (h.laid.tiled.bounds hb).2.trans h.laid.tiled.brk_le
    · exact h.regions.le b hb

/-- **The counters stay exact.** -/
theorem counters (h : Settled s bs mm) (h' : Settled s' bs' mm')
    (hc : CountStep s.heap s'.heap (counts (bs' ++ mm') - counts (bs ++ mm)))
    (hm : Matches s.heap (bs ++ mm)) : Matches s'.heap (bs' ++ mm') := by
  have := hc _ ((matches_iff h.fits).mp hm)
  rw [add_sub_cancel] at this
  exact (matches_iff h'.fits).mpr this

/-- The address tells the block. -/
theorem eq_of_addr (h : Settled s bs mm) (hb : b ∈ bs ++ mm) (hc : c ∈ bs ++ mm)
    (he : b.addr = c.addr) : b = c := by
  have h₁ := b.addr_lt_stop
  have h₂ := c.addr_lt_stop
  obtain h | h | h := h.apart hb hc
  · exact h
  · omega
  · omega

theorem not_mem (h : Settled s bs mm) (hb : b ∈ bs) : b ∉ used mm := fun hm => by
  have h₁ := b.addr_lt_stop
  have h₂ := h.cross hb hm.1
  omega

/-- The headers of the heap lie apart from all payloads. -/
theorem byte_apart (h : Settled s bs mm) (hc : c ∈ bs ++ mm) {x : ℕ} (hx : x ∈ addrs bs)
    (hi : i < c.size) : x + 40 ≤ c.payload + i ∨ c.payload + i < x := by
  obtain ⟨d, hd, rfl⟩ := hx
  simp only [Block.payload, sizeofMetadata]
  obtain rfl | h | h := h.apart (List.mem_append_left mm hd) hc
  · omega
  · simp only [Block.stop, sizeofMetadata] at h
    omega
  · simp only [Block.stop, sizeofMetadata] at h
    omega

theorem accessible (h : Settled s bs mm) (hb : b ∈ bs ++ mm) (hn : n ≤ b.size) :
    s.sys.mem.accessible b.payload n = true := by
  refine (Memory.accessible_iff _ _ _).mpr fun y h₁ h₂ => h.page_eq hb ?_ ?_
  · unfold Block.payload at h₁
    omega
  · simp only [Block.payload, Block.stop] at h₂ ⊢
    omega

end Settled

theorem Outcome.counters (h : Outcome ok s s' bs bs') (hs : Settled s bs mm)
    (hm : Matches s.heap (bs ++ mm)) : Matches s'.heap (bs' ++ mm) := by
  refine hs.counters (h.settled hs) (h.counts.of_eq ?_) hm
  rw [counts_append, counts_append, add_sub_add_right_eq_sub]

/-! ### One block more -/

/-- The call handed out the block `c`. -/
structure Allocated (ok : Prop) (s s' : State) (bs mm bs' mm' : List Block) (c : Block)
    (size r : ℕ) : Prop where
  payload : c.payload = r
  free : c.free = false
  le : size ≤ c.size
  new : c ∉ used (bs ++ mm)
  inUse : used (bs' ++ mm') = insert c (used (bs ++ mm))
  coalesced : NoAdjacentFree bs'
  shape : Shape (addrs bs') s' bs'
  settled : Settled s' bs' mm'
  listed : ok → Listed s' bs'
  counters : Matches s.heap (bs ++ mm) → Matches s'.heap (bs' ++ mm')
  intact : ∀ d ∈ used (bs ++ mm), Intact s s' d

theorem Outcome.intact_mm (h : Outcome ok s s' bs bs') (hs : Settled s bs mm) (hd : d ∈ mm) :
    Intact s s' d := fun y h₁ h₂ => by
  refine h.grown.byte y ?_
  have hreg := (h.settled hs).regions
  have hbase := h.grown.base
  by_cases hlt : s'.sys.base < s'.sys.brk
  · have := hreg.heap_apart hd hlt
    unfold Block.payload at h₁
    omega
  · have := hreg.base_le
    omega

/-- **`smalloc` in the heap.** -/
theorem smalloc_allocated (h : WellFormed s bs mm) (ho : ListBlocks s order)
    (hs : size < mmapThreshold) (hr : r ≠ 0) (hrun : (smalloc size).run s = .ok (r, s')) :
    let g := granted order bs s.sys.brk size
    Allocated (smallocOk order bs size) s s' bs mm g.2 mm g.1 size r := by
  intro g
  have hbrk := h.regions.base_le
  have hpos := h.regions.base_pos.trans_le hbrk
  obtain ⟨hp, hsh, hout, hint⟩ := smalloc_heap h.whole ho hpos hbrk h.base hs hr hrun
  have hg : Grants bs size g := granted_grants h.tiled (h.whole.perm_order ho).1
  have hset := hout.settled h.settled
  have hgm : g.1 ∈ g.2 := (hg.inUse.symm ▸ Set.mem_insert _ _ : g.1 ∈ used g.2).1
  refine ⟨hp.symm, hg.free, hg.le, fun hm => ?_, ?_, hg.coalesced h.coalesced, hsh, hset, hout.listed,
    hout.counters h.settled, fun d hd => ?_⟩
  · rw [used_append] at hm
    exact hm.elim hg.new (hset.not_mem hgm)
  · rw [used_append, used_append, hg.inUse, Set.insert_union]
  · rw [used_append] at hd
    exact hd.elim (hint d) fun hd => hout.intact_mm h.settled hd.1

/-- **`smalloc` from `mmap`.** -/
theorem smalloc_mmap (h : WellFormed s bs mm) (hs : mmapThreshold ≤ size) (hr : r ≠ 0)
    (hrun : (smalloc size).run s = .ok (r, s')) :
    ∃ c, c.size = size ∧ Allocated True s s' bs mm bs (mm ++ [c]) c size r := by
  obtain ⟨-, hr₀, -⟩ | ⟨-, hle, ⟨-, hmm⟩ | ⟨hlt, -⟩ | ⟨hlt, -⟩⟩ := smalloc_cases hrun
  · exact absurd hr₀ hr
  · obtain ⟨a, rfl, hwf, hc, hint, -⟩ := smallocMmap_wellFormed h hs hle hr hmm
    refine ⟨⟨a, size, false⟩, rfl, rfl, rfl, le_rfl, ?_, ?_, h.coalesced, hwf.whole.shape,
      hwf.settled, fun _ => hwf.whole.listed, fun hm => ?_, fun d hd => hint d hd.1⟩
    · rintro ⟨hm, -⟩
      obtain hm | hm := List.mem_append.mp hm
      · exact hwf.settled.not_mem hm ⟨by simp, rfl⟩
      · have hnd := hwf.regions.nodup
        rw [List.map_append, List.nodup_append] at hnd
        exact hnd.2.2 a (List.mem_map_of_mem hm) a (by simp) rfl
    · rw [← List.append_assoc, used_append, used_singleton rfl, Set.union_singleton]
    · refine h.settled.counters hwf.settled (hc.of_eq ?_) hm
      rw [← List.append_assoc, counts_append, add_sub_cancel_left]
      simp [counts, Block.counts]
  · exact absurd hs (Nat.not_le.mpr hlt)
  · exact absurd hs (Nat.not_le.mpr hlt)

/-! ### One block less -/

/-- The call took the block `b` back. -/
structure Freed (ok : Prop) (s s' : State) (bs mm bs' mm' : List Block) (b : Block) : Prop where
  inUse : used (bs' ++ mm') = used (bs ++ mm) \ {b}
  coalesced : NoAdjacentFree bs'
  settled : Settled s' bs' mm'
  listed : ok → Listed s bs → Listed s' bs'
  counters : Matches s.heap (bs ++ mm) → Matches s'.heap (bs' ++ mm')
  intact : ∀ d ∈ used (bs ++ mm), d ≠ b → Intact s s' d

/-- **`sfree` in the heap.** -/
theorem sfree_heap (hs : Settled s bs mm) (hsh : Shape (addrs bs) s bs) (hb : b ∈ used bs)
    (hT : b.size < mmapThreshold) (hrun : (sfree b.payload).run s = .ok ((), s')) :
    Freed (mergeOk (freeBlock bs b)) s s' bs mm (coalesce (freeBlock bs b)) mm b := by
  have ht := sfree_turns hsh hb hT hrun
  have hne := List.ne_nil_of_mem hb.1
  have hq := ht.step.quiet (fun q hq => hsh.tiled.header_bounds hq) fun q hq =>
    hsh.tiled.header_bounds hq
  have hset : Settled s' (coalesce (freeBlock bs b)) mm := by
    have hg := (hq.grown hsh.tiled.brk_le).mono (hs.base hne)
    refine ⟨ht.shape.laid, fun _ => ?_, hs.mmList.grown hs.regions le_rfl hg, hs.mmapKind,
      hs.regions.grown hg⟩
    rw [ht.step.firsthead, hg.base]
    exact hs.base hne
  refine ⟨?_, coalesce_noAdjacentFree _, hset, ht.listed, hs.counters hset (ht.counts.of_eq ?_),
    fun d hd _ y h₁ h₂ => ?_⟩
  · rw [used_append, used_append bs, used_coalesce, used_freeBlock, Set.union_sdiff_distrib,
      Set.sdiff_singleton_eq_self (hs.not_mem hb.1)]
  · rw [counts_append, counts_append, add_sub_add_right_eq_sub]
  · have hap : ∀ x ∈ addrs bs, x + 40 ≤ y ∨ y < x := fun x hx => by
      have hi : y - d.payload < d.size := by
        simp only [Block.payload, Block.stop] at h₁ h₂ ⊢
        omega
      have := hs.byte_apart hd.1 hx hi
      rwa [Nat.add_sub_of_le h₁] at this
    exact ht.step.byte_of_apart hap hap

theorem used_without (h : b ∉ as ++ cs) : used (as ++ cs) = used (as ++ b :: cs) \ {b} := by
  ext d
  simp only [mem_used, Set.mem_sdiff, Set.mem_singleton_iff, List.mem_append, List.mem_cons]
  constructor
  · rintro ⟨hd, hf⟩
    refine ⟨⟨hd.imp_right .inr, hf⟩, ?_⟩
    rintro rfl
    exact h (List.mem_append.mpr hd)
  · rintro ⟨⟨hd | rfl | hd, hf⟩, hne⟩
    · exact ⟨.inl hd, hf⟩
    · exact absurd rfl hne
    · exact ⟨.inr hd, hf⟩

/-- **`sfree` on the `mmap` list.** -/
theorem sfree_mmap (hs : Settled s bs mm) (hn : NoAdjacentFree bs) (hb : b ∈ mm)
    (hrun : (sfree b.payload).run s = .ok ((), s')) :
    Freed True s s' bs mm bs (mm.erase b) b := by
  obtain ⟨hsub, hsize⟩ := hs.mm_header hb
  obtain ⟨hT, hbf⟩ := hs.mmapKind b hb
  have hnd := hs.regions.nodup
  obtain ⟨m₁, m₂, rfl⟩ := List.append_of_mem hb
  simp only [sfree, run_ite_eq_ok, run_bind_eq_ok, get_eq_ok, hsub] at hrun
  obtain ⟨h₀, -⟩ | ⟨-, _, _, hv, _, _, ⟨-, rfl, rfl⟩, h⟩ := hrun
  · exact absurd h₀ (payload_ne_zero b)
  obtain rfl := validateCookie_eq_ok hv
  rw [hsize] at h
  obtain ⟨-, h⟩ | ⟨hT', -⟩ := h
  · obtain ⟨hset, hl, hc, hint, -⟩ := sfreeMmap_settled hs h
    have hnot : b ∉ m₁ ++ m₂ := fun hm => by
      have : b.addr ∈ (m₁ ++ m₂).map Block.addr := List.mem_map_of_mem hm
      rw [List.map_append, List.map_cons, List.nodup_middle, ← List.map_append] at hnd
      exact (List.nodup_cons.mp hnd).1 this
    have hb₁ : b ∉ m₁ := fun h => hnot (List.mem_append_left _ h)
    rw [List.erase_append_right _ hb₁, List.erase_cons_head]
    have hnot' : b ∉ bs ++ m₁ ++ m₂ := fun hm => by
      rw [List.append_assoc] at hm
      exact (List.mem_append.mp hm).elim (fun hd => hs.not_mem hd ⟨hb, hbf⟩) hnot
    have hused : used (bs ++ (m₁ ++ m₂)) = used (bs ++ (m₁ ++ b :: m₂)) \ {b} := by
      rw [← List.append_assoc, ← List.append_assoc]
      exact used_without hnot'
    have hcount : (0, 0, -1, -(b.size : ℤ)) =
        counts (bs ++ (m₁ ++ m₂)) - counts (bs ++ (m₁ ++ b :: m₂)) := by
      simp only [counts_append, counts_cons, Block.counts, hbf]
      ext <;> simp
    refine ⟨hused, hn, hset, fun _ => hl, hs.counters hset (hc.of_eq hcount), fun d hd hne => hint d ?_⟩
    exact (hused.symm ▸ ⟨hd, hne⟩ : d ∈ used (bs ++ (m₁ ++ m₂))).1
  · exact absurd hT hT'

/-! ### One block in the place of another -/

/-- The call returned the block `c`, which is in the place of `b`.  The list is complete again if
`ok`, no two neighbours are free if `part`, and the payload has moved if `keep`. -/
structure Replaced (ok part keep : Prop) (s s' : State) (bs mm bs' mm' : List Block) (b c : Block)
    (size r : ℕ) : Prop where
  payload : c.payload = r
  regrants : Regrants (bs ++ mm) b size (c, bs' ++ mm')
  settled : Settled s' bs' mm'
  counters : Matches s.heap (bs ++ mm) → Matches s'.heap (bs' ++ mm')
  listed : ok → Listed s' bs'
  coalesced : part → NoAdjacentFree bs'
  data : keep → ∀ i, i < min b.size size → s'.sys.mem.byte (r + i) = s.sys.mem.byte (b.payload + i)

theorem Regrants.append (h : Regrants bs b size (c, bs')) (hb : b ∉ used mm) (hc : c ∉ used mm) :
    Regrants (bs ++ mm) b size (c, bs' ++ mm) := by
  obtain ⟨hf, hle, hu, hn⟩ := h
  refine ⟨hf, hle, ?_, fun hcn => ?_⟩
  · simp only [used_append] at hu ⊢
    rw [hu, Set.union_sdiff_distrib, Set.sdiff_singleton_eq_self hb, Set.insert_union]
  · obtain ⟨hcm, hne⟩ := hcn
    rw [used_append] at hcm
    exact hcm.elim (fun h => hn ⟨h, hne⟩) hc

/-- **`srealloc` in the heap.**  The path is one of those that stay in the heap. -/
theorem srealloc_heap (h : WellFormed s (as ++ b :: cs) mm) (ho : ListBlocks s order)
    (hb : b.free = false) (hT : b.size < mmapThreshold) (h₀ : size ≠ 0) (hs : size ≤ sizeLimit)
    (hr : r ≠ 0) (hkeep : (pathOf as b cs size).KeepsSize b size)
    (hmove : pathOf as b cs size = .move → size < mmapThreshold)
    (hrun : (srealloc b.payload size).run s = .ok (r, s')) :
    let path := pathOf as b cs size
    let g := path.result order as b cs s.sys.brk size
    Replaced (path.listOk order as b cs s.sys.brk size) (path.KeepsParted b cs size)
      (path.KeepsData b size) s s' (as ++ b :: cs) mm g.2 mm b g.1 size r := by
  intro path g
  have hbm : b ∈ as ++ b :: cs := by simp
  have hbase := h.base (List.ne_nil_of_mem hbm)
  have hbrk := h.regions.base_le
  have hpos := h.regions.base_pos.trans_le hbrk
  have hchosen := pathOf_chosen as b cs size
  have hres : Resized _ _ s s' (as ++ b :: cs) b size r g :=
    Path.resized h.whole h.coalesced ho hpos hbrk hbase hb hT hs hr hchosen hkeep hmove
      (srealloc_path h.tiled h.wilderness hT h₀ hs hrun)
  have hg : Regrants (as ++ b :: cs) b size g :=
    Path.result_regrants h.tiled (h.whole.perm_order ho).1 hb hchosen
  have hset := hres.outcome.settled h.settled
  have hgm : g.1 ∈ used g.2 := hg.inUse.symm ▸ Set.mem_insert _ _
  exact ⟨hres.payload.symm, hg.append (h.settled.not_mem hbm) (hset.not_mem hgm.1), hset,
    hres.outcome.counters h.settled, hres.outcome.listed, Path.result_parted h.coalesced hchosen,
    hres.payload ▸ hres.data⟩

/-- The copy into the new block stays inside of its payload. -/
theorem Allocated.copy (h : Allocated ok s s' bs mm bs' mm' c size r) (hn : n ≤ c.size) (a : ℕ) :
    let t := s'.setMem (s'.sys.mem.copy c.payload a n)
    Settled t bs' mm' ∧ Shape (addrs bs') t bs' ∧ (ok → Listed t bs') := by
  intro t
  have hc : c ∈ bs' ++ mm' := (h.inUse.symm ▸ Set.mem_insert _ _ : c ∈ used (bs' ++ mm')).1
  have hhead : ∀ q ∈ addrs bs', ∀ y, q ≤ y → y < q + 40 → t.sys.mem.byte y = s'.sys.mem.byte y := by
    intro q hq y h₁ h₂
    refine Memory.copy_byte_of_not_mem _ ?_
    by_contra hne
    have hi : y - c.payload < c.size := by omega
    have := h.settled.byte_apart hc hq hi
    omega
  refine ⟨h.settled.setPayload hc rfl fun y hy => Memory.copy_byte_of_not_mem _ ?_,
    h.shape.setMem rfl hhead, fun hok => ?_⟩
  · simp only [Block.payload, Block.stop] at hy ⊢
    omega
  · exact (h.listed hok).congr h.shape.tiled rfl fun d hd y h₁ h₂ => hhead _ (mem_addrs hd) y h₁ h₂

/-- **A block moves**: a new one is handed out, the payload is copied and the old one is freed. -/
theorem Allocated.moved (h : Allocated ok s s₁ bs mm bs₁ mm₁ c size r) (hb : b ∈ used (bs ++ mm))
    (hf : Freed ok' (s₁.setMem (s₁.sys.mem.copy c.payload b.payload (min b.size size))) s' bs₁ mm₁
      bs' mm' b) :
    Replaced (ok ∧ ok') True True s s' bs mm bs' mm' b c size r := by
  have hle := h.le
  obtain ⟨-, -, hl⟩ := h.copy (n := min b.size size) (by omega) b.payload
  have hne : c ≠ b := fun e => h.new (e ▸ hb)
  have hc : c ∈ used (bs₁ ++ mm₁) := h.inUse.symm ▸ Set.mem_insert _ _
  refine ⟨h.payload, .of_grant h.free h.le h.new hb h.inUse hf.inUse, hf.settled,
    fun hm => hf.counters (h.counters hm), fun hok => hf.listed hok.2 (hl hok.1),
    fun _ => hf.coalesced, fun _ i hi => ?_⟩
  rw [← h.payload]
  refine (hf.intact c hc hne _ (by omega) ?_).trans ?_
  · simp only [Block.payload, Block.stop]
    omega
  · show (s₁.sys.mem.copy _ _ _).byte _ = _
    rw [copy_byte hi]
    refine h.intact b hb _ (by omega) ?_
    simp only [Block.payload, Block.stop]
    omega

/-- **`srealloc` that moves a block of the heap to the `mmap` list.** -/
theorem srealloc_mmap (h : WellFormed s bs mm) (hb : b ∈ used bs) (hT : b.size < mmapThreshold)
    (hs : mmapThreshold ≤ size) (hr : r ≠ 0)
    (hrun : (reallocMove b.addr b.payload size).run s = .ok (r, s')) :
    ∃ c, c.size = size ∧ Replaced (True ∧ mergeOk (freeBlock bs b)) True True s s' bs mm
      (coalesce (freeBlock bs b)) (mm ++ [c]) b c size r := by
  obtain ⟨hr₀, -⟩ | ⟨-, s₁, h₁, h₂⟩ := reallocMove_cases hrun
  · exact absurd hr₀ hr
  obtain ⟨c, hcs, ha⟩ := smalloc_mmap h hs hr h₁
  have hmin : min b.size size = b.size := Nat.min_eq_left (by omega)
  obtain ⟨hset, hsh, -⟩ := ha.copy (n := b.size) (by omega) b.payload
  rw [← ha.payload, ha.shape.tiled.size_eq hb.1] at h₂
  refine ⟨c, hcs, ha.moved ?_ (hmin.symm ▸ sfree_heap hset hsh hb hT h₂)⟩
  rw [used_append]
  exact .inl hb

/-- `mmapsrealloc` on a block from `mmap` that changes its size moves it. -/
theorem Allocated.moved_mmap (h : Allocated ok s s₁ bs mm bs₁ mm₁ c size r) (hb : b ∈ mm)
    (hbf : b.free = false) (hb₁ : b ∈ mm₁)
    (hrun : (sfree b.payload).run (s₁.setMem (s₁.sys.mem.copy r b.payload
      (min (getField s₁.sys.mem .size (sub64 b.payload sizeofMetadata)) size))) = .ok ((), s')) :
    Replaced (ok ∧ True) True True s s' bs mm bs₁ (mm₁.erase b) b c size r := by
  have hle := h.le
  obtain ⟨hsub, hsize⟩ := h.settled.mm_header hb₁
  rw [hsub, hsize, ← h.payload] at hrun
  obtain ⟨hset, -⟩ := h.copy (n := min b.size size) (by omega) b.payload
  exact h.moved ⟨List.mem_append_right _ hb, hbf⟩ (sfree_mmap hset h.coalesced hb₁ hrun)

/-- **`srealloc` on a block from `mmap`** that gets another size. -/
theorem mmapsrealloc_moved (h : WellFormed s bs mm) (ho : ListBlocks s order) (hb : b ∈ mm)
    (hne : b.size ≠ size) (hr : r ≠ 0) (hrun : (mmapsrealloc b.payload size).run s = .ok (r, s')) :
    (size < mmapThreshold ∧
      let g := granted order bs s.sys.brk size
      Replaced (smallocOk order bs size ∧ True) True True s s' bs mm g.2 (mm.erase b) b g.1 size r) ∨
    (mmapThreshold ≤ size ∧ ∃ c, c.size = size ∧
      Replaced (True ∧ True) True True s s' bs mm bs ((mm ++ [c]).erase b) b c size r) := by
  obtain ⟨hsub, hsize⟩ := h.settled.mm_header hb
  have hbf := (h.mmapKind b hb).2
  obtain ⟨he, -⟩ | ⟨-, ⟨hr₀, -⟩ | ⟨-, s₁, h₁, h₂⟩⟩ := mmapsrealloc_cases hrun
  · rw [hsub, hsize] at he
    exact absurd he hne
  · exact absurd hr₀ hr
  obtain hs | hs := Nat.lt_or_ge size mmapThreshold
  · exact .inl ⟨hs, (smalloc_allocated h ho hs hr h₁).moved_mmap hb hbf hb h₂⟩
  · obtain ⟨c, hcs, ha⟩ := smalloc_mmap h hs hr h₁
    exact .inr ⟨hs, c, hcs, ha.moved_mmap hb hbf (List.mem_append_left _ hb) h₂⟩

end OsProjects.Malloc3
