import OsProjects.VirtualMemory.Malloc3.Settled

/-! # `srealloc` on a live block

`Resolved` lists what `srealloc` does with a block in use, of the heap or from `mmap`, when it returns
a block.  `srealloc_replaces` is its effect on the blocks and the counters, and `srealloc_kept`
the one on the data.  Both have one exception: where the block moves into the free block in front of
it, the header of the rest is written before the payload has been copied.  It may fall on the size
of the old block, which says how many bytes are copied (`SizeKept`), and on the payload
(`DataKept`). -/

namespace OsProjects.Malloc3

open Prog

variable {s s' s₁ : State} {as bs bs' bs₁ cs mm mm' mm₁ order : List Block} {b c d : Block} {q size : ℕ}
  {ok part keep : Prop}

/-! ### What `srealloc` does with a block -/

/-- On the path of the call, the header of the rest does not fall on the size of `b`. -/
def SizeKept (bs : List Block) (b : Block) (size : ℕ) : Prop :=
  ∀ as cs, bs = as ++ b :: cs → (pathOf as b cs size).KeepsSize b size

/-- On the path of the call, the header of the rest does not fall on the payload of `b`. -/
def DataKept (bs : List Block) (b : Block) (size : ℕ) : Prop :=
  ∀ as cs, bs = as ++ b :: cs → (pathOf as b cs size).KeepsData b size

/-- A block of the heap has one place. -/
theorem Tiled.around_iff (ht : Tiled s (as ++ b :: cs)) {P : List Block → List Block → Prop} :
    (∀ as' cs', as ++ b :: cs = as' ++ b :: cs' → P as' cs') ↔ P as cs := by
  obtain ⟨has, hcs⟩ := ht.not_mem_around
  refine ⟨fun h => h as cs rfl, fun h as' cs' he => ?_⟩
  obtain ⟨rfl, -, rfl⟩ := (List.append_cons_inj_of_notMem has hcs).mp he
  exact h

/-- The ways of a block `b` on a heap with the blocks `bs`, those from `mmap` being `mm`, through a
call that returned `q`. -/
inductive Resolved (s s' : State) (order bs mm : List Block) (b : Block) (size q : ℕ) : Prop
  | same : b.size = size → s = s' → q = b.payload → Resolved s s' order bs mm b size q
  | heap {as cs : List Block} : bs = as ++ b :: cs → b.size < mmapThreshold →
      (pathOf as b cs size = .move → size < mmapThreshold) →
      Replaced ((pathOf as b cs size).listOk order as b cs s.sys.brk size)
        ((pathOf as b cs size).KeepsParted b cs size) ((pathOf as b cs size).KeepsData b size) s s'
        bs mm ((pathOf as b cs size).result order as b cs s.sys.brk size).2 mm b
        ((pathOf as b cs size).result order as b cs s.sys.brk size).1 size q →
      Resolved s s' order bs mm b size q
  | toMmap {as cs : List Block} {c : Block} : bs = as ++ b :: cs → b.size < mmapThreshold →
      pathOf as b cs size = .move → mmapThreshold ≤ size → c.size = size →
      Replaced (True ∧ mergeOk (freeBlock bs b)) True True s s' bs mm (coalesce (freeBlock bs b))
        (mm ++ [c]) b c size q →
      Resolved s s' order bs mm b size q
  | fromMmap : b ∈ mm → b.size ≠ size → size < mmapThreshold →
      Replaced (smallocOk order bs size ∧ True) True True s s' bs mm
        (granted order bs s.sys.brk size).2 (mm.erase b) b (granted order bs s.sys.brk size).1 size q →
      Resolved s s' order bs mm b size q
  | mmap {c : Block} : b ∈ mm → b.size ≠ size → mmapThreshold ≤ size → c.size = size →
      Replaced (True ∧ True) True True s s' bs mm bs ((mm ++ [c]).erase b) b c size q →
      Resolved s s' order bs mm b size q

/-- `srealloc` as one of these. -/
theorem srealloc_resolved (h : WellFormed s bs mm) (ho : ListBlocks s order) (hb : b ∈ used (bs ++ mm))
    (hT : b ∈ bs → mmapThreshold ≤ b.size → b.size = size) (hkeep : SizeKept bs b size) (hq : q ≠ 0)
    (hrun : (srealloc b.payload size).run s = .ok (q, s')) : Resolved s s' order bs mm b size q := by
  obtain ⟨h₀, -⟩ | ⟨-, -, hq₀, -⟩ | ⟨-, hne, hs, hcase⟩ := srealloc_cases hrun
  · exact absurd h₀ (payload_ne_zero b)
  · exact absurd hq₀ hq
  have hmm : getField s.sys.mem .size b.addr = b.size → sub64 b.payload sizeofMetadata = b.addr →
      b.size = size → (mmapsrealloc b.payload size).run s = .ok (q, s') →
      Resolved s s' order bs mm b size q := fun hsize hsub he hm => by
    obtain ⟨-, hq, hs⟩ | ⟨hn, -⟩ := mmapsrealloc_cases hm
    · exact .same he hs hq
    · rw [hsub, hsize] at hn
      exact absurd he hn
  obtain ⟨hbm, hbf⟩ := hb
  obtain hbm | hbm := List.mem_append.mp hbm
  · have hsub := payload_sub h.tiled hbm
    have hsize := h.tiled.size_eq hbm
    rw [hsub, hsize] at hcase
    obtain ⟨hle, hm⟩ | hbT := hcase
    · exact hmm hsize hsub (hT hbm hle) hm
    obtain ⟨as, cs, rfl⟩ := List.append_of_mem hbm
    by_cases hmove : pathOf as b cs size = .move ∧ mmapThreshold ≤ size
    · -- the new block comes from `mmap`
      obtain ⟨hmove, hle⟩ := hmove
      have hcode := srealloc_path h.tiled h.wilderness hbT hne hs hrun
      rw [hmove] at hcode
      obtain ⟨c, hcs, hrep⟩ := srealloc_mmap h ⟨hbm, hbf⟩ hbT hle hq hcode
      exact .toMmap rfl hbT hmove hle hcs hrep
    · have hlt : pathOf as b cs size = .move → size < mmapThreshold := fun he => by
        by_contra hle
        exact hmove ⟨he, Nat.le_of_not_lt hle⟩
      exact .heap rfl hbT hlt
        (srealloc_heap h ho hbf hbT hne hs hq (hkeep as cs rfl) hlt hrun)
  · obtain ⟨hsub, hsize⟩ := h.settled.mm_header hbm
    rw [hsub, hsize] at hcase
    obtain ⟨-, hm⟩ | hbT := hcase
    · by_cases he : b.size = size
      · exact hmm hsize hsub he hm
      · obtain ⟨hlt, hrep⟩ | ⟨hle, c, hcs, hrep⟩ := mmapsrealloc_moved h ho hbm he hq hm
        · exact .fromMmap hbm he hlt hrep
        · exact .mmap hbm he hle hcs hrep
    · exact absurd (h.mmapKind b hbm).1 (Nat.not_le.mpr hbT)

/-! ### The blocks -/

/-- `c` is in the place of the block `b`, and its payload starts at `q`: the blocks are now `bs'`
and, from `mmap`, `mm'`. -/
structure Reallocated (s' : State) (bs mm bs' mm' : List Block) (b c : Block) (size q : ℕ) :
    Prop where
  payload : c.payload = q
  le : size ≤ c.size
  inUse : used (bs' ++ mm') = insert c (used (bs ++ mm) \ {b})
  gone : ∀ d ∈ used (bs' ++ mm'), d.payload = b.payload → d = c
  walk : HeapBlocks s' bs'
  wilderness : s'.heap.wilderness = lastAddr bs'
  mmap : MmBlocks s' mm'
  counters : Matches s'.heap (bs' ++ mm')

theorem Replaced.reallocated (h : Replaced ok part keep s s' bs mm bs' mm' b c size q) (hs : Settled s bs mm)
    (hb : b ∈ bs ++ mm) (hm : Matches s.heap (bs ++ mm)) :
    Reallocated s' bs mm bs' mm' b c size q where
  payload := h.payload
  le := h.regrants.le
  inUse := h.regrants.inUse
  gone := fun d hd he => by
    have hu : used (bs' ++ mm') = _ := h.regrants.inUse
    rw [hu] at hd
    obtain rfl | ⟨hd, hne⟩ := hd
    · rfl
    · exact absurd (hs.eq_of_addr hd.1 hb (Nat.add_right_cancel he)) hne
  walk := h.settled.heapBlocks
  wilderness := h.settled.laid.wilderness
  mmap := h.settled.mmBlocks
  counters := h.counters hm

/-- **`srealloc`** on a block of a well-formed heap puts one block in the place of another. -/
theorem srealloc_replaces (h : WellFormed s bs mm) (hm : Matches s.heap (bs ++ mm))
    (hT : ∀ c ∈ used bs, c.size < mmapThreshold) (hb : b ∈ used bs) (hq : q ≠ 0)
    (hrun : (srealloc b.payload size).run s = .ok (q, s')) (hkeep : SizeKept bs b size) : ∃ bs' mm' c, Reallocated s' bs mm bs' mm' b c size q := by
  obtain ⟨order, ho, -⟩ := h.list
  have hbT := hT b hb
  have hbm : b ∈ bs ++ mm := List.mem_append_left _ hb.1
  have hmm : b ∉ mm := fun hm => h.settled.not_mem hb.1 ⟨hm, hb.2⟩
  cases srealloc_resolved h ho ⟨hbm, hb.2⟩ (fun _ hle => absurd hbT (Nat.not_lt.mpr hle)) hkeep hq hrun
  case same he hss hp =>
    subst hss
    refine ⟨bs, mm, b, hp.symm, he.ge, ?_, fun d hd hdp => ?_, h.heap, h.wilderness, h.mmap, hm⟩
    · rw [Set.insert_sdiff_singleton, Set.insert_eq_of_mem]
      exact ⟨hbm, hb.2⟩
    · exact h.settled.eq_of_addr hd.1 hbm (Nat.add_right_cancel hdp)
  case heap hrep => exact ⟨_, _, _, hrep.reallocated h.settled hbm hm⟩
  case toMmap hrep => exact ⟨_, _, _, hrep.reallocated h.settled hbm hm⟩
  case fromMmap hb' _ _ _ => exact absurd hb' hmm
  case mmap hb' _ _ _ _ => exact absurd hb' hmm

/-- A block of 20 bytes moves into the free block of 300 bytes in front of it. -/
theorem srealloc_replaces_lower : ∃ w s' bs' mm' c, allocator.Reachable w ∧
    (srealloc 65966 100).run w.state = .ok (65626, s') ∧
    Reallocated s' [⟨65536, 10, false⟩, ⟨65586, 300, true⟩, ⟨65926, 20, false⟩, ⟨65986, 20, false⟩]
      [] bs' mm' ⟨65926, 20, false⟩ c 100 65626 := by
  obtain ⟨w, hw, hf⟩ := World.exists_of_exec World.start World.start_initial
    [.call (.smalloc 10), .call (.smalloc 300), .call (.smalloc 20), .call (.smalloc 20),
      .call (.sfree 65626)]
    (fun w => decide (WellFormed w.state
        [⟨65536, 10, false⟩, ⟨65586, 300, true⟩, ⟨65926, 20, false⟩, ⟨65986, 20, false⟩] [] ∧
      Matches w.state.heap
        [⟨65536, 10, false⟩, ⟨65586, 300, true⟩, ⟨65926, 20, false⟩, ⟨65986, 20, false⟩]) &&
      (srealloc 65966 100).check w.state fun r _ => r == 65626) (by decide +kernel)
  obtain ⟨⟨hwf, hm⟩, r, s', hrun, hr⟩ := exists_of_and_check hf
  obtain rfl : r = 65626 := by simpa using hr
  have ht : Tiled w.state ([⟨65536, 10, false⟩, ⟨65586, 300, true⟩] ++
    ⟨65926, 20, false⟩ :: [⟨65986, 20, false⟩]) := hwf.tiled
  obtain ⟨bs', mm', c, hc⟩ := srealloc_replaces hwf hm (fun c hc => by
    revert c
    simp [used, mmapThreshold]) (b := ⟨65926, 20, false⟩) ⟨by simp, rfl⟩ (by decide) hrun
    (ht.around_iff.mpr fun _ => .inl (by decide))
  exact ⟨w, s', bs', mm', c, hw, hrun, hc⟩

/-- A block of 200 bytes between two free blocks of 300 bytes moves down, and the rest lies where
it was: 540 bytes are copied. -/
theorem srealloc_copies_too_much : ∃ w s', allocator.Reachable w ∧
    WellFormed w.state [⟨65536, 10, false⟩, ⟨65586, 300, true⟩, ⟨65926, 200, false⟩,
      ⟨66166, 300, true⟩, ⟨66506, 20, false⟩] [] ∧
    Matches w.state.heap [⟨65536, 10, false⟩, ⟨65586, 300, true⟩, ⟨65926, 200, false⟩,
      ⟨66166, 300, true⟩, ⟨66506, 20, false⟩] ∧
    (srealloc 65966 300).run w.state = .ok (65626, s') ∧
    ¬∃ bs' mm' c, Reallocated s' [⟨65536, 10, false⟩, ⟨65586, 300, true⟩, ⟨65926, 200, false⟩,
      ⟨66166, 300, true⟩, ⟨66506, 20, false⟩] [] bs' mm' ⟨65926, 200, false⟩ c 300 65626 := by
  obtain ⟨w, hw, hf⟩ := World.exists_of_exec World.start World.start_initial
    [.call (.smalloc 10), .call (.smalloc 300), .call (.smalloc 200), .call (.smalloc 300),
      .call (.smalloc 20), .call (.sfree 65626), .call (.sfree 66206)]
    (fun w => decide (WellFormed w.state [⟨65536, 10, false⟩, ⟨65586, 300, true⟩,
        ⟨65926, 200, false⟩, ⟨66166, 300, true⟩, ⟨66506, 20, false⟩] [] ∧
      Matches w.state.heap [⟨65536, 10, false⟩, ⟨65586, 300, true⟩, ⟨65926, 200, false⟩,
        ⟨66166, 300, true⟩, ⟨66506, 20, false⟩]) &&
      (srealloc 65966 300).check w.state fun r s' => r == 65626 && decide (ChainWalk s'.sys.mem s'.heap.mmhead [] ∧
        HeapBlocks s' [⟨65536, 10, false⟩, ⟨65586, 300, false⟩, ⟨65926, 0, false⟩,
          ⟨65966, 0, false⟩, ⟨66006, 0, false⟩, ⟨66046, 0, false⟩, ⟨66086, 0, false⟩,
          ⟨66126, 0, false⟩, ⟨66166, 300, true⟩, ⟨66506, 20, false⟩])) (by decide +kernel)
  obtain ⟨⟨hwf, hm⟩, r, s', hrun, hr⟩ := exists_of_and_check hf
  rw [Bool.and_eq_true, decide_eq_true_eq] at hr
  obtain ⟨hr, hmm, hwalk⟩ := hr
  obtain rfl : r = 65626 := by simpa using hr
  refine ⟨w, s', hw, hwf, hm, hrun, ?_⟩
  rintro ⟨bs', mm', c, hc⟩
  have hmm' := hc.mmap.unique hmm
  have hbs' := hc.walk.unique hwalk
  have hu : (⟨65926, 0, false⟩ : Block) ∈ used (bs' ++ mm') := by
    rw [hmm', hbs']
    exact ⟨by simp, rfl⟩
  -- no block of 0 bytes was there, and the result is elsewhere
  rw [hc.inUse] at hu
  obtain rfl | ⟨⟨hu, -⟩, -⟩ := hu
  · exact absurd hc.payload (by decide)
  · simp at hu

/-! ### The data -/

/-- At `q` are as many bytes of the old payload as the old and the new size allow. -/
structure Kept (s s' : State) (b : Block) (size q : ℕ) : Prop where
  accessible : s'.sys.mem.accessible q (min b.size size) = true
  byte : ∀ i, i < min b.size size → s'.sys.mem.byte (q + i) = s.sys.mem.byte (b.payload + i)

theorem Replaced.kept (h : Replaced ok part keep s s' bs mm bs' mm' b c size q) (hk : keep) :
    Kept s s' b size q := by
  have hc : c ∈ used (bs' ++ mm') :=
    (h.regrants.inUse : used (bs' ++ mm') = _).symm ▸ Set.mem_insert _ _
  have hle : size ≤ c.size := h.regrants.le
  refine ⟨?_, h.data hk⟩
  rw [← h.payload]
  exact h.settled.accessible hc.1 (by omega)

/-- `sfree` on a block of the heap that its size makes look like one from `mmap`.  `munmap` refuses
an address inside of a page, and only links of headers change. -/
theorem sfree_unaligned (hs : Settled s bs mm) (hsh : Shape (addrs bs) s bs) (hb : b ∈ bs)
    (hT : mmapThreshold ≤ b.size) (hal : b.addr % pageSize ≠ 0)
    (hrun : (sfree b.payload).run s = .ok ((), s')) :
    s'.sys.mem.page = s.sys.mem.page ∧ ∀ d ∈ bs ++ mm, Intact s s' d := by
  have hbL := mem_addrs hb
  simp only [sfree, run_ite_eq_ok, run_bind_eq_ok, get_eq_ok, payload_sub hsh.tiled hb] at hrun
  obtain ⟨h₀, -⟩ | ⟨-, _, _, hv, _, _, ⟨-, rfl, rfl⟩, h⟩ := hrun
  · exact absurd h₀ (payload_ne_zero b)
  obtain rfl := validateCookie_eq_ok hv
  rw [hsh.tiled.size_eq hb] at h
  obtain ⟨-, h⟩ | ⟨hT', -⟩ := h
  · obtain ⟨s₁, h₁, hsys, -⟩ := sfreeMmap_cases h
    have hn : nxt s.mmView b.addr = nxt s b.addr := by
      simp only [nxt, if_neg (hsh.spread.pos _ hbL)]
      rfl
    obtain ⟨hst, -⟩ := mmUnlink_unlinked hsh.spread hbL hs.regions.null
      (hn ▸ hsh.closed.nx _ (.inr hbL)) (hsh.closed.pv _ hbL) h₁
    have hmun : s'.sys = s₁.sys := hsys.trans (if_neg hal)
    refine ⟨by rw [hmun, hst.page], fun d hd y h₁ h₂ => ?_⟩
    rw [hmun]
    refine hst.byte y fun p hp => ?_
    have hi : y - d.payload < d.size := by
      simp only [Block.payload, Block.stop] at h₁ h₂ ⊢
      omega
    have := hs.byte_apart hd hp hi
    omega
  · exact absurd hT hT'

/-- The payload of such a block has been copied before. -/
theorem Allocated.kept_unaligned (h : Allocated ok s s₁ bs mm bs₁ mm₁ c size q)
    (hb : b ∈ used (bs ++ mm)) (hb₁ : b ∈ bs₁) (hT : mmapThreshold ≤ b.size)
    (hal : b.addr % pageSize ≠ 0)
    (hrun : (sfree b.payload).run (s₁.setMem (s₁.sys.mem.copy q b.payload
      (min (getField s₁.sys.mem .size b.addr) size))) = .ok ((), s')) : Kept s s' b size q := by
  have hle := h.le
  have hc : c ∈ bs₁ ++ mm₁ := (h.inUse.symm ▸ Set.mem_insert _ _ : c ∈ used (bs₁ ++ mm₁)).1
  rw [h.shape.tiled.size_eq hb₁, ← h.payload] at hrun
  obtain ⟨hset, hsh, -⟩ := h.copy (n := min b.size size) (by omega) b.payload
  obtain ⟨hpage, hint⟩ := sfree_unaligned hset hsh hb₁ hT hal hrun
  rw [← h.payload]
  refine ⟨?_, fun i hi => ?_⟩
  · rw [Memory.accessible_of_page_eq hpage]
    exact hset.accessible hc (by omega)
  · refine (hint c hc _ (by omega) ?_).trans ?_
    · simp only [Block.payload, Block.stop]
      omega
    · show (s₁.sys.mem.copy _ _ _).byte _ = _
      rw [copy_byte hi]
      refine h.intact b hb _ (by omega) ?_
      simp only [Block.payload, Block.stop]
      omega

/-- `mmapsrealloc` on such a block. -/
theorem mmapsrealloc_unaligned (h : WellFormed s bs mm) (hb : b ∈ used bs)
    (hT : mmapThreshold ≤ b.size) (hal : b.size ≠ size → b.addr % pageSize ≠ 0) (hq : q ≠ 0)
    (hrun : (mmapsrealloc b.payload size).run s = .ok (q, s')) : Kept s s' b size q := by
  have hbm : b ∈ used (bs ++ mm) := ⟨List.mem_append_left _ hb.1, hb.2⟩
  obtain ⟨-, rfl, rfl⟩ | ⟨hne, ⟨hq₀, -⟩ | ⟨-, s₁, h₁, h₂⟩⟩ := mmapsrealloc_cases hrun
  · exact ⟨h.settled.accessible hbm.1 (Nat.min_le_left _ _), fun _ _ => rfl⟩
  · exact absurd hq₀ hq
  rw [payload_sub h.tiled hb.1, h.tiled.size_eq hb.1] at hne
  rw [payload_sub h.tiled hb.1] at h₂
  obtain ⟨order, ho, -⟩ := h.list
  obtain hs | hs := Nat.lt_or_ge size mmapThreshold
  · have ha := smalloc_allocated h ho hs hq h₁
    have hb₁ : b ∈ used ((granted order bs s.sys.brk size).2 ++ mm) :=
      ha.inUse.symm ▸ Set.mem_insert_of_mem _ hbm
    have hmm : b ∉ mm := fun hm => h.settled.not_mem hb.1 ⟨hm, hb.2⟩
    exact ha.kept_unaligned hbm ((List.mem_append.mp hb₁.1).resolve_right hmm) hT (hal hne) h₂
  · obtain ⟨c, -, ha⟩ := smalloc_mmap h hs hq h₁
    exact ha.kept_unaligned hbm hb.1 hT (hal hne) h₂

/-- **`srealloc` keeps the data** of a live block of a well-formed heap. -/
theorem srealloc_kept (h : WellFormed s bs mm) (hb : b ∈ used (bs ++ mm)) (hq : q ≠ 0)
    (hrun : (srealloc b.payload size).run s = .ok (q, s'))
    (hal : b ∈ bs → mmapThreshold ≤ b.size → b.size ≠ size → b.addr % pageSize ≠ 0)
    (hkeep : SizeKept bs b size) (hdata : DataKept bs b size) : Kept s s' b size q := by
  by_cases hbig : b ∈ bs ∧ mmapThreshold ≤ b.size
  · obtain ⟨hbm, hT⟩ := hbig
    obtain ⟨h₀, -⟩ | ⟨-, -, hq₀, -⟩ | ⟨-, -, -, hcase⟩ := srealloc_cases hrun
    · exact absurd h₀ (payload_ne_zero b)
    · exact absurd hq₀ hq
    rw [payload_sub h.tiled hbm, h.tiled.size_eq hbm] at hcase
    obtain ⟨-, hm⟩ | hlt := hcase
    · exact mmapsrealloc_unaligned h ⟨hbm, hb.2⟩ hT (hal hbm hT) hq hm
    · exact absurd hT (Nat.not_le.mpr hlt)
  · obtain ⟨order, ho, -⟩ := h.list
    cases srealloc_resolved h ho hb (fun hbm hT => absurd ⟨hbm, hT⟩ hbig) hkeep hq hrun
    case same he hss hp =>
      subst hss hp
      exact ⟨h.settled.accessible hb.1 (Nat.min_le_left _ _), fun _ _ => rfl⟩
    case heap as cs he _ _ hrep => exact hrep.kept (hdata as cs he)
    case toMmap hrep => exact hrep.kept trivial
    case fromMmap hrep => exact hrep.kept trivial
    case mmap hrep => exact hrep.kept trivial

/-- A block of 20 bytes, in one of which the client has stored 7, moves into the free block of 300
bytes in front of it. -/
theorem srealloc_kept_lower : ∃ w s', allocator.Reachable w ∧
    (srealloc 65966 100).run w.state = .ok (65626, s') ∧
    Kept w.state s' ⟨65926, 20, false⟩ 100 65626 ∧ s'.sys.mem.byte 65630 = 7 := by
  obtain ⟨w, hw, hf⟩ := World.exists_of_exec World.start World.start_initial
    [.call (.smalloc 10), .call (.smalloc 300), .call (.smalloc 20), .call (.smalloc 20),
      .call (.sfree 65626), .store 65970 7]
    (fun w => decide (WellFormed w.state
        [⟨65536, 10, false⟩, ⟨65586, 300, true⟩, ⟨65926, 20, false⟩, ⟨65986, 20, false⟩] [] ∧
      w.state.sys.mem.byte 65970 = 7) &&
      (srealloc 65966 100).check w.state fun r _ => r == 65626) (by decide +kernel)
  obtain ⟨⟨hwf, hbyte⟩, r, s', hrun, hr⟩ := exists_of_and_check hf
  obtain rfl : r = 65626 := by simpa using hr
  have ht : Tiled w.state ([⟨65536, 10, false⟩, ⟨65586, 300, true⟩] ++
    ⟨65926, 20, false⟩ :: [⟨65986, 20, false⟩]) := hwf.tiled
  have hk := srealloc_kept hwf (b := ⟨65926, 20, false⟩) ⟨by simp, rfl⟩ (by decide) hrun
    (fun _ hT => absurd hT (by decide)) (ht.around_iff.mpr fun _ => .inl (by decide))
    (ht.around_iff.mpr fun _ => .inl (by decide))
  exact ⟨w, s', hw, hrun, hk, (hk.byte 4 (by decide)).trans hbyte⟩

/-- A block of 300 bytes moves into the free block of 200 bytes in front of it: the header of the
rest is written into the payload before it is copied. -/
theorem srealloc_overwrites : ∃ w s', allocator.Reachable w ∧
    WellFormed w.state [⟨65536, 10, false⟩, ⟨65586, 200, true⟩, ⟨65826, 300, false⟩] [] ∧
    (srealloc 65866 310).run w.state = .ok (65626, s') ∧
    ¬Kept w.state s' ⟨65826, 300, false⟩ 310 65626 := by
  obtain ⟨w, hw, hf⟩ := World.exists_of_exec World.start World.start_initial
    [.call (.smalloc 10), .call (.smalloc 200), .call (.smalloc 300), .call (.sfree 65626)]
    (fun w => decide (WellFormed w.state
        [⟨65536, 10, false⟩, ⟨65586, 200, true⟩, ⟨65826, 300, false⟩] []) &&
      (srealloc 65866 310).check w.state fun r s' => r == 65626 &&
        s'.sys.mem.byte 65696 != w.state.sys.mem.byte 65936) (by decide +kernel)
  obtain ⟨hwf, r, s', hrun, hr⟩ := exists_of_and_check hf
  rw [Bool.and_eq_true, bne_iff_ne] at hr
  obtain ⟨hr, hne⟩ := hr
  obtain rfl : r = 65626 := by simpa using hr
  exact ⟨w, s', hw, hwf, hrun, fun hk => hne (hk.byte 70 (by decide))⟩

end OsProjects.Malloc3
