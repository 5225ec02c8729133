import OsProjects.VirtualMemory.Malloc3.Sound

/-! # Runs without defects

In every run whose calls reach none of the defects the heap stays well formed, the counters stay
exact, no block in use of the heap passes for one from `mmap`, and the live allocations and the
blocks in use belong to each other one to one (`Good`).  The four invariants are carried together:
each call relies on all of them. -/

namespace OsProjects.Malloc3

open Prog

variable {s s' s₁ : State} {as bs bs' cs mm mm' order new : List Block} {b c d : Block} {w w' : World}
  {live : List Alloc} {U : Set Block} {m : Memory} {r n p size num oldp : ℕ} {ok part keep : Prop}

/-! ### Ownership -/

/-- The live allocations and the blocks in use belong to each other. -/
structure Owned (live : List Alloc) (U : Set Block) : Prop where
  block : ∀ a ∈ live, ∃ b ∈ U, b.payload = a.ptr ∧ a.size ≤ b.size
  owner : ∀ b ∈ U, ∃ a ∈ live, a.ptr = b.payload
  distinct : (live.map Alloc.ptr).Nodup

namespace Owned

theorem insert (h : Owned live U) (hc : ∀ d ∈ U, d.payload ≠ c.payload) (hle : n ≤ c.size) :
    Owned (⟨c.payload, n⟩ :: live) (insert c U) where
  block a ha := by
    obtain rfl | ha := List.mem_cons.mp ha
    · exact ⟨c, Set.mem_insert c U, rfl, hle⟩
    · obtain ⟨b, hb, hp⟩ := h.block a ha
      exact ⟨b, Set.mem_insert_of_mem c hb, hp⟩
  owner b hb := by
    obtain rfl | hb := hb
    · exact ⟨_, List.mem_cons_self, rfl⟩
    · obtain ⟨a, ha, hp⟩ := h.owner b hb
      exact ⟨a, List.mem_cons_of_mem _ ha, hp⟩
  distinct := by
    refine List.nodup_cons.mpr ⟨fun hm => ?_, h.distinct⟩
    obtain ⟨a, ha, hp⟩ := List.mem_map.mp hm
    obtain ⟨d, hd, hpd, -⟩ := h.block a ha
    exact hc d hd (hpd.trans hp)

theorem erase (h : Owned live U) (hb : ∀ d ∈ U, d.payload = b.payload → d = b) :
    Owned (live.filter fun a => a.ptr != b.payload) (U \ {b}) where
  block a ha := by
    obtain ⟨ha, hne⟩ := List.mem_filter.mp ha
    obtain ⟨d, hd, hp, hle⟩ := h.block a ha
    refine ⟨d, ⟨hd, ?_⟩, hp, hle⟩
    rintro rfl
    simp [hp] at hne
  owner d hd := by
    obtain ⟨a, ha, hp⟩ := h.owner d hd.1
    refine ⟨a, List.mem_filter.mpr ⟨ha, ?_⟩, hp⟩
    rw [bne_iff_ne]
    exact fun he => hd.2 (hb d hd.1 (hp.symm.trans he))
  distinct := h.distinct.sublist (List.filter_sublist.map Alloc.ptr)

theorem ptr_ne_zero (h : Owned live U) : ∀ a ∈ live, a.ptr ≠ 0 := fun a ha => by
  obtain ⟨b, -, hp, -⟩ := h.block a ha
  exact hp ▸ payload_ne_zero b

theorem filter_null (h : Owned live U) : live.filter (fun a => a.ptr != 0) = live :=
  List.filter_eq_self.mpr fun a ha => bne_iff_ne.mpr (h.ptr_ne_zero a ha)

end Owned

/-! ### The invariant -/

/-- The heap of `w` is well formed, with the blocks `bs` and, from `mmap`, `mm`; the counters are
exact; the blocks in use of the heap are smaller than those from `mmap`; and the blocks in use
belong to the live allocations. -/
structure Good (w : World) (bs mm : List Block) : Prop where
  wellFormed : WellFormed w.state bs mm
  counters : Matches w.state.heap (bs ++ mm)
  kind : ∀ b ∈ used bs, b.size < mmapThreshold
  owned : Owned w.live (used (bs ++ mm))

/-- How the chain of the `mmap` blocks goes on in a call after which `live` are the live
allocations: new blocks go behind the others, and a block that leaves is live no more. -/
structure ChainStep (live : List Alloc) (mm mm' new : List Block) : Prop where
  sublist : mm'.Sublist (mm ++ new)
  gone : ∀ b ∈ mm, b ∈ mm' ∨ ∀ a ∈ live, a.ptr ≠ b.payload
  new : new = [] ∨ ∃ c rest, new = [c] ∧ c ∈ mm' ∧ live = ⟨c.payload, c.size⟩ :: rest ∧
    ∀ b ∈ mm, b.payload ≠ c.payload

theorem ChainStep.refl (live : List Alloc) (mm : List Block) : ChainStep live mm mm [] where
  sublist := by rw [List.append_nil]
  gone b hb := .inl hb
  new := .inl rfl

theorem Unchanged.wellFormed (hu : Unchanged s s') (h : WellFormed s bs mm) : WellFormed s' bs mm := by
  have hnull : s'.sys.mem.page 0 = false := by
    rw [hu.mem]
    exact h.regions.null
  have hbyte : ∀ y, s'.sys.mem.byte y = s.sys.mem.byte y := fun y => by rw [hu.mem]
  refine .of_whole (h.whole.congr ?_ ?_ ?_ hu.brk hnull fun _ _ y _ _ => hbyte y) (fun hne => ?_)
    h.coalesced (h.mmList.congr ?_ fun _ _ y _ _ => hbyte y) h.mmapKind
    (h.regions.congr hu.base hu.brk (by rw [hu.mem]))
  · rw [hu.heap]
  · rw [hu.heap]
  · rw [hu.heap]
  · rw [hu.base, hu.heap]
    exact h.base hne
  · rw [hu.heap]

theorem Allocated.payload_ne (h : Allocated ok s s' bs mm bs' mm' c size r)
    (hb : b ∈ used (bs ++ mm)) : b.payload ≠ r := fun he => h.new (by
  have hbm : b ∈ used (bs' ++ mm') := h.inUse.symm ▸ Set.mem_insert_of_mem c hb
  have hcm : c ∈ used (bs' ++ mm') := h.inUse.symm ▸ Set.mem_insert c _
  rw [← h.settled.eq_of_addr hbm.1 hcm.1 (Nat.add_right_cancel (he.trans h.payload.symm))]
  exact hb)

namespace Good

theorem unchanged (h : Good w bs mm) (hu : Unchanged w.state s') : Good ⟨s', w.live⟩ bs mm :=
  ⟨hu.wellFormed h.wellFormed, by rw [hu.heap]; exact h.counters, h.kind, h.owned⟩

/-- A store into the payload of a block. -/
theorem setPayload (h : Good w bs mm) (hb : b ∈ bs ++ mm) (hp : m.page = w.state.sys.mem.page)
    (hm : ∀ y, y < b.payload ∨ b.stop ≤ y → m.byte y = w.state.sys.mem.byte y) :
    Good ⟨w.state.setMem m, w.live⟩ bs mm :=
  ⟨h.wellFormed.setPayload hb hp hm, h.counters, h.kind, h.owned⟩

/-- A block in use of the heap that was in use before is one of the heap. -/
theorem kind_of_used (h : Good w bs mm) (hs : Settled s' bs' mm') (hd : d ∈ used bs')
    (hold : d ∈ used (bs ++ mm)) (hmm : d ∈ mm → d ∈ mm') : d.size < mmapThreshold := by
  rw [used_append] at hold
  obtain hold | hold := hold
  · exact h.kind d hold
  · exact absurd ⟨hmm hold.1, hd.2⟩ (hs.not_mem hd.1)

/-- A block was handed out. -/
theorem allocated (h : Good w bs mm) (ha : Allocated ok w.state s' bs mm bs' mm' c size r)
    (hok : ok) (hmm : mm ⊆ mm') (hc : c ∈ bs' → c.size < mmapThreshold) :
    Good ⟨s', ⟨r, size⟩ :: w.live⟩ bs' mm' := by
  refine ⟨.of_settled ha.settled (ha.listed hok) ha.coalesced, ha.counters h.counters,
    fun d hd => ?_, ?_⟩
  · have hd' : d ∈ insert c (used (bs ++ mm)) := by
      rw [← ha.inUse, used_append]
      exact .inl hd
    obtain rfl | hd' := hd'
    · exact hc hd.1
    · exact h.kind_of_used ha.settled hd hd' fun hm => hmm hm
  · rw [ha.inUse]
    obtain rfl := ha.payload
    exact h.owned.insert (fun d hd => ha.payload_ne hd) ha.le

/-- A block was taken back. -/
theorem freed (h : Good w bs mm) (hb : b ∈ used (bs ++ mm)) (hf : Freed ok w.state s' bs mm bs' mm' b)
    (hok : ok) (hmm : ∀ d ∈ mm, d ≠ b → d ∈ mm') :
    Good ⟨s', w.live.filter fun a => a.ptr != b.payload⟩ bs' mm' := by
  have hwf := h.wellFormed
  refine ⟨.of_settled hf.settled (hf.listed hok hwf.whole.listed) hf.coalesced, hf.counters h.counters,
    fun d hd => ?_, ?_⟩
  · have hd' : d ∈ used (bs ++ mm) \ {b} := by
      rw [← hf.inUse, used_append]
      exact .inl hd
    exact h.kind_of_used hf.settled hd hd'.1 fun hm => hmm d hm hd'.2
  · rw [hf.inUse]
    exact h.owned.erase fun d hd he => hwf.settled.eq_of_addr hd.1 hb.1 (Nat.add_right_cancel he)

/-- A block was put in the place of another. -/
theorem replaced (h : Good w bs mm) (hb : b ∈ used (bs ++ mm))
    (hr : Replaced ok part keep w.state s' bs mm bs' mm' b c size r) (hok : ok) (hpart : part)
    (hmm : ∀ d ∈ mm, d ≠ b → d ∈ mm') (hc : c ∈ bs' → c.size < mmapThreshold) :
    Good ⟨s', ⟨r, size⟩ :: w.live.filter fun a => a.ptr != b.payload⟩ bs' mm' := by
  have hu : used (bs' ++ mm') = insert c (used (bs ++ mm) \ {b}) := hr.regrants.inUse
  have hnew : c ∉ used (bs ++ mm) \ {b} := hr.regrants.new
  have hcm : c ∈ used (bs' ++ mm') := hu.symm ▸ Set.mem_insert c _
  refine ⟨.of_settled hr.settled (hr.listed hok) (hr.coalesced hpart), hr.counters h.counters,
    fun d hd => ?_, ?_⟩
  · have hd' : d ∈ insert c (used (bs ++ mm) \ {b}) := by
      rw [← hu, used_append]
      exact .inl hd
    obtain rfl | ⟨hd', hne⟩ := hd'
    · exact hc hd.1
    · exact h.kind_of_used hr.settled hd hd' fun hm => hmm d hm hne
  · rw [hu]
    obtain rfl := hr.payload
    have hb' : ∀ d ∈ used (bs ++ mm), d.payload = b.payload → d = b := fun d hd he =>
      h.wellFormed.settled.eq_of_addr hd.1 hb.1 (Nat.add_right_cancel he)
    refine (h.owned.erase hb').insert (fun d hd he => hnew ?_) hr.regrants.le
    have hd' : d ∈ used (bs' ++ mm') := hu.symm ▸ Set.mem_insert_of_mem c hd
    rw [← hr.settled.eq_of_addr hd'.1 hcm.1 (Nat.add_right_cancel he)]
    exact hd

end Good

/-! ### Calls -/

/-- The invariant holds again, and the chain of the `mmap` blocks has gone on from `mm`. -/
def Follows (w : World) (mm : List Block) : Prop :=
  ∃ bs' mm' new, Good w bs' mm' ∧ ChainStep w.live mm mm' new

namespace Good

theorem follows (h : Good w bs mm) : Follows w mm := ⟨bs, mm, [], h, .refl w.live mm⟩

/-- `smalloc` has served a request. -/
theorem smalloc (h : Good w bs mm) (ho : ListBlocks w.state order)
    (hs : SoundRequest w.state order bs size) (hr : r ≠ 0)
    (hrun : (smalloc size).run w.state = .ok (r, s')) : Follows ⟨s', ⟨r, size⟩ :: w.live⟩ mm := by
  obtain hT | hT := Nat.lt_or_ge size mmapThreshold
  · have hok := hs.serves h.wellFormed ho hr hrun hT
    have ha := smalloc_allocated h.wellFormed ho hT hr hrun
    exact (h.allocated ha hok.list (List.Subset.refl mm) fun _ => hok.small hT _).follows
  · obtain ⟨c, hcs, ha⟩ := smalloc_mmap h.wellFormed hT hr hrun
    have hcm : c ∈ mm ++ [c] := by simp
    refine ⟨bs, mm ++ [c], [c], h.allocated ha trivial (List.subset_append_left mm [c]) fun hc => ?_,
      .refl _, fun b hb => .inl (List.mem_append_left _ hb),
      .inr ⟨c, w.live, rfl, hcm, ?_, fun b hb => ?_⟩⟩
    · exact absurd ⟨hcm, ha.free⟩ (ha.settled.not_mem hc)
    · rw [ha.payload, hcs]
    · rw [ha.payload]
      exact ha.payload_ne ⟨List.mem_append_right _ hb, (h.wellFormed.mmapKind b hb).2⟩

/-- The client stores into what it owns. -/
theorem store {a : Alloc} {x : ℕ} {v : UInt8} (h : Good w bs mm) (ha : a ∈ w.live) (h₁ : a.ptr ≤ x)
    (h₂ : x < a.ptr + a.size) : Good ⟨w.state.store x v, w.live⟩ bs mm := by
  obtain ⟨b, hb, hp, hle⟩ := h.owned.block a ha
  refine h.setPayload hb.1 rfl fun y hy => Memory.fill_byte_of_not_mem _ v ?_
  simp only [Block.payload, Block.stop] at hp hy
  omega

theorem scalloc (h : Good w bs mm) (ho : ListBlocks w.state order)
    (hs : (Call.scalloc num size).Sound w.state order bs mm) (hr : r ≠ 0)
    (hrun : (scalloc num size).run w.state = .ok (r, s')) :
    Follows ⟨s', ⟨r, num * size⟩ :: w.live⟩ mm := by
  obtain ⟨s₁, h₁, rfl⟩ := scalloc_cases hr hrun
  obtain href | ⟨hlt, hs⟩ := hs
  · exact absurd (smalloc_refuses h.wellFormed ho href h₁) hr
  rw [Nat.mod_eq_of_lt hlt] at h₁ ⊢
  obtain ⟨bs', mm', new, hgood, hchain⟩ := h.smalloc ho hs hr h₁
  obtain ⟨b, hb, hp, hle⟩ := hgood.owned.block ⟨r, num * size⟩ List.mem_cons_self
  refine ⟨bs', mm', new, hgood.setPayload hb.1 rfl fun y hy => ?_, hchain⟩
  refine Memory.fill_byte_of_not_mem _ 0 ?_
  simp only [Block.payload, Block.stop] at hp hy hle
  omega

/-- `sfree` of a live allocation. -/
theorem sfree (h : Good w bs mm) (hs : (Call.sfree p).Sound w.state order bs mm)
    (hb : b ∈ used (bs ++ mm)) (hrun : (sfree b.payload).run w.state = .ok ((), s'))
    (hp : b.payload = p) : Follows ⟨s', w.live.filter fun a => a.ptr != b.payload⟩ mm := by
  have hwf := h.wellFormed
  obtain hb' | hb' := (used_append bs mm ▸ hb : b ∈ used bs ∪ used mm)
  · have hf := sfree_heap hwf.settled hwf.whole.shape hb' (h.kind b hb') hrun
    exact (h.freed hb hf (hs b hb' hp) fun d hd _ => hd).follows
  · have hf := sfree_mmap hwf.settled hwf.coalesced hb'.1 hrun
    have herase : ∀ d ∈ mm, d ≠ b → d ∈ mm.erase b := fun d hd hne =>
      (List.mem_erase_of_ne hne).mpr hd
    refine ⟨bs, mm.erase b, [], h.freed hb hf trivial herase, ?_, fun d hd => ?_, .inl rfl⟩
    · rw [List.append_nil]
      exact List.erase_sublist
    · by_cases hne : d = b
      · refine .inr fun a ha => ?_
        have := (List.mem_filter.mp ha).2
        rw [hne]
        simpa using this
      · exact .inl (herase d hd hne)

/-- A block keeps its place and its size. -/
theorem same (h : Good w bs mm) (hb : b ∈ used (bs ++ mm)) :
    Follows ⟨w.state, ⟨b.payload, b.size⟩ :: w.live.filter fun a => a.ptr != b.payload⟩ mm := by
  have hb' : ∀ d ∈ used (bs ++ mm), d.payload = b.payload → d = b := fun d hd he =>
    h.wellFormed.settled.eq_of_addr hd.1 hb.1 (Nat.add_right_cancel he)
  have ho := (h.owned.erase hb').insert (c := b) (fun d hd he => hd.2 (hb' d hd.1 he)) le_rfl
  rw [Set.insert_sdiff_singleton, Set.insert_eq_of_mem hb] at ho
  exact Good.follows ⟨h.wellFormed, h.counters, h.kind, ho⟩

end Good

theorem Path.result_size {path : Path} (h : path ≠ .move) (brk : ℕ) :
    (path.result order as b cs brk size).1.size = splitSize (path.room b size) size := by
  cases path with
  | move => exact absurd rfl h
  | reuse | lower | upper | both =>
      simp only [Path.result, Path.room]
      exact Block.taken_size _ size
  | lowerGrow | grow | bothGrow | upperGrow =>
      simp only [Path.result, Path.room, splitSize]
      exact (ite_self size).symm

/-- A path that stays in the heap returns a small block. -/
theorem Path.Serves.small {path : Path} (h : path.Serves s order as b cs size)
    (hmove : path = .move → size < mmapThreshold) (brk : ℕ) :
    (path.result order as b cs brk size).1.size < mmapThreshold := by
  by_cases hm : path = .move
  · subst hm
    have hT := hmove rfl
    have hserves : Malloc3.Serves order (as ++ b :: cs) size :=
      ⟨(h.list (.inr hT)).1, h.kindMove rfl hT⟩
    exact hserves.small hT brk
  · rw [Path.result_size hm]
    exact h.kind hm

/-- `srealloc` of a block from `mmap` is `mmapsrealloc`. -/
theorem srealloc_mmapsrealloc (h : WellFormed s bs mm) (hb : b ∈ mm) (hr : r ≠ 0)
    (hrun : (srealloc b.payload size).run s = .ok (r, s')) :
    b.size = size ∧ r = b.payload ∧ s = s' ∨
      b.size ≠ size ∧ ∃ s₁, (smalloc size).run s = .ok (r, s₁) := by
  obtain ⟨hsub, hsize⟩ := h.settled.mm_header hb
  obtain ⟨h₀, -⟩ | ⟨-, -, hr₀, -⟩ | ⟨-, -, -, hcase⟩ := srealloc_cases hrun
  · exact absurd h₀ (payload_ne_zero b)
  · exact absurd hr₀ hr
  rw [hsub, hsize] at hcase
  obtain ⟨-, hm⟩ | hT := hcase
  · obtain ⟨he, hm⟩ | ⟨hne, ⟨hr₀, -⟩ | ⟨-, s₁, h₁, -⟩⟩ := mmapsrealloc_cases hm
    · rw [hsub, hsize] at he
      exact .inl ⟨he, hm⟩
    · exact absurd hr₀ hr
    · rw [hsub, hsize] at hne
      exact .inr ⟨hne, s₁, h₁⟩
  · exact absurd (h.mmapKind b hb).1 (Nat.not_le.mpr hT)

/-- `smalloc` returns none of the blocks in use. -/
theorem smalloc_ne (h : WellFormed s bs mm) (hb : b ∈ used (bs ++ mm)) (hr : r ≠ 0)
    (hrun : (smalloc size).run s = .ok (r, s')) : b.payload ≠ r := by
  obtain hT | hT := Nat.lt_or_ge size mmapThreshold
  · obtain ⟨order, ho, -⟩ := h.list
    exact (smalloc_allocated h ho hT hr hrun).payload_ne hb
  · obtain ⟨c, -, ha⟩ := smalloc_mmap h hT hr hrun
    exact ha.payload_ne hb

namespace Good

/-- `srealloc` of a block of the heap returns `NULL` only if it has changed nothing. -/
theorem srealloc_null (h : Good w bs mm) (hs : (Call.srealloc b.payload size).Sound w.state order bs mm)
    (hb : b ∈ used (bs ++ mm)) (hrun : (srealloc b.payload size).run w.state = .ok (0, s')) :
    Unchanged w.state s' := by
  refine Malloc3.srealloc_null h.wellFormed (.inr ⟨b, hb, rfl⟩) ?_ hrun
  rintro ⟨h₀, hsize, as, d, cs, rfl, hd, hdf, hT, hmerge⟩
  have hcode := srealloc_path h.wellFormed.tiled h.wellFormed.wilderness hT h₀ hsize (hd ▸ hrun)
  rw [Call.Sound, if_neg (payload_ne_zero b)] at hs
  obtain hs | hs | ⟨hs, -⟩ := hs
  · exact h₀ hs
  · omega
  · obtain href | hserves := hs as d cs rfl hdf hd
    · generalize pathOf as d cs size = path at hmerge href
      cases path with
      | reuse | lower | grow | upper | both | move => exact hmerge
      | lowerGrow | bothGrow | upperGrow => exact href
    · exact code_grows h.wellFormed hdf hsize hmerge (hserves.grows hmerge) hcode rfl

theorem srealloc_heap (h : Good w (as ++ b :: cs) mm) (ho : ListBlocks w.state order)
    (hs : SoundPath w.state order as b cs size) (hb : b ∈ used (as ++ b :: cs ++ mm))
    (h₀ : size ≠ 0) (hsize : size ≤ sizeLimit) (hr : r ≠ 0)
    (hrun : (srealloc b.payload size).run w.state = .ok (r, s')) :
    Follows ⟨s', ⟨r, size⟩ :: w.live.filter fun a => a.ptr != b.payload⟩ mm := by
  have hwf := h.wellFormed
  have hbm : b ∈ as ++ b :: cs := by simp
  have hT := h.kind b ⟨hbm, hb.2⟩
  have hcode := srealloc_path hwf.tiled hwf.wilderness hT h₀ hsize hrun
  have hserves := hs.resolve_left fun href => hr (code_refuses hwf ho hsize href hcode)
  by_cases hmove : pathOf as b cs size = .move ∧ mmapThreshold ≤ size
  · obtain ⟨hmove, hle⟩ := hmove
    have hlist := hserves.listMmap hmove hle
    rw [hmove] at hcode
    obtain ⟨c, hcs, hrep⟩ := srealloc_mmap hwf ⟨hbm, hb.2⟩ hT hle hr hcode
    have hcm : c ∈ mm ++ [c] := by simp
    have hgood := h.replaced hb hrep ⟨trivial, hlist⟩ trivial
      (fun d hd _ => List.mem_append_left [c] hd)
      fun hc => absurd ⟨hcm, hrep.regrants.free⟩ (hrep.settled.not_mem hc)
    refine ⟨_, mm ++ [c], [c], hgood, .refl _, fun d hd => .inl (List.mem_append_left _ hd),
      .inr ⟨c, w.live.filter fun a => a.ptr != b.payload, rfl, hcm, ?_, fun d hd he => ?_⟩⟩
    · rw [hrep.payload, hcs]
    · obtain ⟨hr₀, -⟩ | ⟨-, s₁, h₁, -⟩ := reallocMove_cases hcode
      · exact hr hr₀
      · exact smalloc_ne hwf ⟨List.mem_append_right _ hd, (hwf.mmapKind d hd).2⟩ hr h₁
          (he.trans hrep.payload)
  · have hlt : pathOf as b cs size = .move → size < mmapThreshold := fun he => by
      by_contra hle
      exact hmove ⟨he, Nat.le_of_not_lt hle⟩
    have hlist := hserves.list (by
      by_cases he : pathOf as b cs size = .move
      · exact .inr (hlt he)
      · exact .inl he)
    have hrep := Malloc3.srealloc_heap hwf ho hb.2 hT h₀ hsize hr hserves.kept hlt hrun
    exact (h.replaced hb hrep hlist hserves.parted (fun d hd _ => hd) fun _ =>
      hserves.small hlt _).follows

theorem srealloc_mmap (h : Good w bs mm) (ho : ListBlocks w.state order) (hb : b ∈ mm)
    (hs : b.size ≠ size → SoundRequest w.state order bs size) (hr : r ≠ 0)
    (hrun : (srealloc b.payload size).run w.state = .ok (r, s')) :
    Follows ⟨s', ⟨r, size⟩ :: w.live.filter fun a => a.ptr != b.payload⟩ mm := by
  have hwf := h.wellFormed
  have hbu : b ∈ used (bs ++ mm) := ⟨List.mem_append_right _ hb, (hwf.mmapKind b hb).2⟩
  obtain ⟨rfl, rfl, rfl⟩ | ⟨hne, s₁, h₁⟩ := srealloc_mmapsrealloc hwf hb hr hrun
  · exact h.same hbu
  have hbr : b.payload ≠ r := smalloc_ne hwf hbu hr h₁
  have hkeep : SizeKept bs b size := by
    rintro as cs rfl
    exact absurd ⟨hb, hbu.2⟩ (hwf.settled.not_mem (by simp))
  -- no live allocation has the pointer of the block that is gone
  have hgone : ∀ a ∈ ⟨r, size⟩ :: w.live.filter (fun a => a.ptr != b.payload), a.ptr ≠ b.payload := by
    intro a ha
    obtain rfl | ha := List.mem_cons.mp ha
    · exact hbr.symm
    · simpa using (List.mem_filter.mp ha).2
  have herase : ∀ {l : List Block}, ∀ d ∈ l, d ≠ b → d ∈ l.erase b := fun d hd hne =>
    (List.mem_erase_of_ne hne).mpr hd
  cases srealloc_resolved hwf ho hbu (fun hbm => absurd ⟨hb, hbu.2⟩ (hwf.settled.not_mem hbm)) hkeep hr hrun
  case same he _ _ => exact absurd he hne
  case heap as cs he _ _ _ => exact absurd ⟨hb, hbu.2⟩ (hwf.settled.not_mem (he ▸ by simp))
  case toMmap as cs c he _ _ _ _ _ => exact absurd ⟨hb, hbu.2⟩ (hwf.settled.not_mem (he ▸ by simp))
  case fromMmap _ _ hT hrep =>
    have hok := (hs hne).serves hwf ho hr h₁ hT
    refine ⟨_, mm.erase b, [], h.replaced hbu hrep ⟨hok.list, trivial⟩ trivial herase fun _ =>
      hok.small hT _, ?_, fun d hd => ?_, .inl rfl⟩
    · rw [List.append_nil]
      exact List.erase_sublist
    · by_cases hdb : d = b
      · exact .inr (hdb ▸ hgone)
      · exact .inl (herase d hd hdb)
  case mmap c _ _ _ hcs hrep =>
    have hcb : c ≠ b := fun he => hbr (he ▸ hrep.payload)
    have hcm : c ∈ (mm ++ [c]).erase b := herase c (by simp) hcb
    refine ⟨bs, _, [c], h.replaced hbu hrep ⟨trivial, trivial⟩ trivial
      (fun d hd hdb => herase d (List.mem_append_left _ hd) hdb)
      fun hc => absurd ⟨hcm, hrep.regrants.free⟩ (hrep.settled.not_mem hc), List.erase_sublist,
      fun d hd => ?_, .inr ⟨c, w.live.filter fun a => a.ptr != b.payload, rfl, hcm, ?_,
        fun d hd he => ?_⟩⟩
    · by_cases hdb : d = b
      · exact .inr (hdb ▸ hgone)
      · exact .inl (herase d (List.mem_append_left _ hd) hdb)
    · rw [hrep.payload, hcs]
    · exact smalloc_ne hwf ⟨List.mem_append_right _ hd, (hwf.mmapKind d hd).2⟩ hr h₁
        (he.trans hrep.payload)

/-- `srealloc` of a live allocation. -/
theorem srealloc (h : Good w bs mm) (ho : ListBlocks w.state order) (hb : b ∈ used (bs ++ mm))
    (hs : (Call.srealloc b.payload size).Sound w.state order bs mm)
    (hrun : (srealloc b.payload size).run w.state = .ok (r, s')) :
    Follows ⟨s', (Call.srealloc b.payload size).live r w.live⟩ mm := by
  rw [Call.live]
  split
  next hr =>
    subst hr
    exact (h.unchanged (h.srealloc_null hs hb hrun)).follows
  next hr =>
    rw [Call.Sound, if_neg (payload_ne_zero b)] at hs
    obtain ⟨h₀, -⟩ | ⟨-, -, hr₀, -⟩ | ⟨-, h₀, hsize, -⟩ := srealloc_cases hrun
    · exact absurd h₀ (payload_ne_zero b)
    · exact absurd hr₀ hr
    obtain hs | hs | ⟨hheap, hmmap⟩ := hs
    · exact absurd hs h₀
    · exact absurd hsize (Nat.not_le.mpr hs)
    obtain hbm | hbm := List.mem_append.mp hb.1
    · obtain ⟨as, cs, rfl⟩ := List.append_of_mem hbm
      exact h.srealloc_heap ho (hheap as b cs rfl hb.2 rfl) hb h₀ hsize hr hrun
    · exact h.srealloc_mmap ho hbm (hmmap b hbm rfl) hr hrun

/-- What the call of a live pointer finds. -/
theorem block_of_legal (h : Good w bs mm) (hp : p = 0 ∨ ∃ a ∈ w.live, a.ptr = p) :
    p = 0 ∨ ∃ b ∈ used (bs ++ mm), b.payload = p :=
  hp.imp_right fun ⟨a, ha, hap⟩ => by
    obtain ⟨b, hb, hbp, -⟩ := h.owned.block a ha
    exact ⟨b, hb, hbp.trans hap⟩

/-- A call of `smalloc`. -/
theorem call_smalloc (h : Good w bs mm) (ho : ListBlocks w.state order)
    (hs : SoundRequest w.state order bs size)
    (hrun : (Malloc3.smalloc size).run w.state = .ok (r, s')) :
    Follows ⟨s', if r = 0 then w.live else ⟨r, size⟩ :: w.live⟩ mm := by
  split
  next hr =>
    subst hr
    exact (h.unchanged (smalloc_null h.wellFormed.whole hrun)).follows
  next hr => exact h.smalloc ho hs hr hrun

/-- A call of `scalloc`. -/
theorem call_scalloc (h : Good w bs mm) (ho : ListBlocks w.state order)
    (hs : (Call.scalloc num size).Sound w.state order bs mm)
    (hrun : (Malloc3.scalloc num size).run w.state = .ok (r, s')) :
    Follows ⟨s', if r = 0 then w.live else ⟨r, num * size⟩ :: w.live⟩ mm := by
  split
  next hr =>
    subst hr
    exact (h.unchanged (scalloc_null h.wellFormed.whole hrun)).follows
  next hr => exact h.scalloc ho hs hr hrun

/-- A call of `sfree`. -/
theorem call_sfree (h : Good w bs mm) (hs : (Call.sfree p).Sound w.state order bs mm)
    (hp : p = 0 ∨ ∃ a ∈ w.live, a.ptr = p) (hrun : (Malloc3.sfree p).run w.state = .ok ((), s')) :
    Follows ⟨s', w.live.filter fun a => a.ptr != p⟩ mm := by
  obtain rfl | ⟨b, hb, rfl⟩ := h.block_of_legal hp
  · rw [Malloc3.sfree, if_pos rfl, pure_eq_ok] at hrun
    obtain ⟨-, rfl⟩ := hrun
    rw [h.owned.filter_null]
    exact h.follows
  · exact h.sfree hs hb hrun rfl

/-- A call of `srealloc`. -/
theorem call_srealloc (h : Good w bs mm) (ho : ListBlocks w.state order)
    (hs : (Call.srealloc oldp size).Sound w.state order bs mm)
    (hp : oldp = 0 ∨ ∃ a ∈ w.live, a.ptr = oldp)
    (hrun : (Malloc3.srealloc oldp size).run w.state = .ok (r, s')) :
    Follows ⟨s', (Call.srealloc oldp size).live r w.live⟩ mm := by
  obtain rfl | ⟨b, hb, rfl⟩ := h.block_of_legal hp
  · rw [Call.Sound, if_pos rfl] at hs
    obtain ⟨-, hrun⟩ | ⟨h₀, -⟩ | ⟨h₀, -⟩ := srealloc_cases hrun
    · rw [Call.live, h.owned.filter_null]
      exact h.call_smalloc ho hs hrun
    · exact absurd rfl h₀
    · exact absurd rfl h₀
  · exact h.srealloc ho hb hs hrun

/-- **Step lemma.** -/
theorem step {e : Event} (h : Good w bs mm) (hs : e.Sound w) (hstep : Step w e w') :
    Follows w' mm := by
  obtain ⟨order, ho, -⟩ := h.wellFormed.list
  cases hstep with
  | store ha h₁ h₂ => exact (h.store ha h₁ h₂).follows
  | @call c r s' hlegal hrun =>
      have hs := hs order bs mm ho h.wellFormed.heap h.wellFormed.mmap
      cases c with
      | smalloc size => exact h.call_smalloc ho hs hrun
      | scalloc num size => exact h.call_scalloc ho hs hrun
      | sfree p =>
          obtain ⟨⟨⟩, s₁, h₁, h₂⟩ := run_bind_eq_ok.mp hrun
          obtain ⟨rfl, rfl⟩ := pure_eq_ok.mp h₂
          exact h.call_sfree hs hlegal h₁
      | srealloc oldp size => exact h.call_srealloc ho hs hlegal.2 hrun

end Good

/-- Before the first call there is nothing. -/
theorem Initial.good (h : Initial w) : Good w [] [] := by
  have hpage : ∀ p, w.state.sys.base / pageSize ≤ p → p < pageCeil w.state.sys.base →
      w.state.sys.mem.page p = true := fun p h₁ h₂ => by
    have hmod : w.state.sys.base % pageSize ≠ 0 := fun hmod => by
      simp only [pageCeil, pageSize] at h₁ h₂ hmod
      omega
    obtain rfl : p = w.state.sys.base / pageSize := by
      simp only [pageCeil, pageSize] at h₁ h₂ ⊢
      omega
    exact h.basePage hmod
  have hregions : Regions w.state [] :=
    { base_pos := h.base_pos
      base_le := h.brk.ge
      brk_le := h.brk.trans_le h.base_le
      null := h.null
      pos := by simp
      aligned := by simp
      le := by simp
      mapped := by simp
      heapMapped := by rwa [h.brk]
      apart := .nil
      heap := by simp }
  refine ⟨?_, ?_, by simp [used], ?_⟩
  · exact
      { heap := .inl ⟨by rw [h.heap], rfl⟩
        first := by rw [h.heap]; rfl
        base := by simp
        wilderness := by rw [h.heap]; rfl
        list := ⟨[], by rw [ListBlocks, h.heap]; rfl, .nil, .nil, trivial⟩
        coalesced := .nil
        mmap := by rw [MmBlocks, h.heap]; rfl
        mmapBack := trivial
        mmapKind := by simp
        regions := hregions }
  · rw [h.heap]
    decide
  · rw [h.live]
    exact ⟨by simp, by simp [used], .nil⟩

/-- **Run lemma.** -/
theorem run_good (h : allocator.Run Event.Sound w) : ∃ bs mm, Good w bs mm :=
  h.invariant (I := fun w => ∃ bs mm, Good w bs mm) (fun w hw => ⟨[], [], Initial.good hw⟩)
    fun w e w' ⟨bs, mm, hgood⟩ hs hstep => by
      obtain ⟨bs', mm', -, hgood', -⟩ := hgood.step hs hstep
      exact ⟨bs', mm', hgood'⟩

end OsProjects.Malloc3
