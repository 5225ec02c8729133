import OsProjects.VirtualMemory.Malloc3.Safety

/-! # The list of the blocks from `mmap`

A recorder watches the runs of the allocator from outside.  It keeps the live allocations that lie
outside the region of `sbrk`, in the order in which they were handed out.  In every run whose calls
reach none of the defects the chain from `Heap.mmhead` has exactly these blocks, in this order
(`mmapList_exact`). -/

namespace OsProjects.Malloc3

open Prog

variable {s : State} {bs bs' mm mm' new : List Block} {b c : Block} {w w' : World}
  {order : List Alloc} {a : Alloc} {e : Event} {p : ℕ}

/-! ### The recorder -/

/-- The allocation whose payload is that of the block. -/
def Block.alloc (b : Block) : Alloc := ⟨b.payload, b.size⟩

/-- The pointer lies outside the region that `sbrk` has given. -/
def outside (s : State) (p : ℕ) : Prop := p < s.sys.base ∨ s.sys.brk < p

instance (s : State) (p : ℕ) : Decidable (outside s p) := inferInstanceAs (Decidable (_ ∨ _))

/-- The allocations in `order` whose pointers are still live, and behind them the new ones outside
the region of `sbrk`. -/
def record (order : List Alloc) (w : World) : List Alloc :=
  order.filter (fun a => a.ptr ∈ w.live.map Alloc.ptr) ++
    w.live.filter fun a => outside w.state a.ptr ∧ a.ptr ∉ order.map Alloc.ptr

/-- The allocator with its clients and the recorder. -/
def recorder : TransitionSystem (World × List Alloc) Event where
  init x := Initial x.1 ∧ x.2 = []
  step x e x' := Step x.1 e x'.1 ∧ x'.2 = record x.2 x'.1

/-! ### Inside and outside -/

theorem Settled.not_outside (h : Settled s bs mm) (hb : b ∈ bs) : ¬outside s b.payload := by
  have hb' := h.bounds hb
  simp only [outside, Block.payload, Block.stop, sizeofMetadata] at hb' ⊢
  omega

theorem Settled.outside (h : Settled s bs mm) (hb : b ∈ mm) : outside s b.payload := by
  have hr := h.regions
  have halign := hr.aligned b hb
  have hbase := hr.base_le
  unfold Malloc3.outside Block.payload
  by_cases hlt : s.sys.base / pageSize < pageCeil s.sys.brk
  · have hcase := hr.heap hlt b hb
    simp only [Block.lastPage, pageCeil, Block.stop, sizeofMetadata, pageSize] at hcase halign ⊢
    omega
  · -- the region is empty, and its only address is that of a page
    simp only [pageCeil, sizeofMetadata, pageSize] at hlt halign ⊢
    omega

theorem Settled.mm_nodup (h : Settled s bs mm) : mm.Nodup :=
  h.regions.pairwise.imp fun {b c} hbc he => by
    have := b.addr_lt_stop
    have := c.addr_lt_stop
    rw [he] at hbc
    omega

/-! ### Steps -/

/-- A part of a list without duplicates is found by filtering. -/
theorem filter_mem_eq {l l' : List Block} (h : l.Sublist l') (hd : l'.Nodup) :
    (l'.filter fun b => b ∈ l) = l := by
  induction h with
  | slnil => rfl
  | cons b h ih =>
      obtain ⟨hb, hd⟩ := List.nodup_cons.mp hd
      rw [List.filter_cons_of_neg (by simpa using fun hm => hb (h.mem hm)), ih hd]
  | cons_cons b h ih =>
      obtain ⟨hb, hd⟩ := List.nodup_cons.mp hd
      rw [List.filter_cons_of_pos (by simp)]
      refine congrArg (b :: ·) (Eq.trans (List.filter_congr fun c hc => ?_) (ih hd))
      have hne : c ≠ b := fun he => hb (he ▸ hc)
      simp [hne]

/-- The live allocations outside the region of `sbrk` are those of the chain. -/
theorem Good.mem_of_outside (h : Good w bs mm) (ha : a ∈ w.live) (ho : outside w.state a.ptr) :
    ∃ b ∈ mm, b.payload = a.ptr := by
  obtain ⟨b, hb, hp, -⟩ := h.owned.block a ha
  obtain hb | hb := List.mem_append.mp hb.1
  · exact absurd (hp ▸ ho) (h.wellFormed.settled.not_outside hb)
  · exact ⟨b, hb, hp⟩

theorem Good.mem_live (h : Good w bs mm) (hb : b ∈ mm) : b.payload ∈ w.live.map Alloc.ptr := by
  obtain ⟨a, ha, hp⟩ := h.owned.owner b
    ⟨List.mem_append_right bs hb, (h.wellFormed.mmapKind b hb).2⟩
  exact hp ▸ List.mem_map_of_mem ha

/-- **Step lemma**: the recorder follows the chain. -/
theorem record_eq (h : Good w bs mm) (h' : Good w' bs' mm') (hc : ChainStep w'.live mm mm' new) :
    record (mm.map Block.alloc) w' = mm'.map Block.alloc := by
  have hs' := h'.wellFormed.settled
  have hd : (mm ++ new).Nodup := by
    refine List.nodup_append.mpr ⟨h.wellFormed.settled.mm_nodup, ?_, fun b hb c hcn => ?_⟩
    · obtain rfl | ⟨c, -, rfl, -⟩ := hc.new
      · exact .nil
      · exact List.nodup_singleton c
    · obtain rfl | ⟨d, -, rfl, -, -, hne⟩ := hc.new
      · cases hcn
      · rintro rfl
        exact hne b hb (by rw [List.mem_singleton.mp hcn])
  have hptr : (mm.map Block.alloc).map Alloc.ptr = mm.map Block.payload := by
    rw [List.map_map]
    rfl
  -- the blocks that stay are those whose pointers are live
  have hold : (mm.map Block.alloc).filter (fun a => a.ptr ∈ w'.live.map Alloc.ptr) =
      (mm.filter fun b => b ∈ mm').map Block.alloc := by
    rw [List.filter_map]
    refine congrArg _ (List.filter_congr fun b hb => ?_)
    rw [Function.comp_apply, decide_eq_decide]
    constructor
    · intro hlive
      obtain ⟨a, ha, hp⟩ := List.mem_map.mp hlive
      exact (hc.gone b hb).resolve_right fun hg => hg a ha hp
    · exact h'.mem_live
  have hnew : (w'.live.filter fun a => outside w'.state a.ptr ∧
      a.ptr ∉ (mm.map Block.alloc).map Alloc.ptr) = (new.filter fun b => b ∈ mm').map Block.alloc := by
    have hin : ∀ a ∈ w'.live, outside w'.state a.ptr → (∀ c ∈ new, c.payload ≠ a.ptr) →
        a.ptr ∈ mm.map Block.payload := by
      intro a ha ho hne
      obtain ⟨b, hb, hp⟩ := h'.mem_of_outside ha ho
      obtain hb | hb := List.mem_append.mp (hc.sublist.mem hb)
      · exact hp ▸ List.mem_map_of_mem hb
      · exact absurd hp (hne b hb)
    rw [hptr]
    obtain rfl | ⟨c, rest, rfl, hcm, hlive, hne⟩ := hc.new
    · refine List.filter_eq_nil_iff.mpr fun a ha => ?_
      simpa using fun ho => hin a ha ho (by simp)
    · have hcp : c.payload ∉ mm.map Block.payload := fun hm => by
        obtain ⟨b, hb, hp⟩ := List.mem_map.mp hm
        exact hne b hb hp
      have hdist := h'.owned.distinct
      rw [hlive] at hdist hin ⊢
      rw [List.map_cons, List.nodup_cons] at hdist
      rw [List.filter_cons_of_pos (by simpa using ⟨hs'.outside hcm, by simpa using hcp⟩),
        List.filter_cons_of_pos (by simpa using hcm)]
      refine congrArg (_ :: ·) (List.filter_eq_nil_iff.mpr fun a ha => ?_)
      have hca : c.payload ≠ a.ptr := fun he => by
        have hm : a.ptr ∈ rest.map Alloc.ptr := List.mem_map_of_mem ha
        rw [← he] at hm
        exact hdist.1 hm
      have := hin a (List.mem_cons_of_mem _ ha)
      simp only [List.forall_mem_singleton] at this
      rw [decide_eq_true_iff, not_and, not_not]
      exact fun ho => this ho hca
  rw [record, hold, hnew, ← List.map_append, ← List.filter_append, filter_mem_eq hc.sublist hd]

/-- **Run lemma.** -/
theorem recorder_run (h : recorder.Run (fun x e => Event.Sound x.1 e) (w, order)) :
    ∃ bs mm, Good w bs mm ∧ order = mm.map Block.alloc := by
  refine h.invariant (I := fun x => ∃ bs mm, Good x.1 bs mm ∧ x.2 = mm.map Block.alloc) ?_ ?_
  · rintro ⟨w, _⟩ ⟨hw, rfl⟩
    exact ⟨[], [], Initial.good hw, rfl⟩
  · rintro ⟨w, order⟩ e ⟨w', order'⟩ ⟨bs, mm, hgood, horder⟩ hs ⟨hstep, hrec⟩
    obtain ⟨bs', mm', new, hgood', hc⟩ := hgood.step hs hstep
    refine ⟨bs', mm', hgood', hrec.trans ?_⟩
    rw [horder]
    exact record_eq hgood hgood' hc

/-- The pointer that a call is given. -/
def Call.pointer : Call → ℕ
  | sfree p => p
  | srealloc oldp _ => oldp
  | _ => 0

/-- A pointer that the call is not given stays live. -/
theorem Call.mem_live {c : Call} {r : ℕ} {live : List Alloc} (hp : p ∈ live.map Alloc.ptr)
    (hne : p ≠ c.pointer) : p ∈ (c.live r live).map Alloc.ptr := by
  obtain ⟨a, ha, rfl⟩ := List.mem_map.mp hp
  have hkeep : ∀ q, a.ptr ≠ q → a ∈ live.filter fun a => a.ptr != q := fun q hq =>
    List.mem_filter.mpr ⟨ha, bne_iff_ne.mpr hq⟩
  refine List.mem_map_of_mem ?_
  cases c with
  | smalloc | scalloc =>
      rw [Call.live]
      split
      next => exact ha
      next => exact List.mem_cons_of_mem _ ha
  | sfree q => exact hkeep q hne
  | srealloc q size =>
      rw [Call.live]
      split
      next => exact ha
      next => exact List.mem_cons_of_mem _ (hkeep q hne)

/-- The allocations tell the blocks in use. -/
theorem eq_of_map_alloc (h : ∀ b ∈ mm, b.free = false) (h' : ∀ b ∈ mm', b.free = false)
    (he : mm.map Block.alloc = mm'.map Block.alloc) : mm = mm' := by
  have hback : ∀ l : List Block, (∀ b ∈ l, b.free = false) →
      (l.map Block.alloc).map (fun a => ⟨a.ptr - sizeofMetadata, a.size, false⟩) = l := by
    intro l hl
    rw [List.map_map]
    refine (List.map_congr_left fun b hb => ?_).trans (List.map_id l)
    obtain ⟨p, n, free⟩ := b
    obtain rfl : free = false := hl _ hb
    simp [Block.alloc, Block.payload]
  exact (hback mm h).symm.trans ((congrArg _ he).trans (hback mm' h'))

/-- **The chain of the `mmap` blocks is exact**: it has the recorded allocations, each once and in
their order, and it is linked in both directions.  A call on a pointer that is not recorded changes
nothing of it, unless it hands out a new block from outside the region of `sbrk`. -/
theorem mmapList_exact (h : recorder.Run (fun x e => Event.Sound x.1 e) (w, order)) :
    ∃ mm, MmBlocks w.state mm ∧ BackLinks w.state.sys.mem 0 mm ∧ mm.Nodup ∧
      mm.map Block.alloc = order ∧
      ∀ c w', Event.Sound w (.call c) → Step w (.call c) w' →
        c.pointer ∉ order.map Alloc.ptr →
        (∀ a ∈ w'.live, outside w'.state a.ptr → a.ptr ∈ order.map Alloc.ptr) →
        MmBlocks w'.state mm := by
  obtain ⟨bs, mm, hgood, rfl⟩ := recorder_run h
  have hwf := hgood.wellFormed
  refine ⟨mm, hwf.mmap, hwf.mmapBack, hwf.settled.mm_nodup, rfl, fun c w' hs hstep hp hout => ?_⟩
  obtain ⟨bs', mm', new, hgood', hc⟩ := hgood.step hs hstep
  have hrec := record_eq hgood hgood' hc
  -- all that is recorded stays live, and nothing is added
  have hkeep : (mm.map Block.alloc).filter (fun a => a.ptr ∈ w'.live.map Alloc.ptr) =
      mm.map Block.alloc := by
    refine List.filter_eq_self.mpr fun a ha => decide_eq_true ?_
    obtain ⟨b, hb, rfl⟩ := List.mem_map.mp ha
    have hne : b.payload ≠ c.pointer := fun he => hp (he ▸ List.mem_map_of_mem ha)
    cases hstep with
    | call hlegal hrun => exact Call.mem_live (hgood.mem_live hb) hne
  have hnone : (w'.live.filter fun a => outside w'.state a.ptr ∧
      a.ptr ∉ (mm.map Block.alloc).map Alloc.ptr) = [] := by
    refine List.filter_eq_nil_iff.mpr fun a ha => ?_
    rw [decide_eq_true_iff, not_and, not_not]
    exact hout a ha
  rw [record, hkeep, hnone, List.append_nil] at hrec
  rw [eq_of_map_alloc (fun b hb => (hwf.mmapKind b hb).2)
    (fun b hb => (hgood'.wellFormed.mmapKind b hb).2) hrec]
  exact hgood'.wellFormed.mmap

/-! ### Recorded runs -/

/-- Every run can be recorded. -/
theorem exists_recorded {P : World → Event → Prop} (h : allocator.Run P w) :
    ∃ order, recorder.Run (fun x e => P x.1 e) (w, order) := by
  induction h with
  | init hw => exact ⟨[], .init ⟨hw, rfl⟩⟩
  | @step w w' e hrun hP hstep ih =>
      obtain ⟨order, hrec⟩ := ih
      exact ⟨record order w', hrec.step hP ⟨hstep, rfl⟩⟩

/-- The live allocations outside the region of `sbrk` are recorded. -/
theorem recorded_of_outside {P : World × List Alloc → Event → Prop}
    (h : recorder.Run P (w, order)) (ha : a ∈ w.live) (ho : outside w.state a.ptr) :
    a.ptr ∈ order.map Alloc.ptr := by
  have hlive : a.ptr ∈ w.live.map Alloc.ptr := List.mem_map_of_mem ha
  cases h with
  | init hw =>
      rw [hw.1.live] at ha
      cases ha
  | @step x _ e _ _ hstep =>
      have horder : order = record x.2 w := hstep.2
      rw [horder, record, List.map_append, List.mem_append]
      by_cases hm : a.ptr ∈ x.2.map Alloc.ptr
      · obtain ⟨d, hd, hp⟩ := List.mem_map.mp hm
        refine .inl (hp ▸ List.mem_map_of_mem (List.mem_filter.mpr ⟨hd, ?_⟩))
        exact decide_eq_true (hp ▸ hlive)
      · exact .inr (List.mem_map_of_mem (List.mem_filter.mpr ⟨ha, decide_eq_true ⟨ho, hm⟩⟩))

theorem mmapList_exact_replayed : ∃ w order, w.live = endLive ∧
    recorder.Run (fun x e => Event.Sound x.1 e) (w, order) ∧ MmBlocks w.state endMmap ∧
      BackLinks w.state.sys.mem 0 endMmap ∧ endMmap.map Block.alloc = order := by
  obtain ⟨w, hw, hlive, -, hm⟩ := exists_sound_run
  obtain ⟨order, hrec⟩ := exists_recorded hw
  obtain ⟨mm, hm', hback, -, horder, -⟩ := mmapList_exact hrec
  rw [hm'.unique hm] at hback horder
  exact ⟨w, order, hlive, hrec, hm, hback, horder⟩

/-- A program whose first region from `mmap` lies right behind the first page of its heap. -/
def World.near : World :=
  let start := World.start
  { start with state := { start.state with sys := { start.state.sys with
      place := fun k => if k = 4 then some 69632 else some (16777216 * (k + 1)) } } }

/-- `srealloc` of the third block writes the header of the rest over its size and then copies as
many bytes as this says, with the header of the first block from `mmap` among them.  The second one
is lost. -/
theorem mmapList_loses : ∃ (w : World) (order : List Alloc), recorder.Reachable (w, order) ∧
    ∀ mm, MmBlocks w.state mm → mm.map Block.alloc ≠ order := by
  obtain ⟨w, hw, hf⟩ := World.exists_of_exec World.near
    ⟨rfl, rfl, rfl, by decide, by decide, rfl, fun h => absurd rfl h⟩
    [.call (.smalloc 10), .call (.smalloc 400), .call (.smalloc 300), .call (.smalloc 20),
      .call (.smalloc 131072), .call (.smalloc 131072), .call (.sfree 65626),
      .call (.srealloc 66066 401)]
    (fun w => decide ((⟨100663336, 131072⟩ : Alloc) ∈ w.live ∧ outside w.state 100663336 ∧
      MmBlocks w.state [⟨69632, 0, false⟩])) (by decide +kernel)
  obtain ⟨hlive, hout, hm⟩ := of_decide_eq_true hf
  obtain ⟨order, hrec⟩ := exists_recorded hw
  refine ⟨w, order, hrec, ?_⟩
  rintro mm hm' rfl
  have hmem := recorded_of_outside hrec hlive hout
  rw [hm'.unique hm] at hmem
  revert hmem
  decide

end OsProjects.Malloc3
