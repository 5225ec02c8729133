import OsProjects.VirtualMemory.Malloc3.Both
import OsProjects.VirtualMemory.Malloc3.Failure

/-! # When a refused call is atomic

`smalloc` and `scalloc` that return `NULL` leave the allocator as it was.  So does `srealloc`,
unless it is on one of the three paths that merge the block with its neighbours before they ask
`sbrk` for the rest: there the block has already left the wilderness (`null_atomic_iff`). -/

namespace OsProjects.Malloc3

open Prog

variable {s s' : State} {as bs cs mm : List Block} {b : Block} {r size oldp num : ℕ}

/-! ### Calls that change nothing -/

/-- The blocks, both lists, the variables of the allocator, and the payloads in use are the
same. -/
structure Atomic (s s' : State) (bs mm : List Block) : Prop where
  blocks : HeapBlocks s' bs
  list : ∀ order, ListBlocks s order ∧ BackLinks s.sys.mem 0 order →
    ListBlocks s' order ∧ BackLinks s'.sys.mem 0 order
  mmap : MmBlocks s' mm ∧ BackLinks s'.sys.mem 0 mm
  heap : s'.heap = s.heap
  data : ∀ c ∈ used (bs ++ mm), Intact s s' c

theorem Unchanged.atomic (hu : Unchanged s s') (h : WellFormed s bs mm) : Atomic s s' bs mm := by
  have hb := h.heap
  have hm := h.mmap
  have hk := h.mmapBack
  unfold HeapBlocks at hb
  unfold MmBlocks at hm
  refine ⟨?_, fun order ho => ?_, ⟨?_, ?_⟩, hu.heap, fun c _ y _ _ => by rw [hu.mem]⟩
  · unfold HeapBlocks
    rwa [hu.heap, hu.mem, hu.brk]
  · unfold ListBlocks at ho ⊢
    rwa [hu.heap, hu.mem]
  · unfold MmBlocks
    rwa [hu.heap, hu.mem]
  · rwa [hu.mem]

theorem scalloc_null (hw : Whole s bs) (h : (scalloc num size).run s = .ok (0, s')) :
    Unchanged s s' := by
  simp only [scalloc, run_bind_eq_ok, run_ite_eq_ok, pure_eq_ok] at h
  obtain ⟨a, s₁, h₁, ⟨rfl, -, rfl⟩ | ⟨ha, _, _, -, rfl, -⟩⟩ := h
  · exact smalloc_null hw h₁
  · exact absurd rfl ha

theorem mmapsrealloc_null (hw : Whole s bs) (hp : oldp ≠ 0)
    (h : (mmapsrealloc oldp size).run s = .ok (0, s')) : Unchanged s s' := by
  obtain ⟨-, he, -⟩ | ⟨-, ⟨-, h⟩ | ⟨hr, -⟩⟩ := mmapsrealloc_cases h
  · exact absurd he.symm hp
  · exact smalloc_null hw h
  · exact absurd rfl hr

theorem reallocGrow_null (hw : Whole s (as ++ [b])) (hlt : b.size < size) (hs : size ≤ sizeLimit)
    (h : (reallocGrow size).run s = .ok (0, s')) : Unchanged s s' := by
  obtain ⟨hn, hsbrk⟩ := sbrk_needed ⟨hw.tiled, hw.wilderness⟩ hlt hs
  obtain ⟨hf, -, rfl⟩ | ⟨-, he, -⟩ := reallocGrow_cases h
  · rw [hn] at hf ⊢
    obtain ⟨-, hr⟩ | ⟨hne, -⟩ := hsbrk
    · exact .refused hr
    · exact absurd hf hne
  · have hwild : s.heap.wilderness = b.addr := hw.wilderness.trans (lastAddr_concat as b)
    have hb := hw.tiled.stop_le (b := b) (by simp)
    rw [hwild] at he
    refine absurd he.symm (add64_ne_zero ?_)
    simp only [userTop]
    omega

/-! ### Calls that have merged -/

/-- The path merges blocks before it asks `sbrk` for more. -/
def Path.MergesFirst : Path → Prop
  | lowerGrow _ => True
  | bothGrow _ _ => True
  | upperGrow _ => True
  | _ => False

/-- `srealloc` serves the call on a path that merges blocks before it asks `sbrk` for more. -/
def GrowsMerged (bs : List Block) (oldp size : ℕ) : Prop :=
  size ≠ 0 ∧ size ≤ sizeLimit ∧ ∃ as b cs, bs = as ++ b :: cs ∧ b.payload = oldp ∧
    b.free = false ∧ b.size < mmapThreshold ∧ (pathOf as b cs size).MergesFirst

/-- A path on a block of the heap that ends with `NULL` has changed nothing before, unless it
merges first. -/
theorem code_null (h : WellFormed s (as ++ b :: cs) mm) (hs : size ≤ sizeLimit)
    (hpath : ¬(pathOf as b cs size).MergesFirst)
    (hrun : ((pathOf as b cs size).code as b cs b.payload size).run s = .ok (0, s')) :
    Unchanged s s' := by
  have hbm : b ∈ as ++ b :: cs := by simp
  have hle : ∀ c ∈ as ++ b :: cs, add64 c.addr sizeofMetadata ≠ 0 := fun c hc => by
    have := h.tiled.stop_le hc
    refine add64_ne_zero ?_
    simp only [userTop]
    omega
  have hchosen := pathOf_chosen as b cs size
  generalize pathOf as b cs size = path at hpath hrun hchosen
  cases path with
  | reuse =>
      simp only [Path.code, run_bind_eq_ok, pure_eq_ok] at hrun
      obtain ⟨_, _, -, he, -⟩ := hrun
      simp [Block.payload, sizeofMetadata] at he
  | lower p =>
      obtain ⟨⟨as', rfl⟩, -⟩ := hchosen
      exact absurd (reallocLower_cases hrun).1.symm (hle p (by simp))
  | lowerGrow p => exact absurd trivial hpath
  | grow =>
      obtain ⟨rfl, hlt⟩ := hchosen
      exact reallocGrow_null h.whole hlt hs hrun
  | upper n => exact absurd (reallocUpper_cases hrun).1.symm (hle b hbm)
  | both p n =>
      obtain ⟨⟨as', rfl⟩, -⟩ := hchosen
      exact absurd (reallocBoth_cases hrun).1.symm (hle p (by simp))
  | bothGrow p n => exact absurd trivial hpath
  | upperGrow n => exact absurd trivial hpath
  | move =>
      obtain ⟨-, h₁⟩ | ⟨hr, -⟩ := reallocMove_cases hrun
      · exact smalloc_null h.whole h₁
      · exact absurd rfl hr

/-- A path that merges first and ends with `NULL` has moved the wilderness. -/
theorem code_merged (h : WellFormed s (as ++ b :: cs) mm) (hb : b.free = false)
    (hs : size ≤ sizeLimit) (hpath : (pathOf as b cs size).MergesFirst)
    (hrun : ((pathOf as b cs size).code as b cs b.payload size).run s = .ok (0, s')) :
    s'.heap.wilderness ≠ s.heap.wilderness := by
  have hw := h.whole
  have hn := h.coalesced
  have hle : ∀ c ∈ as ++ b :: cs, add64 c.addr sizeofMetadata ≠ 0 := fun c hc => by
    have := h.tiled.stop_le hc
    refine add64_ne_zero ?_
    simp only [userTop]
    omega
  have hchosen := pathOf_chosen as b cs size
  generalize pathOf as b cs size = path at hpath hrun hchosen
  cases path with
  | reuse | lower | grow | upper | both | move => exact absurd hpath not_false
  | lowerGrow p =>
      obtain ⟨⟨as, rfl⟩, rfl, hp, hlt⟩ := hchosen
      rw [List.append_assoc, List.singleton_append] at hw hn hle
      obtain ⟨s₁, s₂, s₃, h₁, h₂, h₃, ⟨-, -, rfl⟩ | ⟨-, he, -⟩⟩ := reallocLowerGrow_cases hrun
      · have hm := lowerGrow_turns hw hn hp hb hlt hs h₁ h₂ h₃
        have hne : p.addr ≠ b.addr := hw.tiled.addr_ne_of_nodup (d := b) (by simp) |>.symm
        show s₃.heap.wilderness ≠ _
        rw [hm.turns.shape.wilderness, hw.wilderness]
        simpa [lastAddr] using hne
      · exact absurd he.symm (hle p (by simp))
  | bothGrow p n =>
      obtain ⟨⟨as, rfl⟩, rfl, hp, hnf, hlt⟩ := hchosen
      rw [List.append_assoc, List.singleton_append] at hw hn hle
      obtain ⟨s₁, s₂, s₃, h₁, h₂, h₃, ⟨-, -, rfl⟩ | ⟨-, he, -⟩⟩ := reallocBothGrow_cases hrun
      · have hm := bothGrow_turns hw hn hp hb hnf h₁ h₂ h₃
        have hne : p.addr ≠ n.addr := hw.tiled.addr_ne_of_nodup (d := n) (by simp) |>.symm
        show s₃.heap.wilderness ≠ _
        rw [hm.turns.shape.wilderness, hw.wilderness]
        simpa [lastAddr] using hne
      · exact absurd he.symm (hle p (by simp))
  | upperGrow n =>
      obtain ⟨rfl, hnf, hl, hlt⟩ := hchosen
      obtain ⟨s₁, s₂, s₃, h₁, h₂, h₃, ⟨-, -, rfl⟩ | ⟨-, he, -⟩⟩ := reallocUpperGrow_cases hrun
      · have hm := upperGrow_turns hw hn hb hnf hl h₁ h₂ h₃
        have hne : b.addr ≠ n.addr := hw.tiled.addr_ne_of_nodup (d := n) (by simp) |>.symm
        show s₃.heap.wilderness ≠ _
        rw [hm.shape.wilderness, hw.wilderness]
        simpa [lastAddr] using hne
      · exact absurd he.symm (hle b (by simp))

/-! ### Failure is atomic -/

/-- An `srealloc` that returns `NULL` has changed nothing, unless it merges first. -/
theorem srealloc_null (h : WellFormed s bs mm)
    (hold : oldp = 0 ∨ ∃ b ∈ used (bs ++ mm), b.payload = oldp) (hg : ¬GrowsMerged bs oldp size)
    (hrun : (srealloc oldp size).run s = .ok (0, s')) : Unchanged s s' := by
  have hw := h.whole
  obtain ⟨-, hrun⟩ | ⟨-, -, -, rfl⟩ | ⟨hp, h₀, hs, hcase⟩ := srealloc_cases hrun
  · exact smalloc_null hw hrun
  · exact .refl s
  obtain hold | ⟨b, ⟨hbm, hb⟩, rfl⟩ := hold
  · exact absurd hold hp
  obtain hbm | hbm := List.mem_append.mp hbm
  · obtain ⟨as, cs, rfl⟩ := List.append_of_mem hbm
    rw [payload_sub h.tiled hbm, h.tiled.size_eq hbm] at hcase
    obtain ⟨-, hrun⟩ | hT := hcase
    · exact mmapsrealloc_null hw hp hrun
    · refine code_null h hs (fun hpath => hg ?_) (srealloc_path h.tiled h.wilderness hT h₀ hs hrun)
      exact ⟨h₀, hs, as, b, cs, rfl, rfl, hb, hT, hpath⟩
  · obtain ⟨hsub, hsize⟩ := h.settled.mm_header hbm
    rw [hsub, hsize] at hcase
    obtain ⟨-, hrun⟩ | hT := hcase
    · exact mmapsrealloc_null hw hp hrun
    · have := (h.mmapKind b hbm).1
      omega

/-- **Failure is atomic** on a well-formed heap, whatever the kernel refuses: a call that returns
`NULL` has changed nothing, except for an `srealloc` that had merged blocks before `sbrk` failed,
and that one has always changed something. -/
theorem null_atomic_iff (h : WellFormed s bs mm) :
    (∀ size, (smalloc size).run s = .ok (0, s') → Atomic s s' bs mm) ∧
    (∀ num size, (scalloc num size).run s = .ok (0, s') → Atomic s s' bs mm) ∧
    ∀ oldp size, (oldp = 0 ∨ ∃ b ∈ used (bs ++ mm), b.payload = oldp) →
      (srealloc oldp size).run s = .ok (0, s') →
      (Atomic s s' bs mm ↔ ¬GrowsMerged bs oldp size) := by
  have hw := h.whole
  refine ⟨fun size hrun => (smalloc_null hw hrun).atomic h,
    fun num size hrun => (scalloc_null hw hrun).atomic h, fun oldp size hold hrun => ?_⟩
  by_cases hg : GrowsMerged bs oldp size
  · obtain ⟨h₀, hs, as, b, cs, rfl, rfl, hb, hT, hpath⟩ := hg
    have hcode := srealloc_path h.tiled h.wilderness hT h₀ hs hrun
    refine iff_of_false (fun ha => code_merged h hb hs hpath hcode ?_) (not_not.mpr ?_)
    · rw [ha.heap]
    · exact ⟨h₀, hs, as, b, cs, rfl, rfl, hb, hT, hpath⟩
  · exact iff_of_true ((srealloc_null h hold hg hrun).atomic h) hg

/-- A program before its first call; the kernel will refuse its request number `k`. -/
def World.refusing (k : ℕ) : World where
  state := { World.start.state with
    sys := { World.start.state.sys with refuses := fun i => i == k } }
  live := []

theorem World.refusing_initial (k : ℕ) : Initial (World.refusing k) where
  live := rfl
  heap := rfl
  brk := rfl
  base_pos := World.start_initial.base_pos
  base_le := World.start_initial.base_le
  null := rfl
  basePage := World.start_initial.basePage

/-- The only block cannot grow. -/
theorem null_atomic_grow :
    ∃ w s', allocator.Reachable w ∧ (srealloc 65576 100).run w.state = .ok (0, s') ∧
      Atomic w.state s' [⟨65536, 10, false⟩] [] := by
  obtain ⟨w, hw, hf⟩ := World.exists_of_exec (World.refusing 1) (World.refusing_initial 1)
    [.call (.smalloc 10)]
    (fun w => decide (WellFormed w.state [⟨65536, 10, false⟩] []) &&
      (srealloc 65576 100).check w.state fun r _ => r == 0) (by decide +kernel)
  obtain ⟨hwf, r, s', hrun, hr⟩ := exists_of_and_check hf
  obtain rfl : r = 0 := by simpa using hr
  refine ⟨w, s', hw, hrun, ((null_atomic_iff hwf).2.2 65576 100
    (.inr ⟨⟨65536, 10, false⟩, ⟨by simp, rfl⟩, rfl⟩) hrun).mpr ?_⟩
  rintro ⟨-, -, as, b, cs, he, -, -, -, hpath⟩
  cases as with
  | nil =>
      obtain ⟨rfl, rfl⟩ := List.cons_eq_cons.mp he
      simp [pathOf, Path.MergesFirst] at hpath
  | cons a as => simp at he

/-- The last block has a free block in front of it, and `sbrk` refuses what the two of them
lack. -/
theorem null_after_merge :
    ∃ w s', allocator.Reachable w ∧
      WellFormed w.state [⟨65536, 10, false⟩, ⟨65586, 100, true⟩, ⟨65726, 100, false⟩] [] ∧
      (srealloc 65766 1000).run w.state = .ok (0, s') ∧
      ¬Atomic w.state s' [⟨65536, 10, false⟩, ⟨65586, 100, true⟩, ⟨65726, 100, false⟩] [] := by
  obtain ⟨w, hw, hf⟩ := World.exists_of_exec (World.refusing 3) (World.refusing_initial 3)
    [.call (.smalloc 10), .call (.smalloc 100), .call (.smalloc 100), .call (.sfree 65626)]
    (fun w => decide (WellFormed w.state
        [⟨65536, 10, false⟩, ⟨65586, 100, true⟩, ⟨65726, 100, false⟩] []) &&
      (srealloc 65766 1000).check w.state fun r s' =>
        r == 0 && decide (s'.heap.wilderness ≠ w.state.heap.wilderness)) (by decide +kernel)
  obtain ⟨hwf, r, s', hrun, hr⟩ := exists_of_and_check hf
  rw [Bool.and_eq_true, decide_eq_true_eq] at hr
  obtain rfl : r = 0 := by simpa using hr.1
  exact ⟨w, s', hw, hwf, hrun, fun ha => hr.2 (congrArg MemoryList.wilderness ha.heap)⟩

end OsProjects.Malloc3
