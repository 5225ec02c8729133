import OsProjects.VirtualMemory.Malloc3.Resize
import OsProjects.VirtualMemory.Malloc3.Returns

/-! # Freeing a block twice

The second `sfree` of a pointer finds the header that the first one has left at this address: it
lies inside the lower neighbour, or it is the header of the merged block (`freed_header`).  The
second call does nothing as long as the size in this header is below `MMAP_THRESHOLD`; it takes
the block for one from `mmap` when the block has outgrown the threshold by absorbing its upper
neighbour (`sfree_twice_iff`). -/

namespace OsProjects.Malloc3

open Prog

variable {L S : Set ℕ} {s s' s₁ : State} {as bs cs mm : List Block} {b c n : Block} {p k : ℕ}

/-! ### Cookies -/

theorem validateCookie_ok (hp : p ≠ 0) {u : Unit} (h : (validateCookie p).run s = .ok (u, s')) :
    getField s.sys.mem .cookie p = s.mainCookie.toNat := by
  simp only [validateCookie, run_ite_eq_ok, run_bind_eq_ok, get_eq_ok, gets_eq_ok, stop_eq_ok] at h
  obtain ⟨-, _, _, ⟨-, rfl, rfl⟩, _, _, ⟨rfl, rfl⟩, ⟨-, h⟩ | ⟨he, -⟩⟩ | ⟨h, -⟩ := h
  · exact h.elim
  · exact not_not.mp he
  · exact absurd hp h

/-- `smerge` does not touch the cookies. -/
theorem smerge_cookie {fuel : ℕ} (hsh : Shape L s (as ++ b :: cs))
    (h : (smerge s.sys.brk fuel b.addr).run s = .ok ((), s')) (hp : p ∈ L) :
    getField s'.sys.mem .cookie p = getField s.sys.mem .cookie p := by
  induction fuel generalizing s as b cs with
  | zero => simp [smerge] at h
  | succ fuel ih =>
      obtain ⟨-, rfl⟩ | ⟨c, cs, rfl, -, h⟩ | ⟨c, cs, s₁, s₂, rfl, -, -, h₁, hsys, -, hm, h⟩ :=
        smerge_round hsh h
      · rfl
      · have e : as ++ b :: c :: cs = (as ++ [b]) ++ c :: cs := by simp
        rw [e] at hsh
        exact ih hsh h
      · have hb : b.addr ∈ L := hsh.sub (mem_addrs (by simp))
        have hc : c.addr ∈ L := hsh.sub (mem_addrs (by simp))
        obtain ⟨hl, -⟩ := absorb_linkStep hsh.spread hsh.tiled.null hsh.closed hb hc h₁
        have h₂ : getField s₂.sys.mem .cookie p = getField s.sys.mem .cookie p := by
          rw [hsys, hl.getField_eq hsh.spread (by decide) hp]
          obtain rfl | hap := hsh.spread.apart _ hb _ hp
          · exact getField_setField_field (by decide)
          · exact getField_setField_apart hap
        obtain ⟨-, rfl⟩ | h := h
        · exact h₂
        · exact (ih hm.shape h).trans h₂

theorem merge_cookie (hsh : Shape L s bs) (h : merge.run s = .ok ((), s')) (hp : p ∈ L) :
    getField s'.sys.mem .cookie p = getField s.sys.mem .cookie p := by
  cases bs with
  | nil =>
      obtain rfl := merge_nil hsh h
      rfl
  | cons b cs =>
      have hsh' : Shape L s ([] ++ b :: cs) := hsh
      exact smerge_cookie hsh' (merge_cons hsh h) hp

/-! ### The header that a free leaves -/

/-- The block `b` with the free block behind it, if there is one. -/
def withUpper (b : Block) (cs : List Block) : Block :=
  match cs.head?.filter Block.free with
  | some n => b.absorb n
  | none => b

/-- The size that the header of `b` tells once `b` was freed between `as` and `cs`. -/
def freedSize (as : List Block) (b : Block) (cs : List Block) : ℕ :=
  if as.getLast?.any Block.free then b.size else (withUpper b cs).size

theorem coalesceFrom_freed (hn : NoAdjacentFree (b :: cs)) :
    ∃ ds, coalesceFrom b.freed cs = withUpper b.freed cs :: ds := by
  cases cs with
  | nil => exact ⟨[], rfl⟩
  | cons n cs =>
      obtain ⟨-, hn⟩ := noAdjacentFree_cons.mp hn
      cases hf : n.free with
      | true =>
          have hw : withUpper b.freed (n :: cs) = b.freed.absorb n := by
            simp [withUpper, Option.filter_some, hf]
          have hnc : NoAdjacentFree (b.freed.absorb n :: cs) := by
            obtain ⟨h₁, h₂⟩ := noAdjacentFree_cons.mp hn
            refine noAdjacentFree_cons.mpr ⟨fun c hc => ?_, h₂⟩
            have := h₁ c hc
            simpa [Block.Parted, hf] using this
          exact ⟨cs, by rw [coalesceFrom_absorb rfl hf, coalesceFrom_eq_self hnc, hw]⟩
      | false =>
          have hw : withUpper b.freed (n :: cs) = b.freed := by
            simp [withUpper, Option.filter_some, hf]
          exact ⟨coalesceFrom n cs, by rw [coalesceFrom, if_neg (by simp [hf]), hw]⟩

theorem withUpper_freed (b : Block) (cs : List Block) :
    (withUpper b.freed cs).addr = b.addr ∧ (withUpper b.freed cs).free = true ∧
      (withUpper b.freed cs).size = (withUpper b cs).size := by
  unfold withUpper
  split <;> exact ⟨rfl, rfl, rfl⟩

/-- The header of a block that its lower neighbour has absorbed is not one of the heap any more. -/
theorem absorbed_not_mem {a : Block} (ht : Tiled s (as ++ a :: b :: cs))
    (hn : NoAdjacentFree (as ++ [a])) (ha : a.free = true) (hb : b.free = true) :
    b.addr ∉ addrs (coalesce (as ++ a :: b :: cs)) := by
  rw [coalesce_behind hn, coalesceFrom_absorb ha hb]
  intro hm
  have hm' : b.addr ∈ addrs (as ++ a.absorb b :: cs) := by
    rw [addrs_append] at hm ⊢
    exact hm.imp id fun h => addrs_coalesceFrom _ _ h
  obtain ⟨d, hd, hdb⟩ := hm'
  have hnd := ht.nodup
  simp only [List.map_append, List.map_cons, List.nodup_append, List.nodup_cons, List.mem_cons,
    List.mem_map] at hnd
  obtain ⟨-, ⟨ha', hb', -⟩, has⟩ := hnd
  obtain hd | hd := List.mem_append.mp hd
  · exact has d.addr ⟨d, hd, rfl⟩ b.addr (.inr (.inl rfl)) hdb
  · obtain rfl | hd := List.mem_cons.mp hd
    · exact ha' (.inl hdb)
    · exact hb' ⟨d, hd, hdb⟩

/-- The header of `b` after `merge`. -/
theorem freed_header (hn : NoAdjacentFree (as ++ b :: cs)) (hsh : Shape L s (as ++ b.freed :: cs))
    (h : merge.run s = .ok ((), s')) :
    getField s'.sys.mem .size b.addr = freedSize as b cs ∧
      (getField s'.sys.mem .isFree b.addr != 0) = true := by
  have hm := merge_becomes hsh h
  have hb : b.freed ∈ as ++ b.freed :: cs := by simp
  have hbL : b.addr ∈ L := hsh.sub (mem_addrs (b := b.freed) hb)
  unfold freedSize
  split
  next hlow =>
    -- the old header lies inside the lower neighbour and stays as it was
    obtain ⟨a, ha, haf⟩ := (Option.any_eq_true _ _).mp hlow
    obtain ⟨as, rfl⟩ := List.getLast?_eq_some_iff.mp ha
    rw [List.append_assoc, List.singleton_append] at hsh hm hb hn
    have hn' : NoAdjacentFree ((as ++ [a]) ++ b :: cs) := by simpa using hn
    have hnot := absorbed_not_mem hsh.tiled hn'.left haf rfl
    have hsub : addrs (coalesce (as ++ a :: b.freed :: cs)) ⊆ L := (addrs_coalesce _).trans hsh.sub
    rw [hm.step.getField_of_not_mem hsh.spread subset_rfl hsub (by decide) hbL hnot,
      hm.step.getField_of_not_mem hsh.spread subset_rfl hsub (by decide) hbL hnot]
    exact ⟨hsh.tiled.size_eq (b := b.freed) hb, hsh.tiled.free_eq (b := b.freed) hb⟩
  next hlow =>
    have hco : coalesce (as ++ b.freed :: cs) = coalesce as ++ coalesceFrom b.freed cs := by
      refine coalesce_append fun a ha hf => hlow ?_
      exact (Option.any_eq_true _ _).mpr ⟨a, ha, hf.1⟩
    obtain ⟨ds, hds⟩ := coalesceFrom_freed hn.right
    have hmem : withUpper b.freed cs ∈ coalesce (as ++ b.freed :: cs) := by
      rw [hco, hds]
      simp
    obtain ⟨haddr, hfree, hsize⟩ := withUpper_freed b cs
    have h₁ := hm.shape.tiled.size_eq hmem
    have h₂ := hm.shape.tiled.free_eq hmem
    rw [haddr] at h₁ h₂
    exact ⟨h₁.trans hsize, h₂.trans hfree⟩

/-! ### The two calls -/

theorem payload_ne_zero (b : Block) : b.payload ≠ 0 := by
  unfold Block.payload sizeofMetadata
  omega

/-- The first call. -/
theorem sfree_used (ht : Tiled s bs) (hb : b ∈ bs) (hf : b.free = false)
    (hT : b.size < mmapThreshold) (h : (sfree b.payload).run s = .ok ((), s')) :
    getField s.sys.mem .cookie b.addr = s.mainCookie.toNat ∧
      ∃ s₁, (markFree b.addr).run s = .ok ((), s₁) ∧ merge.run s₁ = .ok ((), s') := by
  simp only [sfree, run_ite_eq_ok, run_bind_eq_ok, get_eq_ok, getFree_eq_ok, payload_sub ht hb] at h
  obtain ⟨h₀, -⟩ | ⟨-, _, _, hv, _, _, ⟨-, rfl, rfl⟩, h⟩ := h
  · exact absurd h₀ (payload_ne_zero b)
  have hc := validateCookie_ok (ht.spread.pos _ (mem_addrs hb)) hv
  obtain rfl := validateCookie_eq_ok hv
  refine ⟨hc, ?_⟩
  rw [ht.size_eq hb] at h
  obtain ⟨hT', -⟩ | ⟨-, _, _, ⟨-, rfl, rfl⟩, h⟩ := h
  · exact absurd hT (Nat.not_lt.mpr hT')
  · obtain ⟨-, _, s₁, h₁, h₂⟩ | ⟨hf', -⟩ := h
    · exact ⟨s₁, h₁, h₂⟩
    · exact absurd ((ht.free_eq hb).trans hf) hf'

/-- A call on a header whose flag is set. -/
theorem sfree_free (hR : Ready {p} s) (hp : p ≠ 0)
    (hsub : sub64 (p + sizeofMetadata) sizeofMetadata = p)
    (hf : (getField s.sys.mem .isFree p != 0) = true) :
    (sfree (p + sizeofMetadata)).run s =
      if mmapThreshold ≤ getField s.sys.mem .size p then (sfreeMmap p).run s else .ok ((), s) := by
  have hm : p ∈ ({p} : Set ℕ) := rfl
  have hfree : (getFree p).run s = .ok (true, s) :=
    getFree_eq_ok.mpr ⟨accessible_field (hR.accessible p hm) .isFree, hf, rfl⟩
  have hne : p + sizeofMetadata ≠ 0 := by omega
  rw [sfree, run_ite, if_neg hne]
  simp only [hsub]
  rw [run_bind_ok (hR.run_validateCookie (.inr hm)), run_bind_ok (hR.run_get hm .size), run_ite]
  split
  · rfl
  · rw [run_bind_ok hfree]
    rfl

theorem sub64_one_ne (n : ℕ) : sub64 n 1 ≠ n := by
  have := sub64_cast n 1
  omega

theorem mmUnlink_blocks (h : (mmUnlink p).run s = .ok ((), s')) :
    s'.heap.numAllocatedBlocks = s.heap.numAllocatedBlocks := by
  simp only [mmUnlink, run_bind_eq_ok, run_ite_eq_ok, getHeap_eq_ok, setHeap_eq_ok, get_eq_ok,
    set_eq_ok, pure_eq_ok] at h
  obtain ⟨_, _, ⟨rfl, rfl⟩, ⟨-, _, _, ⟨-, -, rfl⟩, _, _, rfl, h⟩ | ⟨-, h⟩⟩ := h
  · obtain ⟨-, _, _, hv, -, rfl⟩ | ⟨-, -, rfl⟩ := h
    · obtain rfl := validateCookie_eq_ok hv
      rfl
    · rfl
  · obtain ⟨_, _, ⟨-, rfl, rfl⟩, _, _, ⟨-, rfl, rfl⟩, _, _, ⟨-, rfl⟩, _, _, ⟨-, rfl, rfl⟩, _, _,
      hv, _, _, ⟨-, rfl, rfl⟩, h⟩ := h
    obtain rfl := validateCookie_eq_ok hv
    obtain ⟨-, _, _, ⟨-, rfl, rfl⟩, -, rfl⟩ | ⟨-, -, rfl⟩ := h
    · rfl
    · rfl

/-- A call that takes the `mmap` branch counts one block less. -/
theorem sfreeMmap_blocks {u : Unit} (h : (sfreeMmap p).run s = .ok (u, s')) :
    s'.heap.numAllocatedBlocks ≠ s.heap.numAllocatedBlocks := by
  obtain ⟨s₁, h₁, -, hheap⟩ := sfreeMmap_cases h
  rw [hheap, ← mmUnlink_blocks h₁]
  exact sub64_one_ne _

/-- The block `b` between `as` and `cs` absorbs only its upper neighbour when it is freed, and
reaches `MMAP_THRESHOLD` by it. -/
def Outgrows (as : List Block) (b : Block) (cs : List Block) : Prop :=
  (∀ a ∈ as.getLast?, a.free = false) ∧
    ∃ n ∈ cs.head?, n.free = true ∧ mmapThreshold ≤ b.size + n.size + sizeofMetadata

instance (as : List Block) (b : Block) (cs : List Block) : Decidable (Outgrows as b cs) := by
  unfold Outgrows; infer_instance

theorem outgrows_iff (hT : b.size < mmapThreshold) :
    mmapThreshold ≤ freedSize as b cs ↔ Outgrows as b cs := by
  unfold freedSize Outgrows
  split
  next hlow =>
    obtain ⟨a, ha, haf⟩ := (Option.any_eq_true _ _).mp hlow
    refine iff_of_false (Nat.not_le.mpr hT) fun h => ?_
    rw [h.1 a ha] at haf
    cases haf
  next hlow =>
    have hlow' : ∀ a ∈ as.getLast?, a.free = false := fun a ha =>
      Bool.eq_false_iff.mpr fun hf => hlow ((Option.any_eq_true _ _).mpr ⟨a, ha, hf⟩)
    unfold withUpper
    split
    next n hn =>
      obtain ⟨hn, hf⟩ := Option.filter_eq_some_iff.mp hn
      constructor
      · intro h
        refine ⟨hlow', n, hn, hf, ?_⟩
        simp only [Block.absorb] at h
        omega
      · rintro ⟨-, n', hn', -, h⟩
        obtain rfl : n = n' := Option.some.inj (hn.symm.trans hn')
        simp only [Block.absorb]
        omega
    next hn =>
      refine iff_of_false (Nat.not_le.mpr hT) ?_
      rintro ⟨-, n, hn', hf, -⟩
      rw [Option.filter_eq_none_iff] at hn
      exact absurd hf (hn n hn')

/-- **Freeing a block twice.**  The second call leaves everything as the first one did unless the
block has outgrown `MMAP_THRESHOLD`; then it does not return, or it counts one block less. -/
theorem sfree_twice_iff (hw : WellFormed s (as ++ b :: cs) mm) (hf : b.free = false)
    (hT : b.size < mmapThreshold) (h : (sfree b.payload).run s = .ok ((), s')) :
    ((sfree b.payload).run s' = .ok ((), s') ↔ ¬Outgrows as b cs) ∧
      ∀ s'', (sfree b.payload).run s' = .ok ((), s'') →
        s''.heap.numAllocatedBlocks = s'.heap.numAllocatedBlocks → s'' = s' := by
  have hb : b ∈ as ++ b :: cs := by simp
  have ht := hw.tiled
  obtain ⟨hcookie, s₁, h₁, h₂⟩ := sfree_used ht hb hf hT h
  have hm₁ := markFree_turns hw.whole.shape hf h₁
  have hm₂ := merge_becomes hm₁.shape h₂
  obtain ⟨hsize, hflag⟩ := freed_header hw.coalesced hm₁.shape h₂
  have hbS : b.addr ∈ addrs (as ++ b :: cs) := mem_addrs hb
  -- the header at `b` is still mapped and has its cookie
  have hR : Ready {b.addr} s' := by
    refine ⟨?_, ?_⟩
    · rintro p rfl
      refine (Memory.accessible_iff _ _ _).mpr fun y hy₁ hy₂ => ?_
      rw [hm₂.step.page, hm₁.step.page]
      refine hw.page_eq (List.mem_append_left mm hb) hy₁ ?_
      unfold Block.stop
      omega
    · rintro p rfl
      rw [merge_cookie hm₁.shape h₂ hbS, hm₂.step.cookie, hm₁.step.cookie, ← hcookie]
      obtain ⟨t, ht₁, rfl⟩ := markFree_cases h₁
      obtain ⟨-, rfl⟩ := setFree_eq_ok.mp ht₁
      exact getField_setField_field (by decide)
  have hsub : sub64 (b.addr + sizeofMetadata) sizeofMetadata = b.addr := payload_sub ht hb
  have hsecond := sfree_free hR (ht.spread.pos _ hbS) hsub hflag
  rw [hsize] at hsecond
  change (sfree b.payload).run s' = _ at hsecond
  rw [hsecond, ← outgrows_iff hT]
  split
  next hle =>
    refine ⟨iff_of_false (fun hrun => sfreeMmap_blocks hrun rfl) (not_not.mpr hle), ?_⟩
    exact fun s'' hrun hblocks => absurd hblocks (sfreeMmap_blocks hrun)
  next hlt =>
    refine ⟨iff_of_true rfl hlt, fun s'' hrun _ => ?_⟩
    exact (Prod.ext_iff.mp (Except.ok.inj hrun)).2.symm

/-- The last block of a heap is freed twice. -/
theorem sfree_twice_last :
    ∃ s s', (sfree 69672).run s = .ok ((), s') ∧ (sfree 69672).run s' = .ok ((), s') := by
  obtain ⟨w, -, hw⟩ := World.exists_of_exec World.start World.start_initial
    [.call (.smalloc 4056), .call (.smalloc 100000)]
    (fun w => decide (WellFormed w.state [⟨65536, 4056, false⟩, ⟨69632, 100000, false⟩] []) &&
      (sfree 69672).check w.state fun _ _ => true) (by decide +kernel)
  obtain ⟨hwf, ⟨⟩, s', hrun, -⟩ := exists_of_and_check hw
  have hwf' : WellFormed w.state ([⟨65536, 4056, false⟩] ++ ⟨69632, 100000, false⟩ :: []) [] := hwf
  have h := sfree_twice_iff hwf' rfl (by decide) hrun
  exact ⟨w.state, s', hrun, h.1.mpr (by decide)⟩

/-- A block of 100000 bytes in front of a free one of 100000 bytes is freed twice: the second call
unmaps pages of the heap. -/
theorem sfree_twice_unmaps :
    ∃ w s' s'', allocator.Reachable w ∧
      WellFormed w.state [⟨65536, 4056, false⟩, ⟨69632, 100000, false⟩, ⟨169672, 100000, true⟩] [] ∧
      (sfree 69672).run w.state = .ok ((), s') ∧ (sfree 69672).run s' = .ok ((), s'') ∧
      s''.heap.numAllocatedBlocks ≠ s'.heap.numAllocatedBlocks ∧
      s'.sys.mem.page 17 = true ∧ s''.sys.mem.page 17 = false := by
  obtain ⟨w, hw, hf⟩ := World.exists_of_exec World.start World.start_initial
    [.call (.smalloc 4056), .call (.smalloc 100000), .call (.smalloc 100000), .call (.sfree 169712)]
    (fun w => decide (WellFormed w.state
        [⟨65536, 4056, false⟩, ⟨69632, 100000, false⟩, ⟨169672, 100000, true⟩] []) &&
      (sfree 69672).check w.state fun _ s' => s'.sys.mem.page 17 &&
        (sfree 69672).check s' fun _ s'' => !s''.sys.mem.page 17 &&
          s''.heap.numAllocatedBlocks != s'.heap.numAllocatedBlocks) (by decide +kernel)
  rw [Bool.and_eq_true] at hf
  obtain ⟨⟨⟩, s', h₁, hs'⟩ := exists_of_check hf.2
  rw [Bool.and_eq_true] at hs'
  obtain ⟨⟨⟩, s'', h₂, hs''⟩ := exists_of_check hs'.2
  simp only [Bool.and_eq_true, Bool.not_eq_true', bne_iff_ne] at hs''
  exact ⟨w, s', s'', hw, of_decide_eq_true hf.1, h₁, h₂, hs''.2, hs'.1, hs''.1⟩

end OsProjects.Malloc3
