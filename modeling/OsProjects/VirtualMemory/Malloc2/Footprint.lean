import Mathlib.Algebra.BigOperators.Ring.Finset
import Mathlib.Algebra.Order.BigOperators.Group.Finset
import Mathlib.Data.List.Perm.Subperm
import OsProjects.VirtualMemory.Malloc2.Safety

/-! # How large the heap grows

Blocks are neither split nor merged, so a block serves only requests that are at most as large as
the one it was made for.  A new block of `n` bytes is made only when every block of at least `n`
bytes is in use, and the blocks in use are the live allocations.  Hence there are never more blocks
of one size than there were live allocations at once (`Bounded`), and a client that asks for
finitely many sizes has a heap of bounded size, however long it runs (`footprint_le`). -/

namespace OsProjects.Malloc2

variable {s s' : State} {as bs bs' cs : List Block} {b c : Block} {w : World}
  {live : List Alloc} {brk r size N : ℕ} {S : Finset ℕ}

/-! ### Sums over the sizes -/

/-- A sum over a list in which no number is more often than `N` times. -/
theorem sum_map_le_of_count_le {l : List ℕ} (hS : ∀ x ∈ l, x ∈ S) (hN : ∀ x, l.count x ≤ N)
    (g : ℕ → ℕ) : (l.map g).sum ≤ N * ∑ x ∈ S, g x := by
  calc (l.map g).sum = ∑ x ∈ l.toFinset, l.count x * g x := Finset.sum_list_map_count l g
    _ ≤ ∑ x ∈ l.toFinset, N * g x := Finset.sum_le_sum fun x _ => Nat.mul_le_mul_right _ (hN x)
    _ ≤ ∑ x ∈ S, N * g x := by
      refine Finset.sum_le_sum_of_subset fun x hx => ?_
      exact hS x (List.mem_toFinset.mp hx)
    _ = N * ∑ x ∈ S, g x := (Finset.mul_sum S g N).symm

/-! ### Blocks in use -/

/-- The block is in use. -/
def Block.used (b : Block) : Bool := !b.free

/-- Each block in use is that of a live allocation. -/
def Owned (bs : List Block) (live : List Alloc) : Prop :=
  ∀ b ∈ bs, b.free = false → ∃ a ∈ live, a.ptr = b.payload

/-- There are no more blocks in use than live allocations. -/
theorem Owned.countP_le (h : Owned bs live) (hd : (bs.map Block.addr).Nodup) :
    bs.countP Block.used ≤ live.length := by
  have hnodup : ((bs.filter Block.used).map Block.payload).Nodup := by
    refine List.Nodup.map_on (fun b hb c hc he => ?_) (hd.of_map _ |>.filter _)
    exact List.inj_on_of_nodup_map hd (List.mem_of_mem_filter hb) (List.mem_of_mem_filter hc)
      (payload_inj he)
  have hsub : (bs.filter Block.used).map Block.payload ⊆ live.map Alloc.ptr := by
    intro p hp
    obtain ⟨b, hb, rfl⟩ := List.mem_map.mp hp
    obtain ⟨hmem, hused⟩ := List.mem_filter.mp hb
    unfold Block.used at hused
    obtain ⟨a, ha, hap⟩ := h b hmem (by simpa using hused)
    exact List.mem_map.mpr ⟨a, ha, hap⟩
  have hle := (List.subperm_of_subset hnodup hsub).length_le
  rwa [List.length_map, List.length_map, ← List.countP_eq_length_filter] at hle

/-- After a request the blocks in use are the old ones and the one that serves it. -/
theorem Owned.serve (h : Owned bs live) (hs : Serves size brk bs r bs') (hb : b ∈ bs')
    (hf : b.free = false) : b.payload = r ∨ ∃ a ∈ live, a.ptr = b.payload := by
  cases hs with
  | refused => exact .inr (h b hb hf)
  | @reused as cs d =>
      rw [List.mem_append, List.mem_cons] at hb
      obtain hb | rfl | hb := hb
      · exact .inr (h b (by simp [hb]) hf)
      · exact .inl rfl
      · exact .inr (h b (by simp [hb]) hf)
  | fresh =>
      rw [List.mem_append, List.mem_singleton] at hb
      obtain hb | rfl := hb
      · exact .inr (h b hb hf)
      · exact .inl rfl

/-- A block is in use and stands beside one that was freed. -/
theorem payload_ne_of_used (hd : ((as ++ c :: cs).map Block.addr).Nodup)
    (hb : b ∈ as ++ { c with free := true } :: cs) (hf : b.free = false) :
    b ∈ as ++ c :: cs ∧ b.payload ≠ c.payload := by
  have hmem : b ∈ as ++ cs := by
    rw [List.mem_append, List.mem_cons] at hb
    obtain hb | rfl | hb := hb
    · exact List.mem_append_left _ hb
    · cases hf
    · exact List.mem_append_right _ hb
  have hmem' : b ∈ as ++ c :: cs := by
    rw [List.mem_append] at hmem
    obtain hmem | hmem := hmem <;> simp [hmem]
  refine ⟨hmem', fun he => ?_⟩
  obtain rfl := List.inj_on_of_nodup_map hd hmem' (by simp) (payload_inj he)
  have hn := hd.of_map
  rw [List.nodup_middle, List.nodup_cons] at hn
  exact hn.1 hmem

theorem mem_filter_ptr {a : Alloc} {p : ℕ} (ha : a ∈ live) (hp : a.ptr ≠ p) :
    a ∈ live.filter fun a => a.ptr != p :=
  List.mem_filter.mpr ⟨ha, by simpa using hp⟩

/-- **A call keeps every block in use live.** -/
theorem Owned.call {c : Call} (h : Owned bs live) (hd' : (bs'.map Block.addr).Nodup)
    (he : Effect brk bs c r bs') : Owned bs' (c.live r live) := by
  -- a request without a pointer to hand back
  have hserve : ∀ {n m : ℕ}, Serves n brk bs r bs' →
      Owned bs' (if r = 0 then live else ⟨r, m⟩ :: live.filter fun a => a.ptr != 0) := by
    intro n m hs b hb hf
    split
    next hr =>
      refine (h.serve hs hb hf).resolve_left ?_
      rw [hr]
      exact b.payload_ne_zero
    next hr =>
      obtain hp | ⟨a, ha, hap⟩ := h.serve hs hb hf
      · exact ⟨⟨r, m⟩, by simp, hp.symm⟩
      · refine ⟨a, List.mem_cons_of_mem _ (mem_filter_ptr ha ?_), hap⟩
        rw [hap]
        exact b.payload_ne_zero
  cases he with
  | smalloc hs | scalloc hs | reallocNull hs => exact hserve hs
  | freeNull =>
      intro b hb hf
      obtain ⟨a, ha, hap⟩ := h b hb hf
      exact ⟨a, mem_filter_ptr ha (by rw [hap]; exact b.payload_ne_zero), hap⟩
  | @sfree as cs d hbs =>
      subst hbs
      intro b hb hf
      have hd : ((as ++ d :: cs).map Block.addr).Nodup := by simpa using hd'
      obtain ⟨hmem, hne⟩ := payload_ne_of_used hd hb hf
      obtain ⟨a, ha, hap⟩ := h b hmem hf
      exact ⟨a, mem_filter_ptr ha (by rwa [hap]), hap⟩
  | @srealloc size r d bs' hd hre =>
      rw [Call.live_srealloc]
      cases hre with
      | kept hle =>
          rw [if_neg d.payload_ne_zero]
          intro b hb hf
          by_cases hbd : b.payload = d.payload
          · exact ⟨_, List.mem_cons_self, hbd.symm⟩
          · obtain ⟨a, ha, hap⟩ := h b hb hf
            exact ⟨a, List.mem_cons_of_mem _ (mem_filter_ptr ha (by rwa [hap])), hap⟩
      | refused => exact h
      | @moved as cs e _ hlt hr hs haddr =>
          rw [if_neg hr]
          intro b hb hf
          have hd₁ : ((as ++ e :: cs).map Block.addr).Nodup := by simpa using hd'
          obtain ⟨hmem, hne⟩ := payload_ne_of_used hd₁ hb hf
          have hed : e.payload = d.payload := by
            unfold Block.payload
            rw [haddr]
          rw [hed] at hne
          obtain hp | ⟨a, ha, hap⟩ := h.serve hs hmem hf
          · exact ⟨_, List.mem_cons_self, hp.symm⟩
          · exact ⟨a, List.mem_cons_of_mem _ (mem_filter_ptr ha (by rwa [hap])), hap⟩

/-! ### Blocks of one size -/

/-- The sizes of the blocks are in `S`, and no size is more often than `N` times. -/
structure Bounded (N : ℕ) (S : Finset ℕ) (bs : List Block) : Prop where
  mem : ∀ b ∈ bs, b.size ∈ S
  count : ∀ k, (bs.map Block.size).count k ≤ N

namespace Bounded

theorem of_sizes (h : Bounded N S bs) (hs : bs'.map Block.size = bs.map Block.size) :
    Bounded N S bs' where
  mem b hb := by
    have hmem : b.size ∈ bs.map Block.size := hs ▸ List.mem_map_of_mem hb
    obtain ⟨c, hc, he⟩ := List.mem_map.mp hmem
    exact he ▸ h.mem c hc
  count k := by
    rw [hs]
    exact h.count k

theorem setFree (h : Bounded N S (as ++ b :: cs)) (free : Bool) :
    Bounded N S (as ++ { b with free := free } :: cs) := h.of_sizes (by simp)

/-- If no block fits, the blocks of the size that is asked for are in use. -/
theorem count_le_used (h : ∀ a ∈ bs, a.fits size = false) :
    (bs.map Block.size).count size ≤ bs.countP Block.used := by
  rw [List.count, List.countP_map]
  refine List.countP_mono_left fun b hb hsize => ?_
  have hfit := h b hb
  unfold Block.fits at hfit
  simp only [Function.comp_apply, beq_iff_eq] at hsize
  unfold Block.used
  simpa [hsize] using hfit

/-- **A request** adds a block of its size only when those that there are are in use. -/
theorem serve (h : Bounded N S bs) (hs : Serves size brk bs r bs')
    (hfew : 0 < size → size ≤ sizeLimit → bs.countP Block.used < N ∧ size ∈ S) :
    Bounded N S bs' := by
  cases hs with
  | refused => exact h
  | reused => exact h.setFree false
  | fresh hsize hfits =>
      obtain ⟨hlt, hmem⟩ := hfew hsize.1 hsize.2
      refine ⟨fun b hb => ?_, fun k => ?_⟩
      · obtain hb | hb := List.mem_append.mp hb
        · exact h.mem b hb
        · rw [List.mem_singleton.mp hb]
          exact hmem
      · rw [List.map_append, List.count_append, List.map_singleton, List.count_singleton]
        by_cases hk : size = k
        · subst hk
          have hle := count_le_used hfits
          simp only [beq_self_eq_true, if_true]
          omega
        · rw [if_neg (by simpa using hk)]
          exact h.count k

/-- The blocks and their headers. -/
theorem sum_le (h : Bounded N S bs) :
    (bs.map Block.size).sum + bs.length * sizeofMetadata ≤ N * ∑ k ∈ S, (k + sizeofMetadata) := by
  have hmem : ∀ x ∈ bs.map Block.size, x ∈ S := by
    intro x hx
    obtain ⟨b, hb, rfl⟩ := List.mem_map.mp hx
    exact h.mem b hb
  have hle := sum_map_le_of_count_le hmem h.count (· + sizeofMetadata)
  rw [List.sum_map_add, List.map_id', List.map_const', List.sum_replicate, List.length_map] at hle
  exact hle

end Bounded

/-! ### Runs -/

/-- The bytes that a call asks `smalloc` for, if it does. -/
def Call.request : Call → Option ℕ
  | smalloc size => some size
  | scalloc num size => some (num * size % 2 ^ 64)
  | sfree _ => none
  | srealloc _ size => some size

/-- Whenever the client asks for memory, it has fewer than `N` live allocations, and the size, if
it is one that can be served, is one of `S`. -/
def Event.Within (N : ℕ) (S : Finset ℕ) (w : World) : Event → Prop
  | call c => ∀ n ∈ c.request, 0 < n → n ≤ sizeLimit → w.live.length < N ∧ n ∈ S
  | store .. => True

theorem Bounded.call {c : Call} (h : Bounded N S bs) (ho : Owned bs w.live)
    (hd : (bs.map Block.addr).Nodup) (hw : Event.Within N S w (.call c))
    (he : Effect brk bs c r bs') : Bounded N S bs' := by
  have hfew : ∀ n ∈ c.request, 0 < n → n ≤ sizeLimit → bs.countP Block.used < N ∧ n ∈ S := by
    intro n hn hpos hle
    exact (hw n hn hpos hle).imp_left (ho.countP_le hd).trans_lt
  cases he with
  | smalloc hs | scalloc hs | reallocNull hs => exact h.serve hs (hfew _ rfl)
  | freeNull => exact h
  | sfree hbs =>
      subst hbs
      exact h.setFree true
  | srealloc _ hre =>
      cases hre with
      | kept | refused => exact h
      | moved _ _ hs => exact (h.serve hs (hfew _ rfl)).setFree true

theorem Call.live_subset (c : Call) (r : ℕ) (live : List Alloc) : c.live r live ⊆ c.returned r live := by
  have hrest : ∀ (p n : ℕ), (if r = 0 then live else ⟨r, n⟩ :: live.filter fun a => a.ptr != p) ⊆
      if r = 0 then live else ⟨r, n⟩ :: live := by
    intro p n
    split
    · exact List.Subset.refl _
    · exact List.cons_subset_cons _ (List.filter_subset_self _)
  cases c with
  | smalloc | scalloc | srealloc => exact hrest _ _
  | sfree p =>
      refine List.Subset.trans (List.filter_subset_self _) ?_
      unfold Call.returned
      split
      · exact List.Subset.refl _
      · exact List.subset_cons_self _ _

/-- What a run keeps in which the client stays within `N` allocations and the sizes `S`. -/
theorem run_bounded (h : (allocator World.live).Run (Event.Within N S) w) :
    ∃ bs, Heap w.state bs ∧ Known bs w.live ∧ Owned bs w.live ∧ Bounded N S bs := by
  refine h.invariant
    (I := fun w => ∃ bs, Heap w.state bs ∧ Known bs w.live ∧ Owned bs w.live ∧ Bounded N S bs)
    (fun w h₀ => ⟨[], .init h₀, by simp [Known, h₀.live], by simp [Owned], by simp, by simp⟩) ?_
  rintro w e w' ⟨bs, hheap, hknown, howned, hbounded⟩ hwithin hs
  cases hs with
  | @call c r s' hlegal hrun =>
      have hp : c.ptr = 0 ∨ ∃ b ∈ bs, b.payload = c.ptr := by
        refine hlegal.1.imp_right ?_
        rintro ⟨a, ha, hap⟩
        obtain ⟨b, hb, hbp, -⟩ := hknown a ha
        exact ⟨b, hb, hbp.trans hap⟩
      obtain ⟨r', s'', bs', hrun', heff, hheap'⟩ := hheap.call_run c hp
      rw [hrun] at hrun'
      cases hrun'
      exact ⟨bs', hheap', fun a ha => hknown.call heff a (c.live_subset r w.live ha),
        howned.call hheap'.shape.tiles.nodup_addr heff,
        hbounded.call howned hheap.shape.tiles.nodup_addr hwithin heff⟩
  | @store a x v ha h₁ h₂ =>
      obtain ⟨b, hb, hp, hle⟩ := hknown a ha
      exact ⟨bs, hheap.store hb hp hle h₁ h₂, hknown, howned, hbounded⟩

/-- **The heap is bounded by what the client uses at once.**  In a run in which the client has fewer
than `N` live allocations whenever it asks for memory, and asks for the sizes `S` only, the list
never has more than `N` blocks of one size, and the heap never more than `N` blocks of each size
of `S`, however many calls there are. -/
theorem footprint_le (h : (allocator World.live).Run (Event.Within N S) w) :
    (∃ bs, ListBlocks w.state bs ∧ ∀ k, (bs.map Block.size).count k ≤ N) ∧
      w.state.sys.brk ≤ w.state.sys.base + N * ∑ k ∈ S, (k + sizeofMetadata) := by
  obtain ⟨bs, hheap, -, -, hbounded⟩ := run_bounded h
  refine ⟨⟨bs, hheap.chain.1, hbounded.count⟩, ?_⟩
  have hsum := sum_le hheap.shape.tiles
  have hle := hbounded.sum_le
  omega

/-- Two allocations of one size, and two of another one that the blocks of the first are too small
for: the bound is reached. -/
theorem footprint_le_two_sizes :
    ∃ w : World, w.state.sys.brk = w.state.sys.base + 428 ∧
      w.state.sys.brk ≤ w.state.sys.base + 2 * ∑ k ∈ {50, 100}, (k + sizeofMetadata) ∧
      2 * ∑ k ∈ {50, 100}, (k + sizeofMetadata) = 428 := by
  let P : World → Call → Bool := fun w c => c.request.all fun n =>
    decide (w.live.length < 2) && decide (n ∈ ({50, 100} : Finset ℕ))
  have hPQ : ∀ w c, P w c = true → Event.Within 2 {50, 100} w (.call c) := by
    intro w c h n hn _ _
    have := (Option.all_eq_true _ _).mp h n hn
    simpa using this
  obtain ⟨w, hw, hbrk⟩ := World.exists_of_execIf World.live hPQ [.smalloc 50, .smalloc 50,
    .sfree 65568, .sfree 65650, .smalloc 100, .smalloc 100]
    (fun w => w.state.sys.brk == w.state.sys.base + 428) (by decide +kernel)
  exact ⟨w, by simpa using hbrk, (footprint_le hw).2, by decide⟩

end OsProjects.Malloc2
