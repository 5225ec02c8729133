import OsProjects.VirtualMemory.Malloc3.Coalesce
import OsProjects.VirtualMemory.Malloc3.Growth

/-! # What `split` does to the walk

`split` serves a free block that is handed out and a block in use that shrinks.  On a heap whose
links stay among the headers it is exact (`split_exact`), whatever the list has lost: the `int`
arithmetic of its test is that of natural numbers for blocks of less than `2 ^ 31` bytes. -/

namespace OsProjects.Malloc3

open Prog

variable {s s' : State} {as cs mm : List Block} {b c : Block} {n : ℕ}

/-- The blocks that take the place of `b`, in use, if it is to be cut to `n` bytes and the rest
must have a header and `SPLIT_THRESHOLD` bytes. -/
def cut (b : Block) (n : ℕ) : List Block :=
  if b.size < n + sizeofMetadata + splitThreshold then [⟨b.addr, b.size, false⟩]
  else [⟨b.addr, n, false⟩,
    ⟨b.addr + n + sizeofMetadata, b.size - n - sizeofMetadata, true⟩]

/-- The test of `split` without wrapping. -/
theorem canSplit_eq (hn : n ≤ b.size) (hb : b.size < 2 ^ 31) :
    canSplit b.size n = decide (n + sizeofMetadata + splitThreshold ≤ b.size) := by
  rw [Bool.eq_iff_iff, canSplit_iff, decide_eq_true_iff]
  simp only [toInt, sizeofMetadata, splitThreshold]
  rw [Int.bmod_eq_of_le (by omega) (by omega)]
  omega

theorem splitBlock_eq_cut (hn : n ≤ b.size) (hb : b.size < 2 ^ 31) : splitBlock b n = cut b n := by
  rw [splitBlock, cut, canSplit_eq hn hb]
  by_cases h : n + sizeofMetadata + splitThreshold ≤ b.size
  · rw [if_pos (decide_eq_true h), if_neg (Nat.not_lt.mpr h)]
  · rw [if_neg (by simpa using h), if_pos (Nat.lt_of_not_le h)]

/-- The rest is a free block that is large enough. -/
theorem cut_rest : ∀ c ∈ (cut b n).tail, c.free = true ∧ splitThreshold ≤ c.size := by
  unfold cut
  split
  next => simp
  next h =>
    simp only [List.tail_cons, List.forall_mem_singleton, true_and]
    omega

/-- `split` has cut the block `b` of the blocks `as ++ b :: cs` to `n` bytes. -/
structure Cut (s s' : State) (as : List Block) (b : Block) (cs : List Block) (n : ℕ) : Prop where
  walk : HeapBlocks s' (as ++ (cut b n ++ cs))
  region : s'.heap.firsthead = s.heap.firsthead ∧ s'.sys.brk = s.sys.brk
  rest : ∀ c ∈ (cut b n).tail, c.free = true ∧ splitThreshold ≤ c.size
  others : ∀ c ∈ as ++ cs, Intact s s' c
  wilderness : s.heap.wilderness = lastAddr (as ++ b :: cs) →
    s'.heap.wilderness = lastAddr (as ++ (cut b n ++ cs))
  counters : ∀ mm, Outside s mm → Matches s.heap (as ++ b :: cs ++ mm) →
    Matches s'.heap (as ++ (cut b n ++ cs) ++ mm)

/-- **`split` is exact** if the links of the list stay among the headers. -/
theorem split_exact (ht : Tiled s (as ++ b :: cs)) (hC : Closed (addrs (as ++ b :: cs)) s)
    (hn : n ≤ b.size) (hb : b.size < 2 ^ 31) (h : (split b.addr n).run s = .ok ((), s')) :
    Cut s s' as b cs n := by
  have hbm : b ∈ as ++ b :: cs := by simp
  obtain ⟨hst, -, ht', hwild, hcnt⟩ := split_tiled ht (.inl hn) hC (mem_addrs hbm)
    (ht.split_spread (.inl hn)) Set.subset_union_left subset_rfl h
  rw [splitBlock_eq_cut hn hb] at hst ht' hwild hcnt
  have hne : as ++ (cut b n ++ cs) ≠ [] := by
    unfold cut
    split <;> simp
  refine ⟨ht'.heapBlocks, ⟨hst.firsthead, hst.brk⟩, cut_rest, fun c hc => ?_, hwild,
    fun mm ho hm => ?_⟩
  · have hc₁ : c ∈ as ++ b :: cs := by
      obtain hc | hc := List.mem_append.mp hc <;> simp [hc]
    have hc₂ : c ∈ as ++ (cut b n ++ cs) := by
      obtain hc | hc := List.mem_append.mp hc <;> simp [hc]
    have hcut : addrs (cut b n) ⊆ addrs (as ++ (cut b n ++ cs)) := by
      rw [addrs_append, addrs_append]
      exact Set.subset_union_left.trans Set.subset_union_right
    exact hst.intact (ht.tiles (by simp)) (ht'.tiles hne)
      (Set.union_subset_union_right _ hcut) (hcut.trans Set.subset_union_right) hc₁ hc₂
  · have ho' : Outside s' mm := ⟨ho.le, ho.apart, by rw [hst.firsthead, hst.brk]; exact ho.heap⟩
    have hcounted := hcnt _ ((matches_iff (ht.fits ho)).mp hm)
    refine (matches_iff (ht'.fits ho')).mpr ?_
    have e : counts (as ++ b :: cs ++ mm) + (counts (as ++ (cut b n ++ cs)) -
        counts (as ++ b :: cs)) = counts (as ++ (cut b n ++ cs) ++ mm) := by
      rw [counts_append _ mm, counts_append _ mm]
      abel
    rwa [e] at hcounted

/-- A block of 400 bytes at the end of the heap. -/
def largeLast : M Unit := do
  let _ ← smalloc 100
  let _ ← smalloc 100
  let _ ← smalloc 400

/-- The last block is cut to 100 bytes. -/
theorem split_exact_last : ∃ s s', (split 65816 100).run s = .ok ((), s') ∧
    Cut s s' [⟨65536, 100, false⟩, ⟨65676, 100, false⟩] ⟨65816, 400, false⟩ [] 100 := by
  obtain ⟨-, s, -, hs⟩ := exists_of_check (p := largeLast) (s := World.start.state)
    (f := fun _ s => decide (Laid s [⟨65536, 100, false⟩, ⟨65676, 100, false⟩, ⟨65816, 400, false⟩] ∧
        CompleteList s [⟨65536, 100, false⟩, ⟨65676, 100, false⟩, ⟨65816, 400, false⟩]) &&
      (split 65816 100).check s fun _ _ => true) (by decide +kernel)
  obtain ⟨⟨hl, hlist⟩, ⟨⟩, s', hrun, -⟩ := exists_of_and_check hs
  have hlisted := (completeList_iff hl.tiled.headers).mp hlist
  have hC := hlisted.closed hl.tiled.nodup fun h₀ => hl.tiled.spread.pos 0 h₀ rfl
  have ht : Tiled s ([⟨65536, 100, false⟩, ⟨65676, 100, false⟩] ++ [⟨65816, 400, false⟩]) :=
    hl.tiled
  exact ⟨s, s', hrun, split_exact ht hC (by decide) (by decide) hrun⟩

/-- The last block has a link into the payload of the first block. -/
def strayPrev : M Unit := do
  largeLast
  setHeap fun h => { h with head := 65536 }
  set .next 65536 0
  set .next 65816 0
  set .prev 65816 65660
  set .cookie 65660 12345

/-- Without a condition on the list, `split` may write a link into the header of another block:
the second block, which has 100 bytes, has none afterwards. -/
theorem split_follows_stray_link : ∃ s s',
    Laid s [⟨65536, 100, false⟩, ⟨65676, 100, false⟩, ⟨65816, 400, false⟩] ∧
    Matches s.heap [⟨65536, 100, false⟩, ⟨65676, 100, false⟩, ⟨65816, 400, false⟩] ∧
    (split 65816 100).run s = .ok ((), s') ∧ blockAt s'.sys.mem 65676 = ⟨65676, 0, false⟩ ∧
    ¬Cut s s' [⟨65536, 100, false⟩, ⟨65676, 100, false⟩] ⟨65816, 400, false⟩ [] 100 := by
  obtain ⟨-, s, -, hs⟩ := exists_of_check (p := strayPrev) (s := World.start.state)
    (f := fun _ s => decide (
        Laid s [⟨65536, 100, false⟩, ⟨65676, 100, false⟩, ⟨65816, 400, false⟩] ∧
        Matches s.heap [⟨65536, 100, false⟩, ⟨65676, 100, false⟩, ⟨65816, 400, false⟩]) &&
      (split 65816 100).check s fun _ s' => decide (blockAt s'.sys.mem 65676 = ⟨65676, 0, false⟩ ∧
        ¬HeapBlocks s' ([⟨65536, 100, false⟩, ⟨65676, 100, false⟩] ++
          (cut ⟨65816, 400, false⟩ 100 ++ [])))) (by decide +kernel)
  obtain ⟨⟨hl, hm⟩, ⟨⟩, s', hrun, hs'⟩ := exists_of_and_check hs
  obtain ⟨hX, hwalk⟩ := of_decide_eq_true hs'
  exact ⟨s, s', hl, hm, hrun, hX, fun hc => hwalk hc.walk⟩

end OsProjects.Malloc3
