import Mathlib.Algebra.Order.BigOperators.Group.List
import Mathlib.Data.List.SplitBy
import OsProjects.VirtualMemory.Malloc3.Serve

/-! # What `merge` computes

The maximal runs of adjacent free blocks are the parts of `List.splitBy` for the relation "both
free"; a block in use is a run of its own.  `merge` makes each run one block
(`coalesce_eq_runs`), whatever the order of the list is, as long as the links of the list stay
among the headers (`merge_coalesces`).  The recursion of `smerge` is no deeper than there are
blocks (`smerge_fuel`). -/

namespace OsProjects.Malloc3

open Prog

variable {L : Set ℕ} {s s' : State} {as bs cs mm run : List Block} {b c : Block} {fuel fuel' : ℕ}

/-! ### Runs of free blocks -/

/-- Both blocks are free. -/
def bothFree (b c : Block) : Bool := b.free && c.free

/-- The maximal runs of adjacent free blocks; a block in use is a run of its own. -/
def runs (bs : List Block) : List (List Block) := bs.splitBy bothFree

/-- The block that a run becomes: it starts where the run does, and its size is the sum of the
sizes and of the headers that are gone. -/
def joined (run : List Block) : Block :=
  ⟨firstAddr run, (run.map Block.size).sum + (run.length - 1) * sizeofMetadata, run.all Block.free⟩

@[simp] theorem joined_singleton (b : Block) : joined [b] = b := by
  simp [joined, firstAddr]

theorem joined_concat (hne : run ≠ []) (hc : c.free = true) :
    joined (run ++ [c]) = (joined run).absorb c := by
  obtain ⟨b, run, rfl⟩ := List.exists_cons_of_ne_nil hne
  simp only [joined, Block.absorb, firstAddr, List.cons_append, List.head?_cons, List.length_cons,
    List.length_append, List.map_cons, List.map_append, List.map_nil, List.sum_cons,
    List.sum_append, List.sum_nil, List.length_nil, List.all_cons, List.all_append, List.all_nil,
    hc, Bool.and_true, Block.mk.injEq, sizeofMetadata, true_and, and_true]
  omega

/-- A run that is merged on the way: one block, or free blocks only. -/
def IsRun (run : List Block) : Prop := (∃ b, run = [b]) ∨ run ≠ [] ∧ ∀ b ∈ run, b.free = true

theorem IsRun.ne_nil (h : IsRun run) : run ≠ [] := by
  obtain ⟨b, rfl⟩ | ⟨h, -⟩ := h
  · exact List.cons_ne_nil b []
  · exact h

theorem chain_of_free (h : ∀ b ∈ run, b.free = true) :
    run.IsChain fun b c => bothFree b c = true := by
  induction run with
  | nil => exact .nil
  | cons b run ih =>
      obtain ⟨hb, h⟩ := List.forall_mem_cons.mp h
      refine List.isChain_cons.mpr ⟨fun c hc => ?_, ih h⟩
      rw [bothFree, hb, h c (List.mem_of_mem_head? hc)]
      rfl

theorem IsRun.chain (h : IsRun run) : run.IsChain fun b c => bothFree b c = true := by
  obtain ⟨b, rfl⟩ | ⟨-, h⟩ := h
  · exact .singleton b
  · exact chain_of_free h

/-- A block that is not merged with the run ends it. -/
theorem IsRun.ends (h : IsRun run) (hc : ¬((joined run).free && c.free) = true) :
    ∀ b ∈ run.getLast?, bothFree b c = false := by
  obtain ⟨b, rfl⟩ | ⟨-, h⟩ := h
  · intro d hd
    obtain rfl : b = d := by simpa using hd
    rw [joined_singleton] at hc
    exact Bool.eq_false_iff.mpr hc
  · intro d hd
    have hall : (joined run).free = true := List.all_eq_true.mpr h
    rw [hall, Bool.true_and] at hc
    rw [bothFree, Bool.eq_false_iff.mpr hc, Bool.and_false]

/-- A run that has been merged and the blocks behind it. -/
theorem coalesceFrom_joined (h : IsRun run) (cs : List Block) :
    coalesceFrom (joined run) cs = (runs (run ++ cs)).map joined := by
  induction cs generalizing run with
  | nil =>
      rw [List.append_nil, runs, List.splitBy_of_isChain h.ne_nil h.chain]
      rfl
  | cons c cs ih =>
      rw [coalesceFrom]
      split
      next hf =>
        rw [Bool.and_eq_true] at hf
        have hrun : IsRun (run ++ [c]) := by
          refine .inr ⟨by simp, fun b hb => ?_⟩
          obtain hb | hb := List.mem_append.mp hb
          · exact List.all_eq_true.mp hf.1 b hb
          · rw [List.mem_singleton.mp hb]
            exact hf.2
        rw [← joined_concat h.ne_nil hf.2, ih hrun, List.append_assoc, List.singleton_append]
      next hf =>
        have hc := ih (.inl ⟨c, rfl⟩ : IsRun [c])
        rw [joined_singleton, List.singleton_append] at hc
        have hsplit : runs (run ++ c :: cs) = [run] ++ runs (c :: cs) := by
          rw [runs, List.splitBy_append_cons cs (h.ends hf), List.splitBy_of_isChain h.ne_nil h.chain]
          rfl
        rw [hc, hsplit]
        rfl

/-- **Coalescing** makes each maximal run one block. -/
theorem coalesce_eq_runs (bs : List Block) : coalesce bs = (runs bs).map joined := by
  cases bs with
  | nil => rfl
  | cons b cs =>
      have h := coalesceFrom_joined (.inl ⟨b, rfl⟩ : IsRun [b]) cs
      rwa [joined_singleton] at h

/-! ### The depth of the recursion -/

/-- `smerge` calls itself no more often than there are blocks: any two bounds that leave a call
for each of them give the same run, whether it returns or not. -/
theorem smerge_fuel (hsh : Shape L s (as ++ b :: cs)) (hf : cs.length < fuel)
    (hf' : cs.length < fuel') :
    (smerge s.sys.brk fuel b.addr).run s = (smerge s.sys.brk fuel' b.addr).run s := by
  induction cs generalizing s as b fuel fuel' with
  | nil =>
      obtain ⟨f, rfl⟩ := Nat.exists_eq_succ_of_ne_zero (Nat.ne_of_gt hf)
      obtain ⟨f', rfl⟩ := Nat.exists_eq_succ_of_ne_zero (Nat.ne_of_gt hf')
      have hlast : b.stop = s.sys.brk := by
        obtain ⟨q, -, -, h⟩ := Tiles.append_iff.mp (hsh.tiled.tiles (by simp))
        exact h
      simp only [smerge, run_ite]
      split
      · rfl
      refine run_bind_congr fun _ t ht => ?_
      obtain rfl := validateCookie_eq_ok ht
      refine run_bind_congr fun _ t ht => ?_
      obtain ⟨-, rfl, rfl⟩ := get_eq_ok.mp ht
      rw [hsh.tiled.next_eq (by simp), hlast, if_pos rfl, if_pos rfl]
  | cons c cs ih =>
      obtain ⟨f, rfl⟩ := Nat.exists_eq_succ_of_ne_zero (Nat.ne_of_gt (Nat.zero_lt_of_lt hf))
      obtain ⟨f', rfl⟩ := Nat.exists_eq_succ_of_ne_zero (Nat.ne_of_gt (Nat.zero_lt_of_lt hf'))
      have hlen : cs.length < f := Nat.lt_of_succ_lt_succ hf
      have hlen' : cs.length < f' := Nat.lt_of_succ_lt_succ hf'
      simp only [smerge, run_ite]
      split
      · rfl
      refine run_bind_congr fun _ t ht => ?_
      obtain rfl := validateCookie_eq_ok ht
      refine run_bind_congr fun _ t ht => ?_
      obtain ⟨-, rfl, rfl⟩ := get_eq_ok.mp ht
      rw [hsh.tiled.next_eq (by simp), ← hsh.tiled.addr_next]
      simp only [run_ite]
      split
      · rfl
      refine run_bind_congr fun _ t ht => ?_
      obtain rfl := validateCookie_eq_ok ht
      refine run_bind_congr fun _ t ht => ?_
      obtain ⟨-, -, rfl⟩ := getFree_eq_ok.mp ht
      refine run_bind_congr fun _ t ht => ?_
      obtain ⟨-, -, rfl⟩ := getFree_eq_ok.mp ht
      simp only [run_ite]
      split
      · have hsh' : Shape L s ((as ++ [b]) ++ c :: cs) := by simpa using hsh
        exact ih hsh' hlen hlen'
      refine run_bind_congr fun _ s₁ h₁ => ?_
      refine run_bind_congr fun h t ht => ?_
      obtain ⟨rfl, rfl⟩ := getHeap_eq_ok.mp ht
      simp only [run_ite]
      obtain ⟨-, hwild⟩ | ⟨-, hwild, hsh₁⟩ := absorb_shape hsh h₁
      · rw [if_pos hwild, if_pos hwild]
      · rw [if_neg hwild, if_neg hwild]
        have hbrk : s₁.sys.brk = s.sys.brk := (absorb_tiled hsh.spread hsh.sub hsh.closed hsh.tiled h₁).1.brk
        rw [← hbrk]
        exact ih (b := b.absorb c) hsh₁ hlen hlen'

/-! ### Exact counters -/

/-- The five counters are exactly what a walk over `bs` counts. -/
structure Matches (h : MemoryList) (bs : List Block) : Prop where
  freeBlocks : h.numFreeBlocks = (bs.filter Block.free).length
  freeBytes : h.numFreeBytes = ((bs.filter Block.free).map Block.size).sum
  blocks : h.numAllocatedBlocks = bs.length
  bytes : h.numAllocatedBytes = (bs.map Block.size).sum
  metaData : h.numMetaDataBytes = sizeofMetadata * bs.length

instance (h : MemoryList) (bs : List Block) : Decidable (Matches h bs) :=
  decidable_of_iff (h.numFreeBlocks = (bs.filter Block.free).length ∧
      h.numFreeBytes = ((bs.filter Block.free).map Block.size).sum ∧
      h.numAllocatedBlocks = bs.length ∧ h.numAllocatedBytes = (bs.map Block.size).sum ∧
      h.numMetaDataBytes = sizeofMetadata * bs.length)
    ⟨fun ⟨h₁, h₂, h₃, h₄, h₅⟩ => ⟨h₁, h₂, h₃, h₄, h₅⟩,
      fun h => ⟨h.freeBlocks, h.freeBytes, h.blocks, h.bytes, h.metaData⟩⟩

theorem counts_eq (bs : List Block) : counts bs = (((bs.filter Block.free).length : ℤ),
    (((bs.filter Block.free).map Block.size).sum : ℤ), (bs.length : ℤ),
    ((bs.map Block.size).sum : ℤ)) := by
  induction bs with
  | nil => rfl
  | cons b bs ih =>
      rw [counts_cons, ih, Block.counts]
      cases hf : b.free with
      | true =>
          simp only [hf, List.filter_cons_of_pos, List.length_cons, List.map_cons, List.sum_cons,
            if_true, Prod.mk_add_mk, Nat.cast_add, Nat.cast_one, Prod.mk.injEq, true_and, and_true]
          exact ⟨add_comm _ _, add_comm _ _⟩
      | false =>
          simp only [hf, List.filter_cons, List.length_cons, List.map_cons, List.sum_cons,
            Prod.mk_add_mk, Nat.cast_add, Nat.cast_one, Prod.mk.injEq, Bool.false_eq_true, if_false,
            zero_add, true_and, and_true]
          exact add_comm _ _

/-- All blocks together, with their headers, fit into user space. -/
def Fits (bs : List Block) : Prop := (bs.map fun b => b.stop - b.addr).sum ≤ userTop

theorem fits_sum (bs : List Block) : (bs.map fun b => b.stop - b.addr).sum =
    (bs.map Block.size).sum + sizeofMetadata * bs.length := by
  induction bs with
  | nil => rfl
  | cons b bs ih =>
      rw [List.map_cons, List.sum_cons, ih, List.map_cons, List.sum_cons, List.length_cons]
      simp only [Block.stop, sizeofMetadata]
      omega

theorem freeBytes_le (bs : List Block) :
    ((bs.filter Block.free).map Block.size).sum ≤ (bs.map Block.size).sum :=
  (List.filter_sublist.map Block.size).sum_le_sum fun _ _ => Nat.zero_le _

/-- Counters that are right up to the width of a `size_t` are exact. -/
theorem matches_iff {h : MemoryList} (hfit : Fits bs) : Matches h bs ↔ Counted h (counts bs) := by
  unfold Fits at hfit
  rw [fits_sum] at hfit
  have h₁ := List.length_filter_le Block.free bs
  have h₂ := freeBytes_le bs
  simp only [sizeofMetadata, userTop] at hfit
  rw [counts_eq]
  constructor
  · rintro ⟨e₁, e₂, e₃, e₄, e₅⟩
    simp only [sizeofMetadata] at e₅
    refine ⟨?_, ?_, ?_, ?_, ?_⟩
    all_goals simp only [sizeofMetadata]; omega
  · rintro ⟨e₁, e₂, e₃, e₄, e₅⟩
    simp only [sizeofMetadata] at e₁ e₂ e₃ e₄ e₅
    exact ⟨by omega, by omega, by omega, by omega, by simp only [sizeofMetadata]; omega⟩

/-- Blocks that lie in user space apart from each other and from the heap: those from `mmap`. -/
structure Outside (s : State) (mm : List Block) : Prop where
  le : ∀ b ∈ mm, b.stop ≤ userTop
  apart : mm.Pairwise fun b c => b.stop ≤ c.addr ∨ c.stop ≤ b.addr
  heap : ∀ b ∈ mm, b.stop ≤ s.heap.firsthead ∨ s.sys.brk ≤ b.addr

theorem Tiled.fits (ht : Tiled s bs) (hm : Outside s mm) : Fits (bs ++ mm) := by
  refine extent.sum_le (n := userTop) ?_ fun b hb => ?_
  · have hbs : bs.Pairwise fun b c => b.stop ≤ c.addr ∨ c.stop ≤ b.addr := by
      by_cases hne : bs = []
      · rw [hne]
        exact .nil
      · exact (ht.tiles hne).pairwise.imp .inl
    refine List.pairwise_append.mpr ⟨hbs, hm.apart, fun b hb c hc => ?_⟩
    have hin := ht.bounds hb
    obtain h | h := hm.heap c hc
    · exact .inr (h.trans hin.1)
    · exact .inl (hin.2.trans h)
  · obtain hb | hb := List.mem_append.mp hb
    · exact (ht.bounds hb).2.trans ht.brk_le
    · exact hm.le b hb

/-! ### `merge` -/

/-- `merge` has made each run of the blocks `bs` one block. -/
structure Coalesced (s s' : State) (bs : List Block) : Prop where
  walk : HeapBlocks s' ((runs bs).map joined)
  region : s'.heap.firsthead = s.heap.firsthead ∧ s'.sys.brk = s.sys.brk
  used : ∀ b ∈ bs, b.free = false → b ∈ (runs bs).map joined ∧ Intact s s' b
  parted : NoAdjacentFree ((runs bs).map joined)
  wilderness : s'.heap.wilderness = lastAddr ((runs bs).map joined)
  counters : ∀ mm, Outside s mm → Matches s.heap (bs ++ mm) →
    Matches s'.heap ((runs bs).map joined ++ mm)
  depth : bs ≠ [] → (smerge s.sys.brk bs.length s.heap.firsthead).run s = .ok ((), s')

theorem length_lt_rounds (ht : Tiled s (b :: cs)) : cs.length < rounds := by
  have h₁ := Extent.Tiles.length_le (ht.tiles (by simp))
  have h₂ := ht.brk_le
  rw [List.length_cons] at h₁
  simp only [userTop, rounds] at *
  omega

/-- **`merge` computes the coalesced heap** if the links of the list stay among the headers. -/
theorem merge_coalesces (hl : Laid s bs) (hC : Closed (addrs bs) s)
    (h : merge.run s = .ok ((), s')) : Coalesced s s' bs := by
  have hsh : Shape (addrs bs) s bs := ⟨hl.tiled.spread, subset_rfl, hC, hl.tiled, hl.wilderness⟩
  have hm := merge_becomes hsh h
  have ht := hm.shape.tiled
  have hfirst := hm.step.firsthead
  have hbrk := hm.step.brk
  have hdepth : bs ≠ [] → (smerge s.sys.brk bs.length s.heap.firsthead).run s = .ok ((), s') := by
    intro hne
    obtain ⟨b, cs, rfl⟩ := List.exists_cons_of_ne_nil hne
    have hsh' : Shape (addrs (b :: cs)) s ([] ++ b :: cs) := hsh
    have hf : s.heap.firsthead = b.addr := hl.tiled.first
    have hlen : cs.length < (b :: cs).length := Nat.lt_succ_self cs.length
    rw [hf, smerge_fuel hsh' hlen (length_lt_rounds hl.tiled)]
    exact merge_cons hsh h
  have hused : ∀ b ∈ bs, b.free = false → b ∈ coalesce bs ∧ Intact s s' b := by
    intro b hb hf
    have hb' := mem_coalesce hf hb
    refine ⟨hb', hm.step.intact (hl.tiled.tiles (List.ne_nil_of_mem hb))
      (ht.tiles (List.ne_nil_of_mem hb')) Set.subset_union_left Set.subset_union_right hb hb'⟩
  have hcounters : ∀ mm, Outside s mm → Matches s.heap (bs ++ mm) →
      Matches s'.heap (coalesce bs ++ mm) := by
    intro mm ho hmatch
    have ho' : Outside s' mm := ⟨ho.le, ho.apart, by rw [hfirst, hbrk]; exact ho.heap⟩
    have hcounted := hm.counts _ ((matches_iff (hl.tiled.fits ho)).mp hmatch)
    refine (matches_iff (ht.fits ho')).mpr ?_
    have e : counts (bs ++ mm) + (counts (coalesce bs) - counts bs) = counts (coalesce bs ++ mm) := by
      rw [counts_append, counts_append]
      abel
    rwa [e] at hcounted
  rw [coalesce_eq_runs] at hused hcounters
  have hwalk := ht.heapBlocks
  have hwild := hm.shape.wilderness
  have hparted := coalesce_noAdjacentFree bs
  rw [coalesce_eq_runs] at hwalk hwild hparted
  exact ⟨hwalk, ⟨hfirst, hbrk⟩, hused, hparted, hwild, hcounters, hdepth⟩

/-- Two free blocks at the end of the heap. -/
def twoFree : M Unit := do
  let _ ← smalloc 100
  let _ ← smalloc 200
  let _ ← smalloc 300
  setFree 65676 true
  setFree 65916 true

/-- Two free blocks become one. -/
theorem merge_coalesces_two : ∃ s s', merge.run s = .ok ((), s') ∧
    Coalesced s s' [⟨65536, 100, false⟩, ⟨65676, 200, true⟩, ⟨65916, 300, true⟩] := by
  obtain ⟨-, s, -, hs⟩ := exists_of_check (p := twoFree) (s := World.start.state)
    (f := fun _ s => decide (Laid s [⟨65536, 100, false⟩, ⟨65676, 200, true⟩, ⟨65916, 300, true⟩] ∧
        CompleteList s [⟨65536, 100, false⟩, ⟨65676, 200, true⟩, ⟨65916, 300, true⟩]) &&
      merge.check s fun _ _ => true) (by decide +kernel)
  obtain ⟨⟨hl, hlist⟩, ⟨⟩, s', hrun, -⟩ := exists_of_and_check hs
  have hlisted := (completeList_iff hl.tiled.headers).mp hlist
  refine ⟨s, s', hrun, merge_coalesces hl (hlisted.closed hl.tiled.nodup fun h₀ => ?_) hrun⟩
  exact hl.tiled.spread.pos 0 h₀ rfl

/-- Two free blocks at the end of the heap, the last of which has a link into the payload of the
first block. -/
def strayLink : M Unit := do
  let _ ← smalloc 100
  let _ ← smalloc 100
  let _ ← smalloc 100
  let _ ← smalloc 100
  setFree 65816 true
  setFree 65956 true
  setHeap fun h => { h with head := 65816 }
  set .next 65816 0
  set .next 65956 65652
  set .prev 65956 65676
  set .cookie 65652 12345

/-- Without a condition on the list, `merge` may write a link into the header of a block in use:
the second block, which has 100 bytes, has 65676 bytes afterwards. -/
theorem merge_follows_stray_link : ∃ s s',
    Laid s [⟨65536, 100, false⟩, ⟨65676, 100, false⟩, ⟨65816, 100, true⟩, ⟨65956, 100, true⟩] ∧
    merge.run s = .ok ((), s') ∧ blockAt s'.sys.mem 65676 = ⟨65676, 65676, false⟩ ∧
    ¬Coalesced s s'
      [⟨65536, 100, false⟩, ⟨65676, 100, false⟩, ⟨65816, 100, true⟩, ⟨65956, 100, true⟩] := by
  obtain ⟨-, s, -, hs⟩ := exists_of_check (p := strayLink) (s := World.start.state)
    (f := fun _ s => decide (Laid s
        [⟨65536, 100, false⟩, ⟨65676, 100, false⟩, ⟨65816, 100, true⟩, ⟨65956, 100, true⟩]) &&
      merge.check s fun _ s' => decide (blockAt s'.sys.mem 65676 = ⟨65676, 65676, false⟩ ∧
        ¬HeapBlocks s' ((runs [⟨65536, 100, false⟩, ⟨65676, 100, false⟩, ⟨65816, 100, true⟩,
          ⟨65956, 100, true⟩]).map joined)))
    (by decide +kernel)
  obtain ⟨hl, ⟨⟩, s', hrun, hs'⟩ := exists_of_and_check hs
  obtain ⟨hX, hwalk⟩ := of_decide_eq_true hs'
  exact ⟨s, s', hl, hrun, hX, fun hc => hwalk hc.walk⟩

end OsProjects.Malloc3
