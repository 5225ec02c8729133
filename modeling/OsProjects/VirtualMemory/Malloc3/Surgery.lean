import OsProjects.VirtualMemory.Malloc3.Ties

/-! # List surgery

`HeapListRemove` and `HeapListInsert` on any well-linked list of sound headers: the blocks need
not tile the heap, and those of one size may stand in any order.  `HeapListRemove` takes out any
block.  `HeapListInsert` keeps the order of the sizes wherever the assertion that the source has
commented out holds (`HeadAsserted`). -/

namespace OsProjects.Malloc3

open Prog

variable {s s' : State} {order : List Block} {b new : Block}

/-- The chain from `Heap.head` has the blocks `order`, and it is linked backwards as well; the
head has no predecessor. -/
structure WellLinked (s : State) (order : List Block) : Prop where
  blocks : ListBlocks s order
  back : BackLinks s.sys.mem 0 order

/-- The headers of the blocks `bs` are mapped, have the right cookie and do not overlap, and they
describe `bs`; `NULL` is not mapped. -/
structure SoundHeaders (s : State) (bs : List Block) : Prop where
  headers : Headers s.sys.mem bs
  spread : Spread (addrs bs)
  ready : Ready (addrs bs) s
  null : s.sys.mem.page 0 = false

theorem SoundHeaders.linkStep {bs : List Block} (h : SoundHeaders s bs)
    (hs : LinkStep (addrs bs) s s') : SoundHeaders s' bs where
  headers c hc := by rw [hs.blockAt_eq h.spread (mem_addrs hc), h.headers c hc]
  spread := h.spread
  ready := h.ready.of_linkStep h.spread hs
  null := by rw [hs.page]; exact h.null

/-- Where the loop of `HeapListInsert` runs to the last block, since no block and its successor
have the new size between them, and the last block is larger than `new`, it is the head: the
assertion `ptr == Heap.head`. -/
def HeadAsserted (order : List Block) (new : Block) : Prop :=
  (order.IsChain fun b c => ¬(b.size ≤ new.size ∧ new.size < c.size)) →
    ∀ ptr ∈ order.getLast?, new.size < ptr.size → order.head? = some ptr

/-- On a sorted list the assertion leaves room for the new block. -/
theorem HeadAsserted.insertOk (h : HeadAsserted order new) (hd : order.Nodup) :
    insertOk order new.size := by
  by_cases hx : ∃ b ∈ order, b.size ≤ new.size
  · exact .inr hx
  have hlarge : ∀ b ∈ order, new.size < b.size := fun b hb =>
    Nat.lt_of_not_le fun hle => hx ⟨b, hb, hle⟩
  cases order with
  | nil => exact .inl (Nat.zero_le 1)
  | cons c l =>
      -- no block is small enough for the loop, so it runs to the last one
      have hchain : (c :: l).IsChain fun b c => ¬(b.size ≤ new.size ∧ new.size < c.size) :=
        List.Pairwise.isChain (List.pairwise_of_forall_mem_list fun b hb _ _ hbc =>
          absurd hbc.1 (Nat.not_le.mpr (hlarge b hb)))
      have hne : c :: l ≠ [] := List.cons_ne_nil c l
      have hlast := h hchain ((c :: l).getLast hne) (List.getLast?_eq_some_getLast hne)
        (hlarge _ (List.getLast_mem hne))
      have hc : c = (c :: l).getLast hne := Option.some.inj hlast
      cases l with
      | nil => exact .inl le_rfl
      | cons d l =>
          rw [List.getLast_cons (List.cons_ne_nil d l)] at hc
          exact absurd (hc ▸ List.getLast_mem _) (List.nodup_cons.mp hd).1

/-- **`HeapListRemove`** returns and leaves the other blocks in their order. -/
theorem heapListRemove_wellLinked (h : WellLinked s order) (hs : SoundHeaders s order)
    (hb : b ∈ order) : ∃ s', (heapListRemove b.addr).run s = .ok ((), s') ∧
      WellLinked s' (order.erase b) ∧ SoundHeaders s' order := by
  obtain ⟨hh, hL, hF⟩ := order_iff.mp ⟨h.blocks, h.back⟩
  have hd := hL.nodup
  obtain ⟨as, cs, rfl⟩ := List.append_of_mem hb
  have hmem : ∀ p ∈ (as ++ b :: cs).map Block.addr, p ∈ addrs (as ++ b :: cs) := by
    intro p hp
    obtain ⟨c, hc, rfl⟩ := List.mem_map.mp hp
    exact mem_addrs hc
  rw [List.map_append, List.map_cons] at hL hF hd hmem
  obtain ⟨⟨⟨⟩, s'⟩, hrun⟩ := heapListRemove_returns hs.spread hs.ready hmem hd hL hF
  obtain ⟨hstep, hL', hF'⟩ := heapListRemove_linked hs.spread hs.null hmem hd hL hF hrun
  have hs' := hs.linkStep hstep
  have herase : (as ++ b :: cs).erase b = as ++ cs := by
    rw [List.erase_append_right, List.erase_cons_head]
    intro hba
    exact (List.nodup_append.mp hd).2.2 _ (List.mem_map_of_mem hba) _ List.mem_cons_self rfl
  rw [← List.map_append] at hL' hF'
  have hh' : Headers s'.sys.mem (as ++ cs) := fun c hc => hs'.headers c (by
    obtain hc | hc := List.mem_append.mp hc <;> simp [hc])
  obtain ⟨hblocks, hback⟩ := order_iff.mpr ⟨hh', hL', hF'⟩
  rw [herase]
  exact ⟨s', hrun, ⟨hblocks, hback⟩, hs'⟩

/-- **`HeapListInsert`** returns and leaves the old blocks and the new one in the order of their
sizes. -/
theorem heapListInsert_wellLinked (h : WellLinked s order)
    (hsort : order.Pairwise fun b c => b.size ≤ c.size) (hs : SoundHeaders s (new :: order))
    (hnew : new.addr ∉ order.map Block.addr) (hassert : HeadAsserted order new) :
    ∃ s' order', (heapListInsert new.addr).run s = .ok ((), s') ∧ WellLinked s' order' ∧
      (order'.Pairwise fun b c => b.size ≤ c.size) ∧ order'.Perm (new :: order) ∧
      SoundHeaders s' (new :: order) := by
  obtain ⟨hh, hL, hF⟩ := order_iff.mp ⟨h.blocks, h.back⟩
  have hd := hL.nodup
  have hx : new.addr ∈ addrs (new :: order) := mem_addrs List.mem_cons_self
  have hmem : ∀ p ∈ order.map Block.addr, p ∈ addrs (new :: order) := by
    intro p hp
    obtain ⟨c, hc, rfl⟩ := List.mem_map.mp hp
    exact mem_addrs (List.mem_cons_of_mem new hc)
  have hsize : ∀ c ∈ new :: order, getField s.sys.mem .size c.addr = c.size := fun c hc =>
    size_of_blockAt (hs.headers c hc)
  have hsort' : (order.map Block.addr).Pairwise fun p q =>
      getField s.sys.mem .size p ≤ getField s.sys.mem .size q := by
    refine List.pairwise_map.mpr (hsort.imp_of_mem fun {c d} hc hd hcd => ?_)
    rwa [hsize c (List.mem_cons_of_mem new hc), hsize d (List.mem_cons_of_mem new hd)]
  have hfits : (order.map Block.addr).length ≤ 1 ∨ ∃ p ∈ order.map Block.addr,
      getField s.sys.mem .size p ≤ getField s.sys.mem .size new.addr := by
    rw [List.length_map]
    refine (hassert.insertOk hd.of_map).imp id fun ⟨c, hc, hle⟩ => ?_
    refine ⟨c.addr, List.mem_map_of_mem hc, ?_⟩
    rwa [hsize c (List.mem_cons_of_mem new hc), hsize new List.mem_cons_self]
  obtain ⟨⟨⟨⟩, s'⟩, hrun⟩ := heapListInsert_returns hs.spread hs.ready hx hmem hd hL
  obtain ⟨hstep, hL', hF'⟩ := heapListInsert_linked hs.spread hx hmem hd hnew hL hF hrun
  obtain ⟨hperm, hsorted⟩ := listInsert_eq hsort' hfits
  generalize listInsert (getField s.sys.mem .size) new.addr (order.map Block.addr) = l at *
  have hsub : ∀ p ∈ l, p ∈ addrs (new :: order) := fun p hpl =>
    (List.mem_cons.mp (hperm.mem_iff.mp hpl)).elim (fun e => e ▸ hx) (hmem p)
  obtain ⟨-, hblocks, hback⟩ := map_blockAt_linked hs.spread hstep hsub hL' hF'
  refine ⟨s', l.map (blockAt s.sys.mem), hrun, ⟨hblocks, hback⟩, ?_, ?_, hs.linkStep hstep⟩
  · exact List.pairwise_map.mpr hsorted
  · have := hperm.map (blockAt s.sys.mem)
    rwa [← List.map_cons, map_blockAt hs.headers] at this

/-- **List surgery.**  On a well-linked list `HeapListRemove` takes out any block; if the list is
sorted by size, `HeapListInsert` adds any new block for which the assertion holds. -/
theorem heapList_surgery (h : WellLinked s order) :
    (SoundHeaders s order → ∀ b ∈ order, ∃ s', (heapListRemove b.addr).run s = .ok ((), s') ∧
      WellLinked s' (order.erase b)) ∧
    ((order.Pairwise fun b c => b.size ≤ c.size) → ∀ new : Block, SoundHeaders s (new :: order) →
      new.addr ∉ order.map Block.addr → HeadAsserted order new →
      ∃ s' order', (heapListInsert new.addr).run s = .ok ((), s') ∧ WellLinked s' order' ∧
        (order'.Pairwise fun b c => b.size ≤ c.size) ∧ order'.Perm (new :: order)) := by
  constructor
  · intro hs b hb
    obtain ⟨s', hrun, hl, -⟩ := heapListRemove_wellLinked h hs hb
    exact ⟨s', hrun, hl⟩
  · intro hsort new hs hnew hassert
    obtain ⟨s', order', hrun, hl, hsort', hp, -⟩ :=
      heapListInsert_wellLinked h hsort hs hnew hassert
    exact ⟨s', order', hrun, hl, hsort', hp⟩

/-! ### Both operations -/

instance (s : State) (order : List Block) : Decidable (WellLinked s order) :=
  decidable_of_iff (ListBlocks s order ∧ BackLinks s.sys.mem 0 order)
    ⟨fun h => ⟨h.1, h.2⟩, fun h => ⟨h.blocks, h.back⟩⟩

instance (s : State) (bs : List Block) : Decidable (SoundHeaders s bs) :=
  decidable_of_iff (Headers s.sys.mem bs ∧ Spread (addrs bs) ∧ Ready (addrs bs) s ∧
    s.sys.mem.page 0 = false) ⟨fun ⟨h₁, h₂, h₃, h₄⟩ => ⟨h₁, h₂, h₃, h₄⟩,
      fun ⟨h₁, h₂, h₃, h₄⟩ => ⟨h₁, h₂, h₃, h₄⟩⟩

instance (order : List Block) (new : Block) : Decidable (HeadAsserted order new) := by
  unfold HeadAsserted; infer_instance

/-- Of three blocks of 100 bytes the lowest is out of the list.  The last one can be taken out as
well, and the lowest one returns. -/
theorem heapList_surgery_equal : ∃ s,
    (∃ s', (heapListRemove 65816).run s = .ok ((), s') ∧
      WellLinked s' [⟨65676, 100, false⟩]) ∧
    ∃ s' order', (heapListInsert 65536).run s = .ok ((), s') ∧ WellLinked s' order' ∧
      order'.Perm [⟨65536, 100, false⟩, ⟨65676, 100, false⟩, ⟨65816, 100, false⟩] := by
  obtain ⟨-, s, -, hs⟩ := exists_of_check (p := threeWithout 65536) (s := World.start.state)
    (f := fun _ s => decide (WellLinked s [⟨65676, 100, false⟩, ⟨65816, 100, false⟩] ∧
      SoundHeaders s [⟨65676, 100, false⟩, ⟨65816, 100, false⟩] ∧
      SoundHeaders s [⟨65536, 100, false⟩, ⟨65676, 100, false⟩, ⟨65816, 100, false⟩]))
    (by decide +kernel)
  obtain ⟨hl, hs₂, hs₃⟩ := of_decide_eq_true hs
  obtain ⟨hremove, hinsert⟩ := heapList_surgery hl
  obtain ⟨s', order', hrun, hl', -, hp⟩ :=
    hinsert (by decide) ⟨65536, 100, false⟩ hs₃ (by decide) (by decide)
  exact ⟨s, hremove hs₂ ⟨65816, 100, false⟩ (by decide), s', order', hrun, hl', hp⟩

end OsProjects.Malloc3
