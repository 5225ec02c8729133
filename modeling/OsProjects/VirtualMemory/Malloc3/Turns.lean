import Mathlib.Data.List.Chain
import OsProjects.VirtualMemory.Malloc3.WellFormed

/-! # Steps of a call

A step of a call turns the blocks of the heap into others (`Turns`).  Whatever the insertions
into the size-ordered list have lost, the blocks and the counters are right; and the list stays
complete under the condition that comes with the step.  In a heap without adjacent free blocks
a block that becomes free is merged with its neighbours only (`merge_one`). -/

namespace OsProjects.Malloc3

open Prog

variable {F F' H H' L L' S : Set ℕ} {s s' s'' : State} {as bs cs ds : List Block} {b c n : Block}
  {ok ok' : Prop}

/-! ### Heaps without adjacent free blocks -/

/-- Not both of two neighbours are free. -/
def Block.Parted (b c : Block) : Prop := ¬(b.free = true ∧ c.free = true)

theorem noAdjacentFree_append : NoAdjacentFree (as ++ bs) ↔ NoAdjacentFree as ∧ NoAdjacentFree bs ∧
    ∀ a ∈ as.getLast?, ∀ b ∈ bs.head?, a.Parted b := List.isChain_append

theorem noAdjacentFree_cons :
    NoAdjacentFree (b :: cs) ↔ (∀ c ∈ cs.head?, b.Parted c) ∧ NoAdjacentFree cs := List.isChain_cons

theorem NoAdjacentFree.left (h : NoAdjacentFree (as ++ bs)) : NoAdjacentFree as :=
  (noAdjacentFree_append.mp h).1

theorem NoAdjacentFree.right (h : NoAdjacentFree (as ++ bs)) : NoAdjacentFree bs :=
  (noAdjacentFree_append.mp h).2.1

/-- The blocks in front of `b` are merged already. -/
theorem coalesce_behind (h : NoAdjacentFree (as ++ [b])) :
    coalesce (as ++ b :: cs) = as ++ coalesceFrom b cs := by
  obtain ⟨has, -, hl⟩ := noAdjacentFree_append.mp h
  rw [coalesce_append fun a ha => hl a ha b rfl, coalesce_eq_self has]

/-- A free block absorbs the free block behind it. -/
theorem coalesceFrom_absorb (hb : b.free = true) (hc : c.free = true) :
    coalesceFrom b (c :: cs) = coalesceFrom (b.absorb c) cs := by
  rw [coalesceFrom, if_pos (by rw [hb, hc]; rfl)]

/-! ### Turns -/

/-- A step that turns the blocks `as` into `bs`.  It writes links of headers in `F` and headers
in `H`; the links of headers in `L` stay in `L`; and a complete list stays complete if `ok`. -/
structure Turns (ok : Prop) (F H L : Set ℕ) (s s' : State) (as bs : List Block) : Prop where
  step : HeapStep F H s s'
  shape : Shape L s' bs
  counts : CountStep s.heap s'.heap (counts bs - counts as)
  listed : ok → Listed s as → Listed s' bs

namespace Turns

theorem trans (h : Turns ok F H L s s' as bs) (h' : Turns ok' F H L' s' s'' bs cs) :
    Turns (ok ∧ ok') F H L' s s'' as cs where
  step := h.step.trans h'.step
  shape := h'.shape
  counts := (h.counts.trans h'.counts).of_eq (by rw [add_comm, sub_add_sub_cancel])
  listed hok hl := h'.listed hok.2 (h.listed hok.1 hl)

theorem mono (h : Turns ok F H L s s' as bs) (hF : F ⊆ F') (hH : H ⊆ H') :
    Turns ok F' H' L s s' as bs := { h with step := h.step.mono hF hH }

theorem imp (h : Turns ok F H L s s' as bs) (hok : ok' → ok) : Turns ok' F H L s s' as bs :=
  { h with listed := fun h' => h.listed (hok h') }

theorem whole (h : Turns ok F H L s s' as bs) (hok : ok) (hl : Listed s as) : Whole s' bs :=
  ⟨h.shape.tiled, h.shape.wilderness, h.listed hok hl⟩

end Turns

theorem Becomes.turns (h : Becomes L H s s' as bs) (hl : ok → Listed s as → Listed s' bs) :
    Turns ok L H L s s' as bs := ⟨h.step, h.shape, h.counts, hl⟩

theorem Shape.whole (h : Shape L s bs) (hl : Listed s bs) : Whole s bs :=
  ⟨h.tiled, h.wilderness, hl⟩

theorem markFree_turns (hsh : Shape L s (as ++ b :: cs)) (hb : b.free = false)
    (h : (markFree b.addr).run s = .ok ((), s')) :
    Turns True L {b.addr} L s s' (as ++ b :: cs) (as ++ { b with free := true } :: cs) :=
  (markFree_becomes hsh hb h).turns fun _ hl => (markFree_moves (hsh.whole hl) hb h).whole.listed

theorem markUsed_turns (hsh : Shape L s (as ++ b :: cs)) (hb : b.free = true)
    (h : (markUsed b.addr).run s = .ok ((), s')) :
    Turns True L {b.addr} L s s' (as ++ b :: cs) (as ++ { b with free := false } :: cs) :=
  (markUsed_becomes hsh hb h).turns fun _ hl => (markUsed_moves (hsh.whole hl) hb h).whole.listed

theorem merge_turns (hsh : Shape L s bs) (h : merge.run s = .ok ((), s')) :
    Turns (mergeOk bs) L (addrs (coalesce bs)) L s s' bs (coalesce bs) :=
  (merge_becomes hsh h).turns fun hok hl => merge_listed hsh hl hok h

theorem split_turns {n : ℕ} (hsh : Shape L s (as ++ b :: cs)) (hn : n ≤ b.size ∨ n ≤ sizeLimit)
    (hS : Spread (L ∪ addrs (splitBlock b n))) (h : (split b.addr n).run s = .ok ((), s')) :
    Turns (splitOk (as ++ cs) b n) (L ∪ addrs (splitBlock b n)) (addrs (splitBlock b n))
      (L ∪ addrs (splitBlock b n)) s s' (as ++ b :: cs) (as ++ (splitBlock b n ++ cs)) :=
  (split_becomes hsh hn hS h).turns fun hok hl =>
    split_listed (hsh.whole hl) hn hok (hsh.tiled.split_spread hn) h

/-- Only the blocks of the heap count as headers. -/
theorem Shape.narrow (h : Shape L s bs) (hC : Closed (addrs bs) s) : Shape (addrs bs) s bs :=
  ⟨h.tiled.spread, subset_rfl, hC, h.tiled, h.wilderness⟩

/-! ### Merging next to one block -/

/-- `smerge` walks past blocks that it cannot merge. -/
theorem smerge_skip {fuel : ℕ} {a : Block} (hsh : Shape L s (ds ++ a :: (as ++ b :: cs)))
    (hp : NoAdjacentFree (a :: (as ++ [b])))
    (h : (smerge s.sys.brk fuel a.addr).run s = .ok ((), s')) :
    ∃ fuel, (smerge s.sys.brk fuel b.addr).run s = .ok ((), s') := by
  induction as generalizing ds a fuel with
  | nil =>
      cases fuel with
      | zero => simp [smerge] at h
      | succ fuel =>
          have hab : a.Parted b := (noAdjacentFree_cons.mp hp).1 b rfl
          obtain ⟨hc, -⟩ | ⟨c, cs, hc, -, h⟩ | ⟨c, cs, -, -, hc, ha, hf, -⟩ := smerge_round hsh h
          · cases hc
          · obtain ⟨rfl, rfl⟩ := List.cons.inj hc
            exact ⟨fuel, h⟩
          · obtain ⟨rfl, rfl⟩ := List.cons.inj hc
            exact absurd ⟨ha, hf⟩ hab
  | cons d as ih =>
      cases fuel with
      | zero => simp [smerge] at h
      | succ fuel =>
          obtain ⟨had, hp'⟩ := noAdjacentFree_cons.mp hp
          have hsh' : Shape L s ((ds ++ [a]) ++ d :: (as ++ b :: cs)) := by simpa using hsh
          obtain ⟨hc, -⟩ | ⟨c, cs, hc, -, h⟩ | ⟨c, cs, -, -, hc, ha, hf, -⟩ := smerge_round hsh h
          · cases hc
          · obtain ⟨rfl, rfl⟩ := List.cons.inj hc
            exact ih hsh' hp' h
          · obtain ⟨rfl, rfl⟩ := List.cons.inj hc
            exact absurd ⟨ha, hf⟩ (had d rfl)

/-- `smerge` changes nothing where no two neighbours are free. -/
theorem smerge_id {fuel : ℕ} (hsh : Shape L s (as ++ b :: cs)) (hp : NoAdjacentFree (b :: cs))
    (h : (smerge s.sys.brk fuel b.addr).run s = .ok ((), s')) : s = s' := by
  induction cs generalizing as b fuel with
  | nil =>
      cases fuel with
      | zero => simp [smerge] at h
      | succ fuel =>
          obtain ⟨-, rfl⟩ | ⟨_, _, hc, -⟩ | ⟨_, _, _, _, hc, -⟩ := smerge_round hsh h
          · rfl
          · cases hc
          · cases hc
  | cons c cs ih =>
      cases fuel with
      | zero => simp [smerge] at h
      | succ fuel =>
          obtain ⟨hbc, hp'⟩ := noAdjacentFree_cons.mp hp
          obtain ⟨hc, -⟩ | ⟨_, _, hc, -, h⟩ | ⟨_, _, _, _, hc, hb, hf, -⟩ := smerge_round hsh h
          · cases hc
          · obtain ⟨rfl, rfl⟩ := List.cons.inj hc
            have hsh' : Shape L s ((as ++ [b]) ++ c :: cs) := by simpa using hsh
            exact ih hsh' hp' h
          · obtain ⟨rfl, rfl⟩ := List.cons.inj hc
            exact absurd ⟨hb, hf⟩ (hbc c rfl)

/-- `absorb` on a complete list leaves no link to the block that is gone. -/
theorem absorb_closed (hw : Whole s (as ++ b :: c :: cs))
    (h : (absorb b.addr c.addr).run s = .ok ((), s')) :
    Closed (addrs (as ++ b.absorb c :: cs)) s' := by
  obtain ⟨s₂, s₃, h₂, h₃, h₄⟩ := absorb_cases h
  have hS := hw.tiled.spread
  have hb : b.addr ∈ addrs (as ++ b :: c :: cs) := ⟨b, by simp, rfl⟩
  have ht₁ := absorbed_tiled hS subset_rfl hw.tiled
  have hnd := hw.tiled.nodup
  have hl₁ := hw.listed.sameLinks (absorbed_sameLinks hS hb c.addr) subset_rfl
  obtain ⟨k₂, hl₂⟩ := hl₁.remove hS subset_rfl hnd ht₁.null h₂
  have hsub₂ : addrs (as ++ c :: cs) ⊆ addrs (as ++ b :: c :: cs) := addrs_mono fun d hd => mem_addrs (by
    obtain hd | hd := List.mem_append.mp hd
    · simp [hd]
    · obtain rfl | hd := List.mem_cons.mp hd <;> simp [*])
  have hnd₂ : ((as ++ c :: cs).map Block.addr).Nodup := hnd.sublist (by simp)
  have hnull₂ : s₂.sys.mem.page 0 = false := by
    rw [k₂.page]
    exact ht₁.null
  obtain ⟨k₃, hl₃⟩ := hl₂.remove hS hsub₂ hnd₂ hnull₂ h₃
  have hnd₃ : ((as ++ cs).map Block.addr).Nodup := hnd₂.sublist (by simp)
  have hins : insert b.addr (addrs (as ++ cs)) = addrs (as ++ b.absorb c :: cs) := by
    rw [addrs_append, addrs_append, ← List.singleton_append, addrs_append, addrs_singleton]
    ext p
    simp only [Set.mem_insert_iff, Set.mem_union, Set.mem_singleton_iff, Block.absorb_addr]
    exact or_left_comm
  have hS' : Spread (insert b.addr (addrs (as ++ cs))) := hins ▸ ht₁.spread
  have hC₃ : Closed (addrs (as ++ cs)) s₃ := hl₃.closed hnd₃ fun h₀ =>
    hS'.pos 0 (Set.mem_insert_of_mem _ h₀) rfl
  have hnull₃ : s₃.sys.mem.page 0 = false := by
    rw [k₃.page]
    exact hnull₂
  obtain ⟨-, hC₄⟩ := heapListInsert_closed hS' hnull₃ hC₃ h₄
  exact hins ▸ hC₄

/-- `merge` up to the first two neighbours that are free. -/
theorem merge_first (hw : Whole s (as ++ b :: c :: cs)) (hp : NoAdjacentFree (as ++ [b]))
    (hb : b.free = true) (hc : c.free = true) (h : merge.run s = .ok ((), s')) :
    ∃ s₁ s₂, (absorb b.addr c.addr).run s = .ok ((), s₁) ∧ s₂.sys = s₁.sys ∧
      s₂.heap.head = s₁.heap.head ∧
      Turns (insertOk (as ++ cs) (b.absorb c).size) (addrs (as ++ b :: c :: cs)) {b.addr}
        (addrs (as ++ b.absorb c :: cs)) s s₂ (as ++ b :: c :: cs) (as ++ b.absorb c :: cs) ∧
      (cs = [] ∧ s₂ = s' ∨ ∃ fuel, (smerge s₂.sys.brk fuel b.addr).run s₂ = .ok ((), s')) := by
  have hsh := hw.shape
  obtain ⟨fuel, h⟩ : ∃ fuel, (smerge s.sys.brk fuel b.addr).run s = .ok ((), s') := by
    cases as with
    | nil => exact ⟨_, merge_cons hsh h⟩
    | cons a as =>
        have hsh' : Shape _ s ([] ++ a :: (as ++ b :: c :: cs)) := hsh
        exact smerge_skip hsh' hp (merge_cons hsh h)
  cases fuel with
  | zero => simp [smerge] at h
  | succ fuel =>
      obtain ⟨he, -⟩ | ⟨d, ds, he, hf, -⟩ | ⟨d, ds, s₁, s₂, he, -, -, h₁, hsys, hhead, hm, h⟩ :=
        smerge_round hsh h
      · cases he
      · obtain ⟨rfl, rfl⟩ := List.cons.inj he
        rw [hb, hc] at hf
        cases hf
      · obtain ⟨rfl, rfl⟩ := List.cons.inj he
        have hlinks : SameLinks (addrs (as ++ b.absorb c :: cs)) s₁ s₂ :=
          .of_byte hm.shape.tiled.spread hhead fun _ _ _ _ _ => by rw [hsys]
        refine ⟨s₁, s₂, h₁, hsys, hhead, ⟨hm.step,
          hm.shape.narrow (hlinks.closed (absorb_closed hw h₁)), hm.counts,
          fun hok hl => ?_⟩, h.imp id fun h => ⟨_, h⟩⟩
        exact (absorb_listed hw.tiled.spread subset_rfl hw.tiled hl hok h₁).sameLinks hlinks subset_rfl

/-- **`merge` next to one block**: two neighbours that are free become one block. -/
theorem merge_one (hw : Whole s (as ++ b :: c :: cs)) (hp : NoAdjacentFree (as ++ [b]))
    (hb : b.free = true) (hc : c.free = true) (hcs : NoAdjacentFree (b.absorb c :: cs))
    (h : merge.run s = .ok ((), s')) :
    Turns (insertOk (as ++ cs) (b.absorb c).size) (addrs (as ++ b :: c :: cs)) {b.addr}
      (addrs (as ++ b.absorb c :: cs)) s s' (as ++ b :: c :: cs) (as ++ b.absorb c :: cs) := by
  obtain ⟨-, s₁, -, -, -, ht, ⟨-, rfl⟩ | ⟨fuel, h⟩⟩ := merge_first hw hp hb hc h
  · exact ht
  · obtain rfl := smerge_id ht.shape hcs h
    exact ht

/-- `merge` while one block is kept out of it. -/
theorem mergeWithout_turns {d : Block} {ds' es es' : List Block} (hw : Whole s (ds ++ d :: es))
    (hm : ∀ s₁ s₂, Whole s₁ (ds ++ { d with free := false } :: es) → merge.run s₁ = .ok ((), s₂) →
      Turns ok F H L s₁ s₂ (ds ++ { d with free := false } :: es)
        (ds' ++ { d with free := false } :: es'))
    (hd : d.addr ∈ H) (hL : L ⊆ F) (hF : addrs (ds ++ d :: es) ⊆ F)
    (h : (mergeWithout d.addr).run s = .ok ((), s')) :
    Turns ok F H L s s' (ds ++ d :: es) (ds' ++ d :: es') := by
  have hd' : d ∈ ds ++ d :: es := by simp
  obtain ⟨s₁, s₂, h₁, h₂, h₃⟩ := mergeWithout_cases (hw.tiled.spread.pos _ (mem_addrs hd')) h
  rw [hw.tiled.free_eq hd'] at h₃
  obtain ⟨hst₁, -, hheap₁⟩ := setFree_shape hw.shape h₁
  have hw₁ := setFree_whole hw h₁
  have ht := hm s₁ s₂ hw₁ h₂
  obtain ⟨hst₃, hsh₃, hheap₃⟩ := setFree_shape ht.shape h₃
  have hdH : {d.addr} ⊆ H := Set.singleton_subset_iff.mpr hd
  refine ⟨((hst₁.mono hF hdH).trans ht.step).trans (hst₃.mono hL hdH), hsh₃, ?_,
    fun hok hl => (setFree_whole (ht.whole hok hw₁.listed) h₃).listed⟩
  have hcnt := ht.counts
  rw [hheap₁] at hcnt
  rw [hheap₃]
  refine hcnt.of_eq ?_
  simp only [counts_append, counts_cons]
  abel

end OsProjects.Malloc3
