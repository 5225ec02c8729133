import Mathlib.Algebra.BigOperators.Group.List.Basic
import Mathlib.Algebra.Group.Prod
import Mathlib.Algebra.Group.Int.Defs
import Mathlib.Tactic.Ring
import OsProjects.Lib.Tiling
import OsProjects.VirtualMemory.Malloc3.Headers

/-! # The heap as a list of blocks

What the allocator is for, without addresses of links or counters: a list of blocks that
tile a region, with the operations `splitBlock` and `coalesce` on it.  The walk over the
memory is exactly such a list (`heapWalk_iff`). -/

namespace OsProjects.Malloc3

variable {m m' : Memory} {p e : ℕ} {b c : Block} {bs cs : List Block}

/-! ### Tiling -/

/-- The extent of a block. -/
def extent : Extent Block where
  addr := Block.addr
  stop := Block.stop
  lt b := by unfold Block.stop sizeofMetadata; omega

/-- The blocks tile the region from `p` to `e`. -/
def Tiles : ℕ → List Block → ℕ → Prop := extent.Tiles

@[simp] theorem tiles_nil : Tiles p [] e ↔ p = e := Iff.rfl

@[simp] theorem tiles_cons : Tiles p (b :: bs) e ↔ b.addr = p ∧ Tiles b.stop bs e := Iff.rfl

/-- Every block is what its header says. -/
def Headers (m : Memory) (bs : List Block) : Prop := ∀ b ∈ bs, blockAt m b.addr = b

theorem heapWalk_iff : HeapWalk m e p bs ↔ Tiles p bs e ∧ Headers m bs := by
  induction bs generalizing p with
  | nil => simp [HeapWalk, Headers]
  | cons b bs ih =>
      simp only [HeapWalk, tiles_cons, ih, Headers, List.forall_mem_cons]
      constructor
      · rintro ⟨hb, ht, hh⟩
        have ha : b.addr = p := by rw [hb]; rfl
        exact ⟨⟨ha, by rwa [Block.stop, ha]⟩, by rw [ha]; exact hb.symm, hh⟩
      · rintro ⟨⟨rfl, ht⟩, hb, hh⟩
        exact ⟨hb.symm, ht, hh⟩

namespace Tiles

theorem append_iff : Tiles p (bs ++ cs) e ↔ ∃ q, Tiles p bs q ∧ Tiles q cs e :=
  Extent.Tiles.append_iff

theorem le (h : Tiles p bs e) : p ≤ e := Extent.Tiles.le h

theorem bounds (h : Tiles p bs e) (hb : b ∈ bs) : p ≤ b.addr ∧ b.stop ≤ e :=
  Extent.Tiles.bounds h hb

/-- Each block ends where, or before, a later one starts. -/
theorem pairwise (h : Tiles p bs e) : bs.Pairwise fun b c => b.stop ≤ c.addr :=
  Extent.Tiles.pairwise h

theorem eq_or_apart (h : Tiles p bs e) (hb : b ∈ bs) (hc : c ∈ bs) :
    b = c ∨ b.stop ≤ c.addr ∨ c.stop ≤ b.addr := Extent.Tiles.eq_or_apart h hb hc

theorem addr_inj (h : Tiles p bs e) (hb : b ∈ bs) (hc : c ∈ bs) (hbc : b.addr = c.addr) :
    b = c := Extent.Tiles.addr_inj h hb hc hbc

theorem nodup_addr (h : Tiles p bs e) : (bs.map Block.addr).Nodup := Extent.Tiles.nodup_addr h

end Tiles

/-- The addresses of the headers of `bs`. -/
def addrs (bs : List Block) : Set ℕ := {p | ∃ b ∈ bs, b.addr = p}

theorem mem_addrs (hb : b ∈ bs) : b.addr ∈ addrs bs := ⟨b, hb, rfl⟩

theorem addrs_mono (h : ∀ b ∈ bs, b.addr ∈ addrs cs) : addrs bs ⊆ addrs cs := by
  rintro _ ⟨b, hb, rfl⟩
  exact h b hb

theorem Tiles.spread (h : Tiles p bs e) (hp : p ≠ 0) (he : e ≤ userTop) : Spread (addrs bs) where
  pos := by
    rintro _ ⟨b, hb, rfl⟩
    have := (h.bounds hb).1
    omega
  lt := by
    rintro _ ⟨b, hb, rfl⟩
    have := (h.bounds hb).2
    unfold Block.stop at this
    unfold IsWord
    simp only [userTop] at he
    omega
  apart := by
    rintro _ ⟨b, hb, rfl⟩ _ ⟨c, hc, rfl⟩
    rcases h.eq_or_apart hb hc with rfl | h | h
    · exact .inl rfl
    · refine .inr (.inl ?_)
      unfold Block.stop at h; omega
    · refine .inr (.inr ?_)
      unfold Block.stop at h; omega

/-! ### Splitting -/

/-- The block `b` after `split(b, n)`. -/
def splitBlock (b : Block) (n : ℕ) : List Block :=
  if canSplit b.size n then
    [⟨b.addr, n, false⟩, ⟨b.addr + n + sizeofMetadata, b.size - n - sizeofMetadata, true⟩]
  else [{ b with free := false }]

theorem toInt_toInt_sub (a b : ℤ) : toInt (toInt a - b) = toInt (a - b) := by simp [toInt]

theorem toInt_sub_toInt (a b : ℤ) : toInt (a - toInt b) = toInt (a - b) := by simp [toInt]

theorem canSplit_iff {size n : ℕ} :
    canSplit size n = true ↔ (splitThreshold : ℤ) ≤ toInt (size - n - sizeofMetadata) := by
  have h : toInt (toInt size - toInt n) = toInt (size - n) := by
    rw [toInt_toInt_sub, toInt_sub_toInt]
  unfold canSplit
  rw [decide_eq_true_iff, h, toInt_toInt_sub]

/-- The remainder of a split block is at least `SPLIT_THRESHOLD` bytes; a block is never
split to a size it does not have. -/
theorem canSplit_le {size n : ℕ} (hn : n ≤ size ∨ n ≤ sizeLimit) (h : canSplit size n = true) :
    n + sizeofMetadata + splitThreshold ≤ size := by
  rw [canSplit_iff, toInt, Int.bmod_def] at h
  simp only [splitThreshold, sizeofMetadata, sizeLimit] at *
  split_ifs at h <;> omega

/-! ### Coalescing -/

/-- Two adjacent free blocks as one. -/
def Block.absorb (b c : Block) : Block := { b with size := b.size + (c.size + sizeofMetadata) }

@[simp] theorem Block.absorb_addr (b c : Block) : (b.absorb c).addr = b.addr := rfl
@[simp] theorem Block.absorb_free (b c : Block) : (b.absorb c).free = b.free := rfl

theorem Block.absorb_stop {b c : Block} (h : c.addr = b.stop) : (b.absorb c).stop = c.stop := by
  unfold Block.stop Block.absorb at *
  simp only
  omega

/-- The blocks `b :: cs` with each maximal run of free blocks made one block. -/
def coalesceFrom (b : Block) : List Block → List Block
  | [] => [b]
  | c :: cs =>
    if b.free && c.free then coalesceFrom (b.absorb c) cs else b :: coalesceFrom c cs

/-- Each maximal run of adjacent free blocks made one block. -/
def coalesce : List Block → List Block
  | [] => []
  | b :: cs => coalesceFrom b cs

/-- No two adjacent blocks are free. -/
def NoAdjacentFree (bs : List Block) : Prop :=
  bs.IsChain fun b c => ¬(b.free = true ∧ c.free = true)

instance (bs : List Block) : Decidable (NoAdjacentFree bs) := by
  unfold NoAdjacentFree; infer_instance

/-- The first block keeps its address and its flag. -/
theorem coalesceFrom_head (b : Block) (cs : List Block) :
    ∃ d ds, coalesceFrom b cs = d :: ds ∧ d.addr = b.addr ∧ d.free = b.free ∧ b.size ≤ d.size := by
  induction cs generalizing b with
  | nil => exact ⟨b, [], rfl, rfl, rfl, le_rfl⟩
  | cons c cs ih =>
      rw [coalesceFrom]
      split
      · obtain ⟨d, ds, h, h₁, h₂, h₃⟩ := ih (b.absorb c)
        refine ⟨d, ds, h, h₁, h₂, le_trans ?_ h₃⟩
        simp [Block.absorb]
      · exact ⟨b, _, rfl, rfl, rfl, le_rfl⟩

theorem coalesceFrom_noAdjacentFree (b : Block) (cs : List Block) :
    NoAdjacentFree (coalesceFrom b cs) := by
  induction cs generalizing b with
  | nil => exact .singleton _
  | cons c cs ih =>
      rw [coalesceFrom]
      split
      · exact ih _
      next hbc =>
        obtain ⟨d, ds, hd, -, hf, -⟩ := coalesceFrom_head c cs
        have := ih c
        rw [hd] at this ⊢
        refine List.isChain_cons_cons.mpr ⟨?_, this⟩
        rw [hf]
        simpa using hbc

/-- Blocks in use stay as they are. -/
theorem mem_coalesceFrom {d : Block} (hd : d.free = false) (h : d ∈ b :: cs) :
    d ∈ coalesceFrom b cs := by
  induction cs generalizing b with
  | nil => exact h
  | cons c cs ih =>
      rw [coalesceFrom]
      split
      next hbc =>
        rw [Bool.and_eq_true] at hbc
        rcases List.mem_cons.mp h with rfl | h
        · rw [hbc.1] at hd; cases hd
        · rcases List.mem_cons.mp h with rfl | h
          · rw [hbc.2] at hd; cases hd
          · exact ih (List.mem_cons_of_mem _ h)
      · rcases List.mem_cons.mp h with rfl | h
        · exact List.mem_cons_self
        · exact List.mem_cons_of_mem _ (ih h)

/-- Every block of the result starts where a block did. -/
theorem addrs_coalesceFrom (b : Block) (cs : List Block) :
    addrs (coalesceFrom b cs) ⊆ addrs (b :: cs) := by
  induction cs generalizing b with
  | nil => exact fun _ h => h
  | cons c cs ih =>
      rw [coalesceFrom]
      split
      · rintro _ hq
        obtain ⟨d, hd, rfl⟩ := ih (b.absorb c) hq
        rcases List.mem_cons.mp hd with rfl | hd
        · exact ⟨b, List.mem_cons_self, rfl⟩
        · exact ⟨d, List.mem_cons_of_mem _ (List.mem_cons_of_mem _ hd), rfl⟩
      · rintro _ ⟨d, hd, rfl⟩
        rcases List.mem_cons.mp hd with rfl | hd
        · exact ⟨d, List.mem_cons_self, rfl⟩
        · obtain ⟨d', hd', he⟩ := ih c ⟨d, hd, rfl⟩
          exact ⟨d', List.mem_cons_of_mem _ hd', he⟩

/-- Where two adjacent blocks are not both free, the two parts are coalesced separately. -/
theorem coalesceFrom_append {d : Block} {ds : List Block}
    (h : ∀ a ∈ (b :: cs).getLast?, ¬(a.free = true ∧ d.free = true)) :
    coalesceFrom b (cs ++ d :: ds) = coalesceFrom b cs ++ coalesceFrom d ds := by
  induction cs generalizing b with
  | nil =>
      have : (b.free && d.free) = false := by simpa using h b (by simp)
      simp [coalesceFrom, this]
  | cons c cs ih =>
      rw [List.cons_append, coalesceFrom, coalesceFrom]
      split
      next hbc =>
        refine ih fun a ha => ?_
        cases cs with
        | nil =>
            obtain rfl : b.absorb c = a := by simpa using ha
            rw [Bool.and_eq_true] at hbc
            have := h c (by simp)
            rw [Block.absorb_free, hbc.1]
            rw [hbc.2] at this
            exact this
        | cons e cs => exact h a (by simpa using ha)
      · rw [ih fun a ha => h a (by simpa using ha), List.cons_append]

theorem coalesce_append {as : List Block} {d : Block} {ds : List Block}
    (h : ∀ a ∈ as.getLast?, ¬(a.free = true ∧ d.free = true)) :
    coalesce (as ++ d :: ds) = coalesce as ++ coalesceFrom d ds := by
  cases as with
  | nil => rfl
  | cons b cs => exact coalesceFrom_append h

/-- A heap without adjacent free blocks stays as it is. -/
theorem coalesceFrom_eq_self (h : NoAdjacentFree (b :: cs)) : coalesceFrom b cs = b :: cs := by
  induction cs generalizing b with
  | nil => rfl
  | cons c cs ih =>
      obtain ⟨h₁, h₂⟩ := List.isChain_cons_cons.mp h
      rw [coalesceFrom, if_neg (by simpa using h₁), ih h₂]

theorem coalesce_eq_self (h : NoAdjacentFree bs) : coalesce bs = bs := by
  cases bs with
  | nil => rfl
  | cons b cs => exact coalesceFrom_eq_self h

theorem coalesce_noAdjacentFree (bs : List Block) : NoAdjacentFree (coalesce bs) := by
  cases bs with
  | nil => exact .nil
  | cons b cs => exact coalesceFrom_noAdjacentFree b cs

theorem mem_coalesce {d : Block} (hd : d.free = false) (h : d ∈ bs) : d ∈ coalesce bs := by
  cases bs with
  | nil => exact h
  | cons b cs => exact mem_coalesceFrom hd h

theorem addrs_coalesce (bs : List Block) : addrs (coalesce bs) ⊆ addrs bs := by
  cases bs with
  | nil => exact fun _ h => h
  | cons b cs => exact addrs_coalesceFrom b cs

/-! ### Counting -/

/-- Free blocks, free bytes, blocks and bytes. -/
abbrev Counts := ℤ × ℤ × ℤ × ℤ

def Block.counts (b : Block) : Counts :=
  (if b.free then 1 else 0, if b.free then (b.size : ℤ) else 0, 1, b.size)

/-- What a walk over `bs` counts. -/
def counts (bs : List Block) : Counts := (bs.map Block.counts).sum

@[simp] theorem counts_nil : counts [] = 0 := rfl

@[simp] theorem counts_cons (b : Block) (bs : List Block) :
    counts (b :: bs) = b.counts + counts bs := by simp [counts]

@[simp] theorem counts_append (bs cs : List Block) : counts (bs ++ cs) = counts bs + counts cs := by
  simp [counts]

/-- The five counters are those of a walk that counts `c`, up to the width of a `size_t`. -/
structure Counted (h : MemoryList) (c : Counts) : Prop where
  freeBlocks : (h.numFreeBlocks : ℤ) = c.1 % 2 ^ 64
  freeBytes : (h.numFreeBytes : ℤ) = c.2.1 % 2 ^ 64
  blocks : (h.numAllocatedBlocks : ℤ) = c.2.2.1 % 2 ^ 64
  bytes : (h.numAllocatedBytes : ℤ) = c.2.2.2 % 2 ^ 64
  metaData : (h.numMetaDataBytes : ℤ) = sizeofMetadata * c.2.2.1 % 2 ^ 64

/-- The counters change by `d`. -/
def CountStep (h h' : MemoryList) (d : Counts) : Prop := ∀ c, Counted h c → Counted h' (c + d)

theorem CountStep.trans {h h' h'' : MemoryList} {d d' : Counts} (h₁ : CountStep h h' d)
    (h₂ : CountStep h' h'' d') : CountStep h h'' (d + d') := fun c hc => by
  rw [← add_assoc]; exact h₂ _ (h₁ c hc)

theorem CountStep.of_eq {h h' : MemoryList} {d d' : Counts} (h₁ : CountStep h h' d)
    (e : d = d') : CountStep h h' d' := e ▸ h₁

theorem Counted.congr {h h' : MemoryList} {c : Counts} (hc : Counted h c)
    (h₁ : h'.numFreeBlocks = h.numFreeBlocks) (h₂ : h'.numFreeBytes = h.numFreeBytes)
    (h₃ : h'.numAllocatedBlocks = h.numAllocatedBlocks)
    (h₄ : h'.numAllocatedBytes = h.numAllocatedBytes)
    (h₅ : h'.numMetaDataBytes = h.numMetaDataBytes) : Counted h' c :=
  ⟨by rw [h₁]; exact hc.freeBlocks, by rw [h₂]; exact hc.freeBytes, by rw [h₃]; exact hc.blocks,
    by rw [h₄]; exact hc.bytes, by rw [h₅]; exact hc.metaData⟩

/-- Coalescing one pair changes the counts by a fixed amount. -/
theorem Block.absorb_counts {b c : Block} (hb : b.free = true) (hc : c.free = true) :
    (b.absorb c).counts = b.counts + c.counts +
      (-1, (sizeofMetadata : ℤ), -1, (sizeofMetadata : ℤ)) := by
  simp only [Block.counts, Block.absorb, hb, hc, if_true, Prod.mk_add_mk, Prod.mk.injEq,
    sizeofMetadata]
  push_cast
  refine ⟨by norm_num, by ring, by norm_num, by ring⟩

end OsProjects.Malloc3
