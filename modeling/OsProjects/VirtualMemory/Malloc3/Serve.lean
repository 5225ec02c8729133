import OsProjects.VirtualMemory.Malloc3.Mmap

/-! # Serving a request from the heap

`smalloc` of fewer than `MMAP_THRESHOLD` bytes takes the first free block that is large enough,
enlarges a free wilderness, or appends a block (`granted`).  The blocks, the counters and the
payloads of the blocks in use are right afterwards whatever the list has lost, and under
`smallocOk` it has lost nothing (`smalloc_heap`). -/

namespace OsProjects.Malloc3

open Prog

variable {F H L : Set ℕ} {s s' s₁ s'' : State} {as bs cs ds order : List Block} {b c d f q : Block}
  {p e n r size brk : ℕ} {ok ok' : Prop}

/-! ### The blocks in use -/

/-- The blocks in use. -/
def used (bs : List Block) : Set Block := {b | b ∈ bs ∧ b.free = false}

theorem mem_used : b ∈ used bs ↔ b ∈ bs ∧ b.free = false := Iff.rfl

@[simp] theorem used_nil : used [] = ∅ := by
  ext
  simp [used]

@[simp] theorem used_append (as bs : List Block) : used (as ++ bs) = used as ∪ used bs := by
  ext
  simp [used, or_and_right]

theorem used_cons_free (h : b.free = true) (cs : List Block) : used (b :: cs) = used cs := by
  ext d
  simp only [used, List.mem_cons, Set.mem_ofPred_eq]
  constructor
  · rintro ⟨rfl | hd, hf⟩
    · rw [h] at hf
      cases hf
    · exact ⟨hd, hf⟩
  · exact fun ⟨hd, hf⟩ => ⟨.inr hd, hf⟩

theorem used_cons (h : b.free = false) (cs : List Block) : used (b :: cs) = insert b (used cs) := by
  ext d
  simp only [used, List.mem_cons, Set.mem_ofPred_eq, Set.mem_insert_iff]
  constructor
  · rintro ⟨rfl | hd, hf⟩
    · exact .inl rfl
    · exact .inr ⟨hd, hf⟩
  · rintro (rfl | ⟨hd, hf⟩)
    · exact ⟨.inl rfl, h⟩
    · exact ⟨.inr hd, hf⟩

theorem used_coalesceFrom (b : Block) (cs : List Block) :
    used (coalesceFrom b cs) = used (b :: cs) := by
  induction cs generalizing b with
  | nil => rfl
  | cons c cs ih =>
      rw [coalesceFrom]
      split
      next hbc =>
        rw [Bool.and_eq_true] at hbc
        have hb : (b.absorb c).free = true := hbc.1
        rw [ih, used_cons_free hb, used_cons_free hbc.1, used_cons_free hbc.2]
      next =>
        cases hf : b.free with
        | false => rw [used_cons hf, used_cons hf, ih]
        | true => rw [used_cons_free hf, used_cons_free hf, ih]

/-- Merging does not touch the blocks in use. -/
theorem used_coalesce (bs : List Block) : used (coalesce bs) = used bs := by
  cases bs with
  | nil => rfl
  | cons b cs => exact used_coalesceFrom b cs

/-! ### Taking a block -/

/-- The block that is handed out when `b` is split to `n` bytes, if it can be. -/
def Block.taken (b : Block) (n : ℕ) : Block :=
  if canSplit b.size n then b.front n else { b with free := false }

/-- What is left of it. -/
def Block.rest (b : Block) (n : ℕ) : List Block := if canSplit b.size n then [b.back n] else []

theorem splitBlock_eq (b : Block) (n : ℕ) : splitBlock b n = b.taken n :: b.rest n := by
  unfold splitBlock Block.taken Block.rest
  split <;> rfl

@[simp] theorem Block.taken_addr (b : Block) (n : ℕ) : (b.taken n).addr = b.addr := by
  unfold Block.taken
  split <;> rfl

@[simp] theorem Block.taken_free (b : Block) (n : ℕ) : (b.taken n).free = false := by
  unfold Block.taken
  split <;> rfl

@[simp] theorem Block.taken_payload (b : Block) (n : ℕ) : (b.taken n).payload = b.payload := by
  simp [Block.payload]

theorem Block.le_taken (h : n ≤ b.size) : n ≤ (b.taken n).size := by
  unfold Block.taken
  split
  · exact le_rfl
  · exact h

theorem Block.free_of_mem_rest (h : c ∈ b.rest n) : c.free = true := by
  unfold Block.rest at h
  split at h
  · obtain rfl := List.mem_singleton.mp h
    rfl
  · cases h

theorem used_rest (b : Block) (n : ℕ) : used (b.rest n) = ∅ := by
  ext c
  simp only [used, Set.mem_ofPred_eq, Set.mem_empty_iff_false, iff_false]
  rintro ⟨h, hf⟩
  rw [Block.free_of_mem_rest h] at hf
  cases hf

theorem used_split (as : List Block) (b : Block) (n : ℕ) (cs : List Block) :
    used (as ++ (splitBlock b n ++ cs)) = insert (b.taken n) (used (as ++ cs)) := by
  rw [splitBlock_eq, List.cons_append, used_append, used_cons (b.taken_free n), used_append,
    used_rest, Set.empty_union, Set.union_insert, used_append]

theorem Block.Parted.of_left (h : b.free = false) : b.Parted c := fun hbc => by
  rw [h] at hbc
  cases hbc.1

theorem Block.Parted.of_right (h : c.free = false) : b.Parted c := fun hbc => by
  rw [h] at hbc
  cases hbc.2

/-- A block in use between two parts of the heap. -/
theorem noAdjacentFree_middle (hb : b.free = false) (has : NoAdjacentFree as)
    (hcs : NoAdjacentFree cs) : NoAdjacentFree (as ++ b :: cs) := by
  refine noAdjacentFree_append.mpr ⟨has, noAdjacentFree_cons.mpr ⟨fun _ _ => .of_left hb, hcs⟩,
    fun _ _ c hc => .of_right ?_⟩
  obtain rfl : b = c := by simpa using hc
  exact hb

theorem noAdjacentFree_split (has : NoAdjacentFree as) (hcs : NoAdjacentFree cs)
    (h : canSplit b.size n = true → ∀ c ∈ cs.head?, c.free = false) :
    NoAdjacentFree (as ++ (splitBlock b n ++ cs)) := by
  rw [splitBlock_eq, List.cons_append]
  refine noAdjacentFree_middle (b.taken_free n) has ?_
  unfold Block.rest
  split
  next hc => exact noAdjacentFree_cons.mpr ⟨fun c hm => .of_right (h hc c hm), hcs⟩
  next => exact hcs

/-! ### What a call leaves -/

/-- What a call makes of a heap with the blocks `bs`: the heap has the blocks `bs'`, the counters
have followed, nothing outside of the heap has changed, and the list is complete if `ok`. -/
structure Outcome (ok : Prop) (s s' : State) (bs bs' : List Block) : Prop where
  laid : Laid s' bs'
  grown : Grown s.sys.base s s'
  base : s.sys.base ≤ s'.heap.firsthead
  counts : CountStep s.heap s'.heap (counts bs' - counts bs)
  listed : ok → Listed s' bs'

theorem Grown.mono {lo lo' : ℕ} (h : Grown lo s s') (hlo : lo' ≤ lo) : Grown lo' s s' :=
  { h with byte := fun y hy => h.byte y (by omega) }

namespace Outcome

theorem imp (h : Outcome ok s s' bs cs) (hok : ok' → ok) : Outcome ok' s s' bs cs :=
  { h with listed := fun h' => h.listed (hok h') }

end Outcome

/-- Where the headers of two tilings of the same region lie. -/
theorem Tiled.header_bounds_or (h : Tiled s bs) (h' : Tiled s' cs)
    (hfirst : s'.heap.firsthead = s.heap.firsthead) (hbrk : s'.sys.brk = s.sys.brk) :
    ∀ q ∈ addrs bs ∪ addrs cs, s.heap.firsthead ≤ q ∧ q + 40 ≤ s.sys.brk := by
  rintro q (hq | hq)
  · exact h.header_bounds hq
  · rw [← hfirst, ← hbrk]
    exact h'.header_bounds hq

theorem Turns.outcome (h : Turns ok F H L s s' bs cs) (hw : Whole s bs)
    (hbase : s.sys.base ≤ s.heap.firsthead)
    (hFH : ∀ q ∈ F ∪ H, s.heap.firsthead ≤ q ∧ q + 40 ≤ s.sys.brk) : Outcome ok s s' bs cs := by
  have hq := h.step.quiet (fun q hq => hFH q (.inl hq)) fun q hq => hFH q (.inr hq)
  exact ⟨h.shape.laid, (hq.grown hw.tiled.brk_le).mono hbase, by rwa [h.step.firsthead], h.counts,
    fun hok => h.listed hok hw.listed⟩

/-! ### `smalloc` on the heap -/

/-- The list with the block `f` replaced by `ds`. -/
def replaceBlock (bs : List Block) (f : Block) (ds : List Block) : List Block :=
  bs.flatMap fun b => if b = f then ds else [b]

theorem replaceBlock_of_not_mem (h : f ∉ bs) : replaceBlock bs f ds = bs := by
  induction bs with
  | nil => rfl
  | cons b bs ih =>
      rw [List.mem_cons, not_or] at h
      obtain ⟨hb, h⟩ := h
      rw [replaceBlock, List.flatMap_cons, if_neg (Ne.symm hb)]
      exact congrArg _ (ih h)

theorem replaceBlock_eq (has : f ∉ as) (hcs : f ∉ cs) :
    replaceBlock (as ++ f :: cs) f ds = as ++ (ds ++ cs) := by
  have h₁ : as.flatMap (fun b => if b = f then ds else [b]) = as := replaceBlock_of_not_mem has
  have h₂ : cs.flatMap (fun b => if b = f then ds else [b]) = cs := replaceBlock_of_not_mem hcs
  rw [replaceBlock, List.flatMap_append, List.flatMap_cons, if_pos rfl, h₁, h₂]

/-- The block that `smalloc` hands out for `size` bytes from the heap, and the blocks of the heap
then: `order` are the blocks in the order of the list and `bs` in the order of the addresses. -/
def granted (order bs : List Block) (brk size : ℕ) : Block × List Block :=
  match found order size with
  | some f => (f.taken size, replaceBlock bs f (splitBlock f size))
  | none =>
    match bs.getLast?.filter Block.free with
    | some b => (⟨b.addr, size, false⟩, bs.dropLast ++ [⟨b.addr, size, false⟩])
    | none => (⟨brk, size, false⟩, bs ++ [⟨brk, size, false⟩])

/-- No insertion of `smalloc` loses a block. -/
def smallocOk (order bs : List Block) (size : ℕ) : Prop :=
  match found order size with
  | some f => splitOk (replaceBlock bs f []) f size
  | none =>
    match bs.getLast?.filter Block.free with
    | some _ => insertOk bs.dropLast size
    | none => insertOk bs size

instance (order bs : List Block) (size : ℕ) : Decidable (smallocOk order bs size) := by
  unfold smallocOk
  split
  · infer_instance
  · split <;> infer_instance

theorem Tiled.not_mem_around (h : Tiled s (as ++ f :: cs)) : f ∉ as ∧ f ∉ cs := by
  have hd := h.nodup
  simp only [List.map_append, List.map_cons, List.nodup_append, List.nodup_cons] at hd
  obtain ⟨-, ⟨h₁, -⟩, h₂⟩ := hd
  exact ⟨fun hf => h₂ _ (List.mem_map_of_mem hf) _ List.mem_cons_self rfl,
    fun hf => h₁ (List.mem_map_of_mem hf)⟩

theorem Whole.perm_order (hw : Whole s bs) (ho : ListBlocks s order) :
    order.Perm bs ∧ Linked (nxt s) (prv s) 0 (order.map Block.addr) := by
  obtain ⟨l, h₁, hp, -, h₂⟩ := (completeList_iff hw.tiled.headers).mpr hw.listed
  obtain rfl := ChainWalk.unique h₁ ho
  exact ⟨hp, (order_iff.mp ⟨h₁, h₂⟩).2.1⟩

theorem split_ne_nil (as : List Block) (f : Block) (n : ℕ) (cs : List Block) :
    as ++ (splitBlock f n ++ cs) ≠ [] := by
  rw [splitBlock_eq, List.cons_append]
  exact List.append_ne_nil_of_right_ne_nil as (List.cons_ne_nil _ _)

theorem taken_mem (as : List Block) (f : Block) (n : ℕ) (cs : List Block) :
    f.taken n ∈ as ++ (splitBlock f n ++ cs) := by
  rw [splitBlock_eq, List.cons_append]
  exact List.mem_append_right _ List.mem_cons_self

theorem addrs_split (as : List Block) (f : Block) (n : ℕ) (cs : List Block) :
    addrs (as ++ (splitBlock f n ++ cs)) = addrs (as ++ f :: cs) ∪ addrs (splitBlock f n) := by
  have hf := addr_mem_splitBlock f n
  rw [← List.singleton_append (l := cs)]
  simp only [addrs_append, addrs_singleton]
  ext p
  simp only [Set.mem_union, Set.mem_singleton_iff]
  constructor
  · tauto
  · rintro ((h | rfl | h) | h) <;> tauto

theorem Stretched.outcome {x : System} (h : Stretched (addrs (as ++ [b])) s s' x as b c)
    (hw : Whole s (as ++ [b])) (hbase : s.sys.base ≤ s.heap.firsthead)
    (hx : System.Extended s.sys x n) (hc : CountStep s.heap s'.heap
      (counts (as ++ [c]) - counts (as ++ [b]))) :
    Outcome (insertOk as c.size) s s' (as ++ [b]) (as ++ [c]) := by
  have hg := h.step.grown hx (fun p hp => hw.tiled.header_bounds hp) fun p hp =>
    hw.tiled.header_bounds (Set.mem_singleton_iff.mp hp ▸ mem_addrs (by simp))
  have hfirst : s'.heap.firsthead = s.heap.firsthead := h.step.firsthead
  exact ⟨h.laid, hg.mono hbase, by rwa [hfirst], hc, fun hok => h.listed hok hw.listed⟩

theorem Stretched.intact {x : System} (h : Stretched (addrs (as ++ [b])) s s' x as b c)
    (hw : Whole s (as ++ [b])) (hx : System.Extended s.sys x n) (hd : d ∈ as) : Intact s s' d := by
  have hdb : d ∈ as ++ [b] := List.mem_append_left _ hd
  have ht := hw.tiled.tiles (List.ne_nil_of_mem hdb)
  refine fun y h₁ h₂ => (h.step.byte y (fun q hq => ?_) fun q hq => ?_).trans (congrFun hx.byte y)
  · have := ht.header_apart hdb hq
    omega
  · have := ht.header_apart hdb (Set.mem_singleton_iff.mp hq ▸ mem_addrs (by simp : b ∈ as ++ [b]))
    omega

theorem Stretched.shape {x : System} (h : Stretched (addrs (as ++ [b])) s s' x as b c)
    (hc : c.addr = b.addr) : Shape (addrs (as ++ [c])) s' (as ++ [c]) := by
  have hL : addrs (as ++ [c]) = addrs (as ++ [b]) := by
    rw [addrs_append, addrs_append, addrs_singleton, addrs_singleton, hc]
  exact ⟨h.laid.tiled.spread, subset_rfl, hL ▸ h.closed, h.laid.tiled, h.laid.wilderness⟩

theorem Appended.outcome (h : Appended s s' bs c) (hw : Whole s bs)
    (hbase : s.sys.base ≤ s'.heap.firsthead) : Outcome (insertOk bs c.size) s s' bs (bs ++ [c]) :=
  ⟨h.shape.laid, h.grown.mono hbase, hbase, h.counts, fun hok => h.listed hok hw.listed⟩

/-- What `smalloc` does to the heap when it hands out the block `g.1` and the blocks are `g.2`
afterwards. -/
structure Served (ok : Prop) (s s' : State) (bs : List Block) (r : ℕ) (g : Block × List Block) :
    Prop where
  payload : r = g.1.payload
  shape : Shape (addrs g.2) s' g.2
  outcome : Outcome ok s s' bs g.2
  intact : ∀ c ∈ used bs, Intact s s' c

theorem split_served (hw : Whole s (as ++ f :: cs)) (hbase : s.sys.base ≤ s.heap.firsthead)
    (hf : f.free = true) (hn : size ≤ f.size) (hs : size ≤ sizeLimit)
    (h : (split f.addr size).run s = .ok ((), s')) :
    Served (splitOk (as ++ cs) f size) s s' (as ++ f :: cs) (add64 f.addr sizeofMetadata)
      (f.taken size, as ++ (splitBlock f size ++ cs)) := by
  have hfm : f ∈ as ++ f :: cs := by simp
  have ht := split_turns hw.shape (.inr hs) (hw.tiled.split_spread (.inr hs)) h
  rw [← addrs_split] at ht
  have hsub : addrs (splitBlock f size) ⊆ addrs (as ++ (splitBlock f size ++ cs)) := by
    rw [addrs_split]
    exact Set.subset_union_right
  have hne := split_ne_nil as f size cs
  have hpay : add64 f.addr sizeofMetadata = (f.taken size).payload := by
    have := hw.tiled.stop_le hfm
    rw [Block.taken_payload, add64_eq (by simp only [sizeofMetadata]; omega), Block.payload]
  have hin := hw.tiled.header_bounds_or ht.shape.tiled ht.step.firsthead ht.step.brk
  refine ⟨hpay, ht.shape, ht.outcome hw hbase fun q hq => hin q (.inr ?_), fun c hc => ?_⟩
  · exact hq.elim id fun hq => hsub hq
  · refine ht.step.intact (hw.tiled.tiles (by simp)) (ht.shape.tiled.tiles hne)
      Set.subset_union_right (hsub.trans Set.subset_union_right) hc.1 ?_
    have : c ≠ f := by
      rintro rfl
      exact absurd (hf.symm.trans hc.2) (by simp)
    have := hc.1
    simp only [List.mem_append, List.mem_cons] at this ⊢
    tauto

/-- **`smalloc` on the heap.** -/
theorem smalloc_heap (hw : Whole s bs) (ho : ListBlocks s order) (hpos : 0 < s.sys.brk)
    (hbrk : s.sys.base ≤ s.sys.brk) (hbase : bs ≠ [] → s.sys.base ≤ s.heap.firsthead)
    (hT : size < mmapThreshold) (hr : r ≠ 0) (h : (smalloc size).run s = .ok (r, s')) :
    Served (smallocOk order bs size) s s' bs r (granted order bs s.sys.brk size) := by
  obtain ⟨hp, hL⟩ := hw.perm_order ho
  have hmem : ∀ c ∈ order, c ∈ bs := fun c => hp.mem_iff.mp
  obtain ⟨-, hr₀, -⟩ | ⟨-, hs, ⟨hT', -⟩ | ⟨-, hh, h⟩ | ⟨-, hh, o, s₁, ho', h⟩⟩ := smalloc_cases h
  · exact absurd hr₀ hr
  · exact absurd hT (Nat.not_lt.mpr hT')
  · have : order = [] := by
      cases order with
      | nil => rfl
      | cons b l => exact absurd (hL.1.symm.trans hh) hL.2.1
    subst this
    obtain rfl : [] = bs := List.nil_perm.mp hp ▸ rfl
    obtain ⟨hr', ha⟩ := firstAllocation_appended hw hpos hs hr h
    have hbase' : s.sys.base ≤ s'.heap.firsthead := by
      rw [ha.shape.tiled.first]
      exact hbrk
    exact ⟨hr', ha.shape, (ha.outcome hw hbase').imp fun h => h, fun c hc => ha.intact c hc.1⟩
  obtain ⟨rfl, rfl⟩ := search_order (fun c hc => hw.tiled.headers c (hmem c hc))
    (fun c hc => hw.tiled.spread.pos _ (mem_addrs (hmem c hc))) hL hh ho'
  have hne : bs ≠ [] := by
    rintro rfl
    rw [List.perm_nil.mp hp] at hL
    exact hh hL
  unfold granted smallocOk
  obtain ⟨p, hp', hsplit, rfl⟩ | ⟨hnone, h⟩ := h
  · obtain ⟨f, hf, rfl⟩ := Option.map_eq_some_iff.mp hp'
    have hfm := hmem f (List.mem_of_find?_eq_some hf)
    have hfit := List.find?_some hf
    simp only [Bool.and_eq_true, decide_eq_true_eq] at hfit
    obtain ⟨as, cs, rfl⟩ := List.append_of_mem hfm
    obtain ⟨has, hcs⟩ := hw.tiled.not_mem_around
    simp only [hf, replaceBlock_eq has hcs]
    exact split_served hw (hbase hne) hfit.1 hfit.2 hs hsplit
  · rw [Option.map_eq_none_iff] at hnone
    obtain ⟨as, b, rfl⟩ : ∃ as b, bs = as ++ [b] :=
      ⟨bs.dropLast, bs.getLast hne, (List.dropLast_append_getLast hne).symm⟩
    have hwild : s.heap.wilderness = b.addr := hw.wilderness.trans (lastAddr_concat as b)
    rw [hwild, hw.tiled.free_eq (by simp : b ∈ as ++ [b])] at h
    simp only [hnone, List.getLast?_append_cons, List.getLast?_singleton, Option.filter_some]
    obtain ⟨hf, h⟩ | ⟨hf, h⟩ := h
    · have hlt : b.size < size := by
        rw [found, List.find?_eq_none] at hnone
        simpa [hf] using hnone b (hp.mem_iff.mpr (by simp))
      obtain ⟨hr', x, hx, hst, hc⟩ := growFreeWilderness_stretched hw hf hlt hs hr h
      simp only [hf, if_true, List.dropLast_concat]
      refine ⟨hr', hst.shape rfl, hst.outcome hw (hbase hne) hx hc, fun d hd => ?_⟩
      refine hst.intact hw hx ((List.mem_append.mp hd.1).resolve_right fun hb => ?_)
      rw [← List.mem_singleton.mp hb, hd.2] at hf
      cases hf
    · obtain ⟨hr', ha⟩ := appendBlock_appended hw hne hs hr h
      simp only [hf, if_false, Bool.false_eq_true]
      exact ⟨hr', ha.shape, ha.outcome hw (by rw [ha.firsthead hne]; exact hbase hne),
        fun c hc => ha.intact c hc.1⟩

/-! ### The block that is handed out -/

/-- `g.1` is a new block in use of at least `size` bytes, and the other blocks in use are those
of `bs`. -/
structure Grants (bs : List Block) (size : ℕ) (g : Block × List Block) : Prop where
  free : g.1.free = false
  le : size ≤ g.1.size
  inUse : used g.2 = insert g.1 (used bs)
  new : g.1 ∉ used bs
  coalesced : NoAdjacentFree bs → NoAdjacentFree g.2

theorem granted_grants (ht : Tiled s bs) (hp : order.Perm bs) :
    Grants bs size (granted order bs s.sys.brk size) := by
  unfold granted
  split
  next f hf =>
    have hfm := hp.mem_iff.mp (List.mem_of_find?_eq_some hf)
    have hfit := List.find?_some hf
    simp only [Bool.and_eq_true, decide_eq_true_eq] at hfit
    obtain ⟨as, cs, rfl⟩ := List.append_of_mem hfm
    obtain ⟨has, hcs⟩ := ht.not_mem_around
    rw [replaceBlock_eq has hcs]
    refine ⟨f.taken_free size, Block.le_taken hfit.2, ?_, fun hm => ?_, fun hn => ?_⟩
    · rw [used_split, used_append, used_append, used_cons_free hfit.1]
    · have : f.taken size = f :=
        (ht.tiles (by simp)).addr_inj hm.1 hfm (f.taken_addr size)
      have hfree := f.taken_free size
      rw [this, hfit.1] at hfree
      cases hfree
    · obtain ⟨h₁, h₂⟩ := noAdjacentFree_cons.mp hn.right
      refine noAdjacentFree_split hn.left h₂ fun _ c hc => ?_
      have := h₁ c hc
      simpa [Block.Parted, hfit.1] using this
  next =>
    split
    next b hb =>
      obtain ⟨hb, hbf⟩ := Option.filter_eq_some_iff.mp hb
      obtain ⟨as, rfl⟩ := List.getLast?_eq_some_iff.mp hb
      rw [List.dropLast_concat]
      refine ⟨rfl, le_rfl, ?_, fun hm => ?_, fun hn => noAdjacentFree_middle rfl hn.left .nil⟩
      · rw [used_append, used_append, used_cons rfl, used_cons_free hbf, used_nil, Set.union_empty,
          Set.union_insert, Set.union_empty]
      · have : (⟨b.addr, size, false⟩ : Block) = b :=
          (ht.tiles (by simp)).addr_inj hm.1 (by simp) rfl
        rw [← this] at hbf
        cases hbf
    next =>
      refine ⟨rfl, le_rfl, ?_, fun hm => ?_, fun hn => noAdjacentFree_middle rfl hn .nil⟩
      · rw [used_append, used_cons rfl, used_nil, Set.union_insert, Set.union_empty]
      · have h₁ := (ht.bounds hm.1).2
        exact absurd (Block.addr_lt_stop ⟨s.sys.brk, size, false⟩) (Nat.not_lt.mpr h₁)

end OsProjects.Malloc3
