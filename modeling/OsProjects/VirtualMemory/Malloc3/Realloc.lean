import OsProjects.VirtualMemory.Malloc3.Both
import OsProjects.VirtualMemory.Malloc3.Twice

/-! # Reallocating a block of the heap

What every path of `srealloc` makes of a well-formed heap: the block it returns, the blocks of the
heap then (`Path.result`), and when the list stays complete (`Path.listOk`).  The paths that work
in place are those of `Resize` and `Both`; here a block is freed, moved or split, and
`Path.resized` puts the nine of them together. -/

namespace OsProjects.Malloc3

open Prog

variable {F H L : Set ℕ} {s s' s₁ s'' : State} {as bs bs' bs'' cs mm order : List Block}
  {b c n p q : Block} {r size i : ℕ} {ok ok' : Prop} {g : Block × List Block}

/-! ### Freeing a block -/

theorem Outcome.turns (h : Outcome ok s s' bs bs') (ht : Turns ok' F H L s' s'' bs' bs'')
    (hFH : ∀ q ∈ F ∪ H, s'.heap.firsthead ≤ q ∧ q + 40 ≤ s'.sys.brk) :
    Outcome (ok ∧ ok') s s'' bs bs'' :=
  h.step ht.step hFH ht.shape.laid ht.counts ht.listed

/-- The blocks once `b` is free. -/
def freeBlock (bs : List Block) (b : Block) : List Block := replaceBlock bs b [b.freed]

theorem freeBlock_eq (ht : Tiled s (as ++ b :: cs)) :
    freeBlock (as ++ b :: cs) b = as ++ b.freed :: cs := by
  obtain ⟨has, hcs⟩ := ht.not_mem_around
  rw [freeBlock, replaceBlock_eq has hcs, List.singleton_append]

theorem used_freeBlock (bs : List Block) (b : Block) : used (freeBlock bs b) = used bs \ {b} := by
  ext d
  simp only [mem_used, freeBlock, replaceBlock, List.mem_flatMap, Set.mem_sdiff,
    Set.mem_singleton_iff]
  constructor
  · rintro ⟨⟨c, hc, hd⟩, hf⟩
    split at hd
    next =>
      rw [List.mem_singleton.mp hd] at hf
      cases hf
    next hne =>
      obtain rfl := List.mem_singleton.mp hd
      exact ⟨⟨hc, hf⟩, hne⟩
  · rintro ⟨⟨hd, hf⟩, hne⟩
    exact ⟨⟨d, hd, by rw [if_neg hne]; exact List.mem_singleton_self d⟩, hf⟩

/-- **`sfree` on a block of the heap.** -/
theorem sfree_turns (hsh : Shape L s bs) (hb : b ∈ used bs) (hT : b.size < mmapThreshold)
    (h : (sfree b.payload).run s = .ok ((), s')) :
    Turns (mergeOk (freeBlock bs b)) L (addrs bs) L s s' bs (coalesce (freeBlock bs b)) := by
  obtain ⟨hbm, hbf⟩ := hb
  obtain ⟨as, cs, rfl⟩ := List.append_of_mem hbm
  obtain ⟨-, s₁, h₁, h₂⟩ := sfree_used hsh.tiled hbm hbf hT h
  rw [freeBlock_eq hsh.tiled]
  have ht₁ := markFree_turns hsh hbf h₁
  have ht₂ := merge_turns ht₁.shape h₂
  have hsub : addrs (coalesce (as ++ b.freed :: cs)) ⊆ addrs (as ++ b :: cs) := by
    refine (addrs_coalesce _).trans (addrs_setFree true).subset
  have ht := (ht₁.mono subset_rfl (Set.singleton_subset_iff.mpr (mem_addrs hbm))).trans
    (ht₂.mono subset_rfl hsub)
  exact ht.imp fun hok => ⟨trivial, hok⟩

/-! ### Moving a block -/

/-- The block `q` has room for the payload of `b`, which is copied into it. -/
theorem Shape.copy (h : Shape (addrs bs) s bs) (hq : q ∈ bs) (hsz : b.size ≤ q.size) :
    Shape (addrs bs) (s.setMem (s.sys.mem.copy q.payload b.payload b.size)) bs := by
  refine h.setMem rfl fun x hx y h₁ h₂ => Memory.copy_byte_of_not_mem _ ?_
  have := (h.tiled.tiles (List.ne_nil_of_mem hq)).header_apart hq hx
  simp only [Block.stop, Block.payload, sizeofMetadata] at this ⊢
  omega

/-- **Cases g and h**, when the new block is in the heap. -/
theorem reallocMove_resized (hw : Whole s bs) (ho : ListBlocks s order) (hpos : 0 < s.sys.brk)
    (hbrk : s.sys.base ≤ s.sys.brk) (hbase : bs ≠ [] → s.sys.base ≤ s.heap.firsthead)
    (hb : b ∈ used bs) (hT : b.size < mmapThreshold) (hlt : b.size < size)
    (hs : size < mmapThreshold) (hr : r ≠ 0)
    (h : (reallocMove b.addr b.payload size).run s = .ok (r, s')) :
    let g := granted order bs s.sys.brk size
    Resized (smallocOk order bs size ∧ mergeOk (freeBlock g.2 b)) True s s' bs b size r
      (g.1, coalesce (freeBlock g.2 b)) := by
  intro g
  obtain ⟨hr₀, -⟩ | ⟨-, s₁, h₁, h₂⟩ := reallocMove_cases h
  · exact absurd hr₀ hr
  have hserved := smalloc_heap hw ho hpos hbrk hbase hs hr h₁
  have hg : Grants bs size g := granted_grants hw.tiled (hw.perm_order ho).1
  obtain ⟨hrg, hsh, hout, hint⟩ := hserved
  have hgm : g.1 ∈ g.2 := (hg.inUse.symm ▸ Set.mem_insert _ _ : g.1 ∈ used g.2).1
  have hbg : b ∈ used g.2 := hg.inUse.symm ▸ Set.mem_insert_of_mem _ hb
  have hsz : b.size ≤ g.1.size := hlt.le.trans hg.le
  rw [hrg, hsh.tiled.size_eq hbg.1] at h₂
  have hcopied := hsh.copy hgm hsz
  have hturns := sfree_turns hcopied hbg hT h₂
  refine ⟨hrg, (hout.copy hgm hsz).turns hturns fun x hx => ?_, fun _ i hi => ?_⟩
  · exact hcopied.tiled.header_bounds (hx.elim id id)
  · -- the call of `sfree` writes headers only
    have hap : ∀ x ∈ addrs g.2, x + 40 ≤ g.1.payload + i ∨ g.1.payload + i < x := fun x hx =>
      (hsh.tiled.tiles (List.ne_nil_of_mem hgm)).byte_apart hgm (by omega) hx
    rw [hturns.step.byte_of_apart hap hap]
    show (s₁.sys.mem.copy _ _ _).byte _ = _
    rw [copy_byte (by omega)]
    refine hint b hb _ (by omega) ?_
    simp only [Block.payload, Block.stop, sizeofMetadata]
    omega

/-! ### Splitting a block that stays where it is -/

/-- **Case a.** -/
theorem reuse_resized (hw : Whole s (as ++ b :: cs)) (hbase : s.sys.base ≤ s.heap.firsthead)
    (hle : size ≤ b.size) (h : (split b.addr size).run s = .ok ((), s')) :
    Resized (splitOk (as ++ cs) b size) True s s' (as ++ b :: cs) b size b.payload
      (b.taken size, as ++ (splitBlock b size ++ cs)) := by
  have hbm : b ∈ as ++ b :: cs := by simp
  have ht := split_turns hw.shape (.inl hle) (hw.tiled.split_spread (.inl hle)) h
  rw [← addrs_split] at ht
  have hne := split_ne_nil as b size cs
  have hsub : addrs (splitBlock b size) ⊆ addrs (as ++ (splitBlock b size ++ cs)) := by
    rw [addrs_split]
    exact Set.subset_union_right
  have hin := hw.tiled.header_bounds_or ht.shape.tiled ht.step.firsthead ht.step.brk
  refine ⟨(b.taken_payload size).symm, ht.outcome hw hbase fun x hx => hin x (.inr ?_),
    fun _ i hi => ?_⟩
  · exact hx.elim id fun hx => hsub hx
  have hap : ∀ x ∈ addrs (as ++ (splitBlock b size ++ cs)),
      x + 40 ≤ b.payload + i ∨ b.payload + i < x := fun x hx => by
    have hi' : i < (b.taken size).size := by
      have := b.le_taken hle
      omega
    have := (ht.shape.tiled.tiles hne).byte_apart (taken_mem as b size cs) hi' hx
    rwa [Block.taken_payload] at this
  rw [Block.taken_payload]
  exact ht.step.byte_of_apart hap fun x hx => hap x (hsub hx)

/-! ### All paths -/

/-- The block that the path returns and the blocks of the heap then: `order` are the blocks in the
order of the list. -/
def Path.result (order as : List Block) (b : Block) (cs : List Block) (brk size : ℕ) :
    Path → Block × List Block
  | reuse => (b.taken size, as ++ (splitBlock b size ++ cs))
  | lower p => ((p.absorb b).taken size,
      coalesce (as.dropLast ++ (splitBlock (p.absorb b) size ++ cs)))
  | lowerGrow p => (⟨p.addr, size, false⟩, as.dropLast ++ [⟨p.addr, size, false⟩])
  | grow => (⟨b.addr, size, false⟩, as ++ [⟨b.addr, size, false⟩])
  | upper n => ((b.freed.absorb n).taken size,
      as ++ (splitBlock (b.freed.absorb n) size ++ cs.tail))
  | both p n => (((p.absorb b).absorb n).taken size,
      as.dropLast ++ (splitBlock ((p.absorb b).absorb n) size ++ cs.tail))
  | bothGrow p _ => (⟨p.addr, size, false⟩, as.dropLast ++ [⟨p.addr, size, false⟩])
  | upperGrow _ => (⟨b.addr, size, false⟩, as ++ [⟨b.addr, size, false⟩])
  | move =>
    let g := granted order (as ++ b :: cs) brk size
    (g.1, coalesce (freeBlock g.2 b))

/-- No insertion on the path drops a block from the list. -/
def Path.listOk (order as : List Block) (b : Block) (cs : List Block) (brk size : ℕ) :
    Path → Prop
  | reuse => splitOk (as ++ cs) b size
  | lower p => insertOk (as.dropLast ++ cs) (p.absorb b).size ∧
      splitOk (as.dropLast ++ cs) (p.absorb b) size ∧
      mergeOk (as.dropLast ++ (splitBlock (p.absorb b) size ++ cs))
  | lowerGrow p => insertOk as.dropLast (p.absorb b).size ∧ insertOk as.dropLast size
  | grow => insertOk as size
  | upper n => insertOk (as ++ cs.tail) (b.freed.absorb n).size ∧
      splitOk (as ++ cs.tail) (b.freed.absorb n) size
  | both p n => (insertOk (as.dropLast ++ n :: cs.tail) (p.absorb b).size ∧
      insertOk (as.dropLast ++ cs.tail) ((p.absorb b).absorb n).size) ∧
      splitOk (as.dropLast ++ cs.tail) ((p.absorb b).absorb n) size
  | bothGrow p n => (insertOk (as.dropLast ++ [n]) (p.absorb b).size ∧
      insertOk as.dropLast ((p.absorb b).absorb n).size) ∧ insertOk as.dropLast size
  | upperGrow n => insertOk as (b.freed.absorb n).size ∧ insertOk as size
  | move =>
    let bs := as ++ b :: cs
    smallocOk order bs size ∧ mergeOk (freeBlock (granted order bs brk size).2 b)

/-- The header that `split` writes before the payload is copied is not in the `size` field of the
old block. -/
def Path.KeepsSize (b : Block) (size : ℕ) : Path → Prop
  | lower p => SplitAvoids (p.absorb b) size (b.addr + 8) (b.addr + 16)
  | _ => True

/-- The header that `split` writes before the payload is copied is not in the old payload. -/
def Path.KeepsData (b : Block) (size : ℕ) : Path → Prop
  | lower p => SplitAvoids (p.absorb b) size b.payload b.stop
  | _ => True

/-- **Every path of `srealloc`** on a block of the heap. -/
theorem Path.resized {path : Path} (hw : Whole s (as ++ b :: cs))
    (hn : NoAdjacentFree (as ++ b :: cs)) (ho : ListBlocks s order) (hpos : 0 < s.sys.brk)
    (hbrk : s.sys.base ≤ s.sys.brk) (hbase : s.sys.base ≤ s.heap.firsthead) (hb : b.free = false)
    (hT : b.size < mmapThreshold) (hs : size ≤ sizeLimit) (hr : r ≠ 0)
    (hpath : path.Chosen as b cs size) (hkeep : path.KeepsSize b size)
    (hmove : path = .move → size < mmapThreshold)
    (h : (path.code as b cs b.payload size).run s = .ok (r, s')) :
    Resized (path.listOk order as b cs s.sys.brk size) (path.KeepsData b size) s s'
      (as ++ b :: cs) b size r (path.result order as b cs s.sys.brk size) := by
  cases path with
  | reuse =>
      simp only [Path.code, run_bind_eq_ok, pure_eq_ok] at h
      obtain ⟨_, s₁, h, rfl, rfl⟩ := h
      exact reuse_resized hw hbase hpath h
  | lower p =>
      obtain ⟨⟨as, rfl⟩, hp, hlt, hle⟩ := hpath
      rw [List.append_assoc, List.singleton_append] at hw hn ⊢
      simp only [Path.result, Path.listOk, List.dropLast_concat]
      exact reallocLower_resized hw hn hbase hp hb hlt hs hle hkeep h
  | lowerGrow p =>
      obtain ⟨⟨as, rfl⟩, rfl, hp, hlt⟩ := hpath
      rw [List.append_assoc, List.singleton_append] at hw hn ⊢
      simp only [Path.result, Path.listOk, List.dropLast_concat]
      exact reallocLowerGrow_resized hw hn hbase hp hb hlt hs hr h
  | grow =>
      obtain ⟨rfl, hlt⟩ := hpath
      exact reallocGrow_resized hw hbase hb hlt hs hr h
  | upper n =>
      obtain ⟨⟨cs, rfl⟩, hnf, hlt, hle⟩ := hpath
      exact reallocUpper_resized hw hn hbase hb hnf hlt hs h
  | both p n =>
      obtain ⟨⟨as, rfl⟩, ⟨cs, rfl⟩, hp, hnf, hlt, hle⟩ := hpath
      rw [List.append_assoc, List.singleton_append] at hw hn ⊢
      simp only [Path.result, Path.listOk, List.dropLast_concat, List.tail_cons]
      exact reallocBoth_resized hw hn hbase hp hb hnf hlt hs hle h
  | bothGrow p n =>
      obtain ⟨⟨as, rfl⟩, rfl, hp, hnf, hlt⟩ := hpath
      rw [List.append_assoc, List.singleton_append] at hw hn ⊢
      simp only [Path.result, Path.listOk, List.dropLast_concat]
      exact reallocBothGrow_resized hw hn hbase hp hb hnf hlt hs hr h
  | upperGrow n =>
      obtain ⟨rfl, hnf, hl, hlt⟩ := hpath
      refine reallocUpperGrow_resized hw hn hbase hb hnf hl ?_ hs hr h
      simp only [Block.absorb, sizeofMetadata] at hlt ⊢
      omega
  | move =>
      exact reallocMove_resized hw ho hpos hbrk (fun _ => hbase) ⟨by simp, hb⟩ hT hpath
        (hmove rfl) hr h

/-! ### The block that is returned -/

/-- `g.1` takes the place of the block `b`, and all other blocks in use stay. -/
structure Regrants (bs : List Block) (b : Block) (size : ℕ) (g : Block × List Block) : Prop where
  free : g.1.free = false
  le : size ≤ g.1.size
  inUse : used g.2 = insert g.1 (used bs \ {b})
  new : g.1 ∉ used bs \ {b}

/-- The block `c` is handed out first, and then `b` goes. -/
theorem Regrants.of_grant {ds : List Block} (hf : c.free = false) (hle : size ≤ c.size)
    (hc : c ∉ used bs) (hb : b ∈ used bs) (hg : used bs' = insert c (used bs))
    (hd : used ds = used bs' \ {b}) : Regrants bs b size (c, ds) := by
  refine ⟨hf, hle, ?_, fun h => hc h.1⟩
  have hne : c ∉ ({b} : Set Block) := fun h => hc (Set.mem_singleton_iff.mp h ▸ hb)
  rw [hd, hg, Set.insert_sdiff_of_notMem _ hne]

/-- The blocks `ms`, of which `b` is the only one in use, become `ds`, of which `q` is. -/
theorem regrants_of_middle (ms cs : List Block) {ds : List Block} (ht : Tiled s (as ++ (ms ++ cs)))
    (hm : used ms = {b}) (hd : used ds = {q}) (hq : q.addr ∈ addrs ms) (hle : size ≤ q.size) :
    Regrants (as ++ (ms ++ cs)) b size (q, as ++ (ds ++ cs)) := by
  have hbm : b ∈ used ms := hm ▸ Set.mem_singleton b
  have hqd : q ∈ used ds := hd ▸ Set.mem_singleton q
  have hrest : used (as ++ (ms ++ cs)) \ {b} = used (as ++ cs) := by
    rw [used_append, used_append, used_append, hm]
    ext d
    simp only [Set.mem_sdiff, Set.mem_union, Set.mem_singleton_iff]
    constructor
    · rintro ⟨hd | hd | hd, hne⟩
      · exact .inl hd
      · exact absurd hd hne
      · exact .inr hd
    · intro hd
      refine ⟨hd.imp_right .inr, fun e => ?_⟩
      have hda : d ∈ as ++ cs := List.mem_append.mpr (hd.imp And.left And.left)
      exact ht.addr_ne ms hda hbm.1 (congrArg Block.addr e)
  refine ⟨hqd.2, hle, ?_, ?_⟩
  · rw [hrest, used_append, used_append, used_append, hd]
    ext d
    simp only [Set.mem_insert_iff, Set.mem_union, Set.mem_singleton_iff]
    tauto
  · rw [hrest]
    intro hqa
    obtain ⟨m, hmm, he⟩ := hq
    exact ht.addr_ne ms hqa.1 hmm he.symm

theorem used_singleton (h : b.free = false) : used [b] = {b} := by
  rw [used_cons h, used_nil, insert_empty_eq]

theorem used_splitBlock (b : Block) (n : ℕ) : used (splitBlock b n) = {b.taken n} := by
  rw [splitBlock_eq, used_cons (b.taken_free n), used_rest, insert_empty_eq]

/-- **What `srealloc` returns** takes the place of the old block. -/
theorem Path.result_regrants {path : Path} (ht : Tiled s (as ++ b :: cs))
    (hp : order.Perm (as ++ b :: cs)) (hb : b.free = false) (hpath : path.Chosen as b cs size) :
    Regrants (as ++ b :: cs) b size (path.result order as b cs s.sys.brk size) := by
  cases path with
  | reuse =>
      refine regrants_of_middle [b] _ ht (used_singleton hb) (used_splitBlock b size) ?_ ?_
      · rw [Block.taken_addr]
        exact mem_addrs (List.mem_singleton_self b)
      · exact b.le_taken hpath
  | lower p =>
      obtain ⟨⟨as, rfl⟩, hpf, hlt, hle⟩ := hpath
      rw [List.append_assoc, List.singleton_append] at ht ⊢
      have hm : used [p, b] = {b} := by rw [used_cons_free hpf, used_singleton hb]
      have h := regrants_of_middle [p, b] _ ht hm (used_splitBlock (p.absorb b) size)
        (by rw [Block.taken_addr]; exact mem_addrs (b := p) List.mem_cons_self) (Block.le_taken hle)
      simp only [Path.result, List.dropLast_concat]
      exact ⟨h.free, h.le, (used_coalesce _).trans h.inUse, h.new⟩
  | lowerGrow p =>
      obtain ⟨⟨as, rfl⟩, rfl, hpf, hlt⟩ := hpath
      rw [List.append_assoc, List.singleton_append] at ht ⊢
      have hm : used [p, b] = {b} := by rw [used_cons_free hpf, used_singleton hb]
      simp only [Path.result, List.dropLast_concat]
      exact regrants_of_middle [p, b] [] ht hm (used_singleton rfl)
        (mem_addrs (b := p) List.mem_cons_self) le_rfl
  | grow =>
      obtain ⟨rfl, hlt⟩ := hpath
      exact regrants_of_middle [b] _ ht (used_singleton hb) (used_singleton rfl)
        (mem_addrs (b := b) List.mem_cons_self) le_rfl
  | upper n =>
      obtain ⟨⟨cs, rfl⟩, hnf, hlt, hle⟩ := hpath
      have hm : used [b, n] = {b} := by
        rw [used_cons hb, used_cons_free hnf, used_nil, insert_empty_eq]
      refine regrants_of_middle [b, n] _ ht hm (used_splitBlock (b.freed.absorb n) size) ?_ ?_
      · rw [Block.taken_addr]
        exact mem_addrs (b := b) List.mem_cons_self
      · exact Block.le_taken hle
  | both p n =>
      obtain ⟨⟨as, rfl⟩, ⟨cs, rfl⟩, hpf, hnf, hlt, hle⟩ := hpath
      rw [List.append_assoc, List.singleton_append] at ht ⊢
      have hm : used [p, b, n] = {b} := by
        rw [used_cons_free hpf, used_cons hb, used_cons_free hnf, used_nil, insert_empty_eq]
      simp only [Path.result, List.dropLast_concat, List.tail_cons]
      refine regrants_of_middle [p, b, n] _ ht hm
        (used_splitBlock ((p.absorb b).absorb n) size) ?_ (Block.le_taken hle)
      rw [Block.taken_addr]
      exact mem_addrs (b := p) List.mem_cons_self
  | bothGrow p n =>
      obtain ⟨⟨as, rfl⟩, rfl, hpf, hnf, hlt⟩ := hpath
      rw [List.append_assoc, List.singleton_append] at ht ⊢
      have hm : used [p, b, n] = {b} := by
        rw [used_cons_free hpf, used_cons hb, used_cons_free hnf, used_nil, insert_empty_eq]
      simp only [Path.result, List.dropLast_concat]
      exact regrants_of_middle [p, b, n] [] ht hm (used_singleton rfl)
        (mem_addrs (b := p) List.mem_cons_self) le_rfl
  | upperGrow n =>
      obtain ⟨rfl, hnf, hl, hlt⟩ := hpath
      have hm : used [b, n] = {b} := by
        rw [used_cons hb, used_cons_free hnf, used_nil, insert_empty_eq]
      exact regrants_of_middle [b, n] [] ht hm (used_singleton rfl)
        (mem_addrs (b := b) List.mem_cons_self) le_rfl
  | move =>
      have hg : Grants (as ++ b :: cs) size (granted order (as ++ b :: cs) s.sys.brk size) :=
        granted_grants ht hp
      have hbu : b ∈ used (as ++ b :: cs) := ⟨by simp, hb⟩
      refine .of_grant hg.free hg.le hg.new hbu hg.inUse ?_
      rw [used_coalesce, used_freeBlock]

/-- Case a does not leave the rest of the block next to a free block. -/
def Path.KeepsParted (b : Block) (cs : List Block) (size : ℕ) : Path → Prop
  | reuse => canSplit b.size size = true → ∀ c ∈ cs.head?, c.free = false
  | _ => True

/-- **No two free neighbours** but on the path that shrinks a block in place. -/
theorem Path.result_parted {path : Path} {brk : ℕ} (hn : NoAdjacentFree (as ++ b :: cs))
    (hpath : path.Chosen as b cs size) (hkeep : path.KeepsParted b cs size) :
    NoAdjacentFree (path.result order as b cs brk size).2 := by
  have has := hn.left
  have hcs : NoAdjacentFree cs := (noAdjacentFree_cons.mp hn.right).2
  -- the neighbour of a free block is in use
  have hupper : ∀ {n ds}, cs = n :: ds → n.free = true →
      NoAdjacentFree ds ∧ ∀ c ∈ ds.head?, c.free = false := by
    rintro n ds rfl hnf
    obtain ⟨h₁, h₂⟩ := noAdjacentFree_cons.mp hcs
    refine ⟨h₂, fun c hc => ?_⟩
    have := h₁ c hc
    simpa [Block.Parted, hnf] using this
  have hdrop : NoAdjacentFree as.dropLast := by
    by_cases hne : as = []
    · rw [hne]
      exact .nil
    · rw [← List.dropLast_append_getLast hne] at has
      exact has.left
  cases path with
  | reuse => exact noAdjacentFree_split has hcs hkeep
  | lower p => exact coalesce_noAdjacentFree _
  | lowerGrow p => exact noAdjacentFree_middle rfl hdrop .nil
  | grow => exact noAdjacentFree_middle rfl has .nil
  | upper n =>
      obtain ⟨⟨ds, e⟩, hnf, -⟩ := hpath
      obtain ⟨h₁, h₂⟩ := hupper e hnf
      rw [Path.result, e]
      exact noAdjacentFree_split has h₁ fun _ => h₂
  | both p n =>
      obtain ⟨-, ⟨ds, e⟩, -, hnf, -⟩ := hpath
      obtain ⟨h₁, h₂⟩ := hupper e hnf
      rw [Path.result, e]
      exact noAdjacentFree_split hdrop h₁ fun _ => h₂
  | bothGrow p n => exact noAdjacentFree_middle rfl hdrop .nil
  | upperGrow n => exact noAdjacentFree_middle rfl has .nil
  | move => exact coalesce_noAdjacentFree _

end OsProjects.Malloc3
