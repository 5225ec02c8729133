import OsProjects.VirtualMemory.Malloc3.Paths

/-! # Well-formed heaps

The properties of a heap that a client or a reader can state with walks alone: the walk in
address order, the chain of the size-ordered list and the chain of the `mmap` list.
`WellFormed` collects them; `WellFormed.whole` connects them with the form that the proofs
use. -/

namespace OsProjects.Malloc3

variable {s s' : State} {as bs cs mm order : List Block} {b c : Block} {m : Memory} {p e : ℕ}

/-- `prev` of each block is the block in front of it, and `p` for the first one. -/
def BackLinks (m : Memory) : ℕ → List Block → Prop
  | _, [] => True
  | p, b :: bs => getField m .prev b.addr = p ∧ BackLinks m b.addr bs

instance decidableBackLinks (m : Memory) : (p : ℕ) → (bs : List Block) →
    Decidable (BackLinks m p bs)
  | _, [] => .isTrue trivial
  | p, b :: bs =>
    have := decidableBackLinks m b.addr bs
    inferInstanceAs (Decidable (getField m .prev b.addr = p ∧ BackLinks m b.addr bs))

/-- The chain from `Heap.head` visits each of the blocks `bs` exactly once and no other node,
has non-decreasing sizes and is linked backwards as well; the head has no predecessor. -/
def CompleteList (s : State) (bs : List Block) : Prop :=
  ∃ order, ListBlocks s order ∧ order.Perm bs ∧ (order.Pairwise fun b c => b.size ≤ c.size) ∧
    BackLinks s.sys.mem 0 order

/-- The pages that `b` lies on are those from `b.addr / pageSize` up to `b.lastPage`. -/
def Block.lastPage (b : Block) : ℕ := pageCeil b.stop

/-- The memory that the allocator has: the heap from the first program break to the present one,
and the page-aligned regions of the `mmap` blocks, which share no page with each other or with
the heap, if the heap has any. -/
structure Regions (s : State) (mm : List Block) : Prop where
  base_pos : 0 < s.sys.base
  base_le : s.sys.base ≤ s.sys.brk
  brk_le : s.sys.brk ≤ userTop
  null : s.sys.mem.page 0 = false
  pos : ∀ b ∈ mm, b.addr ≠ 0
  aligned : ∀ b ∈ mm, b.addr % pageSize = 0
  le : ∀ b ∈ mm, b.stop ≤ userTop
  mapped : ∀ b ∈ mm, ∀ p, b.addr / pageSize ≤ p → p < b.lastPage → s.sys.mem.page p = true
  heapMapped : ∀ p, s.sys.base / pageSize ≤ p → p < pageCeil s.sys.brk → s.sys.mem.page p = true
  apart : mm.Pairwise fun b c =>
    b.lastPage ≤ c.addr / pageSize ∨ c.lastPage ≤ b.addr / pageSize
  heap : s.sys.base / pageSize < pageCeil s.sys.brk → ∀ b ∈ mm,
    b.lastPage ≤ s.sys.base / pageSize ∨ pageCeil s.sys.brk ≤ b.addr / pageSize

/-- The heap holds the blocks `bs` and the `mmap` list the blocks `mm`. -/
structure WellFormed (s : State) (bs mm : List Block) : Prop where
  heap : HeapBlocks s bs
  first : s.heap.firsthead = firstAddr bs
  base : bs ≠ [] → s.sys.base ≤ s.heap.firsthead
  wilderness : s.heap.wilderness = lastAddr bs
  list : CompleteList s bs
  coalesced : NoAdjacentFree bs
  mmap : MmBlocks s mm
  mmapBack : BackLinks s.sys.mem 0 mm
  mmapKind : ∀ b ∈ mm, mmapThreshold ≤ b.size ∧ b.free = false
  regions : Regions s mm

/-! ### Walks and their blocks -/

theorem HeapWalk.unique (h : HeapWalk m e p bs) (h' : HeapWalk m e p cs) : bs = cs := by
  induction bs generalizing p cs with
  | nil =>
      cases cs with
      | nil => rfl
      | cons c cs =>
          obtain ⟨hc, ht⟩ := tiles_cons.mp (heapWalk_iff.mp h').1
          have hle := ht.le
          have hp : p = e := h
          simp only [Block.stop, sizeofMetadata] at hle
          omega
  | cons b bs ih =>
      cases cs with
      | nil =>
          obtain ⟨hb, ht⟩ := tiles_cons.mp (heapWalk_iff.mp h).1
          have hle := ht.le
          have hp : p = e := h'
          simp only [Block.stop, sizeofMetadata] at hle
          omega
      | cons c cs =>
          obtain ⟨rfl, h⟩ := h
          obtain ⟨rfl, h'⟩ := h'
          rw [ih h h']

theorem HeapBlocks.unique (h : HeapBlocks s bs) (h' : HeapBlocks s cs) : bs = cs := by
  rcases h with ⟨h₀, rfl⟩ | ⟨h₀, h⟩ <;> rcases h' with ⟨h₀', rfl⟩ | ⟨h₀', h'⟩
  · rfl
  · exact absurd h₀ h₀'
  · exact absurd h₀' h₀
  · exact h.unique h'

theorem ChainWalk.unique (h : ChainWalk m p bs) (h' : ChainWalk m p cs) : bs = cs := by
  induction bs generalizing p cs with
  | nil =>
      cases cs with
      | nil => rfl
      | cons c cs => exact absurd h h'.1
  | cons b bs ih =>
      cases cs with
      | nil => exact absurd h' h.1
      | cons c cs =>
          obtain ⟨-, rfl, h⟩ := h
          obtain ⟨-, rfl, h'⟩ := h'
          rw [ih h h']

/-- A chain with its back links is a linked list whose headers are right. -/
theorem chain_iff {nx pv : ℕ → ℕ} (hn : ∀ p, p ≠ 0 → nx p = getField m .next p)
    (hp : ∀ p, pv p = getField m .prev p) {a : ℕ} :
    ChainWalk m (nx a) order ∧ BackLinks m a order ↔ Headers m order ∧
      Linked nx pv a (order.map Block.addr) ∧ ∀ b ∈ order.head?, getField m .prev b.addr = a := by
  induction order generalizing a with
  | nil => simp [ChainWalk, BackLinks, Headers, Linked]
  | cons b l ih =>
      simp only [ChainWalk, BackLinks, Headers, List.forall_mem_cons, List.map_cons, Linked,
        List.head?_cons, Option.mem_def, Option.some.injEq, forall_eq']
      constructor
      · rintro ⟨⟨h₀, hb, hc⟩, hpb, hback⟩
        have ha : nx a = b.addr := by rw [hb]; rfl
        rw [ha] at h₀ hb hc
        rw [← hn _ h₀] at hc
        obtain ⟨hh, hL, -⟩ := ih.mp ⟨hc, hback⟩
        exact ⟨⟨hb.symm, hh⟩, ⟨ha, h₀, fun _ => (hp _).trans hpb, hL⟩, hpb⟩
      · rintro ⟨⟨hb, hh⟩, ⟨ha, h₀, -, hL⟩, hpb⟩
        have hfirst : ∀ c ∈ l.head?, getField m .prev c.addr = b.addr := by
          intro c hc
          cases l with
          | nil => simp at hc
          | cons d l =>
              obtain rfl : d = c := by simpa using hc
              exact (hp _).symm.trans (hL.2.2.1 h₀)
        obtain ⟨hc, hback⟩ := ih.mpr ⟨hh, hL, hfirst⟩
        rw [ha]
        rw [hn _ h₀] at hc
        exact ⟨⟨h₀, hb.symm, hc⟩, hpb, hback⟩

theorem order_iff : ListBlocks s order ∧ BackLinks s.sys.mem 0 order ↔ Headers s.sys.mem order ∧
    Linked (nxt s) (prv s) 0 (order.map Block.addr) ∧ FirstPrev s (order.map Block.addr) := by
  have hn : ∀ p, p ≠ 0 → nxt s p = getField s.sys.mem .next p := fun p hp => if_neg hp
  have hp : ∀ p, prv s p = getField s.sys.mem .prev p := fun p => rfl
  have h : ChainWalk s.sys.mem (nxt s 0) order ∧ BackLinks s.sys.mem 0 order ↔ _ := chain_iff hn hp
  refine Iff.trans h ?_
  simp [FirstPrev, prv]

/-- The two forms of completeness agree. -/
theorem completeList_iff (hh : Headers s.sys.mem bs) : CompleteList s bs ↔ Listed s bs := by
  constructor
  · rintro ⟨l, h₁, hp, hsort, h₂⟩
    obtain ⟨-, hL, hF⟩ := order_iff.mp ⟨h₁, h₂⟩
    exact ⟨l, hp, hsort, hL, hF⟩
  · rintro ⟨l, hp, hsort, hL, hF⟩
    obtain ⟨h₁, h₂⟩ := order_iff.mpr ⟨fun b hb => hh b (hp.mem_iff.mp hb), hL, hF⟩
    exact ⟨l, h₁, hp, hsort, h₂⟩

theorem Tiled.heapBlocks (h : Tiled s bs) : HeapBlocks s bs := by
  cases bs with
  | nil => exact .inl ⟨h.first, rfl⟩
  | cons b bs =>
      exact .inr ⟨h.pos (by simp), heapWalk_iff.mpr ⟨h.tiles (by simp), h.headers⟩⟩

/-! ### Heaps that can be checked -/

instance decidableHeapWalk (m : Memory) (stop : ℕ) : (p : ℕ) → (bs : List Block) →
    Decidable (HeapWalk m stop p bs)
  | _, [] => inferInstanceAs (Decidable (_ = stop))
  | p, b :: bs =>
    have := decidableHeapWalk m stop (p + sizeofMetadata + b.size) bs
    inferInstanceAs (Decidable (b = blockAt m p ∧
      HeapWalk m stop (p + sizeofMetadata + b.size) bs))

instance (s : State) (bs : List Block) : Decidable (HeapBlocks s bs) := by
  unfold HeapBlocks; infer_instance

instance (m : Memory) (bs : List Block) : Decidable (Headers m bs) := by
  unfold Headers; infer_instance

instance (s : State) (bs : List Block) : Decidable (Laid s bs) :=
  decidable_of_iff (HeapBlocks s bs ∧ s.heap.firsthead = firstAddr bs ∧ Headers s.sys.mem bs ∧
      s.sys.brk ≤ userTop ∧ s.sys.mem.page 0 = false ∧ s.heap.wilderness = lastAddr bs) (by
    constructor
    · rintro ⟨⟨h₀, rfl⟩ | ⟨h₀, hw⟩, h₁, h₂, h₃, h₄, h₅⟩
      · exact ⟨⟨h₁, by simp, by simp, h₂, h₃, h₄⟩, h₅⟩
      · exact ⟨⟨h₁, fun _ => h₀, fun _ => (heapWalk_iff.mp hw).1, h₂, h₃, h₄⟩, h₅⟩
    · intro h
      exact ⟨h.tiled.heapBlocks, h.tiled.first, h.tiled.headers, h.tiled.brk_le, h.tiled.null,
        h.wilderness⟩)

/-- The first `n` blocks of the chain from `p`. -/
def chain (m : Memory) : ℕ → ℕ → List Block
  | 0, _ => []
  | n + 1, p => blockAt m p :: chain m n (getField m .next p)

theorem ChainWalk.eq_chain (h : ChainWalk m p bs) : bs = chain m bs.length p := by
  induction bs generalizing p with
  | nil => rfl
  | cons b bs ih =>
      obtain ⟨-, rfl, h⟩ := h
      rw [List.length_cons, chain, ← ih h]

instance (s : State) (bs : List Block) : Decidable (CompleteList s bs) :=
  decidable_of_iff (ListBlocks s (chain s.sys.mem bs.length s.heap.head) ∧
      (chain s.sys.mem bs.length s.heap.head).Perm bs ∧
      (chain s.sys.mem bs.length s.heap.head).Pairwise (fun b c => b.size ≤ c.size) ∧
      BackLinks s.sys.mem 0 (chain s.sys.mem bs.length s.heap.head)) (by
    constructor
    · exact fun h => ⟨_, h⟩
    · rintro ⟨order, h, hp, hr⟩
      have e : order = chain s.sys.mem bs.length s.heap.head := by
        rw [← hp.length_eq]
        exact ChainWalk.eq_chain h
      exact e ▸ ⟨h, hp, hr⟩)

instance (s : State) (mm : List Block) : Decidable (Regions s mm) :=
  decidable_of_iff ((0 < s.sys.base ∧ s.sys.base ≤ s.sys.brk ∧ s.sys.brk ≤ userTop ∧
      s.sys.mem.page 0 = false) ∧
      (∀ b ∈ mm, b.addr ≠ 0 ∧ b.addr % pageSize = 0 ∧ b.stop ≤ userTop ∧
        ∀ p < b.lastPage, b.addr / pageSize ≤ p → s.sys.mem.page p = true) ∧
      (∀ p < pageCeil s.sys.brk, s.sys.base / pageSize ≤ p → s.sys.mem.page p = true) ∧
      (mm.Pairwise fun b c => b.lastPage ≤ c.addr / pageSize ∨ c.lastPage ≤ b.addr / pageSize) ∧
      (s.sys.base / pageSize < pageCeil s.sys.brk → ∀ b ∈ mm,
        b.lastPage ≤ s.sys.base / pageSize ∨ pageCeil s.sys.brk ≤ b.addr / pageSize)) (by
    constructor
    · rintro ⟨⟨h₁, h₂, h₃, h₄⟩, h₅, h₆, h₇, h₈⟩
      exact ⟨h₁, h₂, h₃, h₄, fun b hb => (h₅ b hb).1, fun b hb => (h₅ b hb).2.1,
        fun b hb => (h₅ b hb).2.2.1, fun b hb p hp hp' => (h₅ b hb).2.2.2 p hp' hp,
        fun p hp hp' => h₆ p hp' hp, h₇, h₈⟩
    · intro h
      exact ⟨⟨h.base_pos, h.base_le, h.brk_le, h.null⟩, fun b hb => ⟨h.pos b hb, h.aligned b hb,
        h.le b hb, fun p hp hp' => h.mapped b hb p hp' hp⟩, fun p hp hp' => h.heapMapped p hp' hp,
        h.apart, h.heap⟩)

instance (s : State) (bs mm : List Block) : Decidable (WellFormed s bs mm) :=
  decidable_of_iff (HeapBlocks s bs ∧ s.heap.firsthead = firstAddr bs ∧
      (bs ≠ [] → s.sys.base ≤ s.heap.firsthead) ∧ s.heap.wilderness = lastAddr bs ∧
      CompleteList s bs ∧ NoAdjacentFree bs ∧ ChainWalk s.sys.mem s.heap.mmhead mm ∧
      BackLinks s.sys.mem 0 mm ∧ (∀ b ∈ mm, mmapThreshold ≤ b.size ∧ b.free = false) ∧
      Regions s mm)
    ⟨fun ⟨h₁, h₂, h₃, h₄, h₅, h₆, h₇, h₈, h₉, h₁₀⟩ => ⟨h₁, h₂, h₃, h₄, h₅, h₆, h₇, h₈, h₉, h₁₀⟩,
      fun h => ⟨h.heap, h.first, h.base, h.wilderness, h.list, h.coalesced, h.mmap, h.mmapBack,
        h.mmapKind, h.regions⟩⟩

/-! ### The form that the proofs use -/

theorem WellFormed.tiled (h : WellFormed s bs mm) : Tiled s bs := by
  rcases h.heap with ⟨h₀, rfl⟩ | ⟨h₀, hw⟩
  · exact ⟨h₀, by simp, by simp, by simp [Headers], h.regions.brk_le, h.regions.null⟩
  · obtain ⟨ht, hh⟩ := heapWalk_iff.mp hw
    exact ⟨h.first, fun _ => h₀, fun _ => ht, hh, h.regions.brk_le, h.regions.null⟩

theorem WellFormed.whole (h : WellFormed s bs mm) : Whole s bs :=
  ⟨h.tiled, h.wilderness, (completeList_iff h.tiled.headers).mp h.list⟩

end OsProjects.Malloc3
