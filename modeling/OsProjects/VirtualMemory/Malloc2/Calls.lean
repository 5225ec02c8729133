import OsProjects.VirtualMemory.Malloc2.Heap

/-! # What the calls do to the list of blocks

`Serves` is the allocator without memory: first fit, or a new block at the end, or a refusal.
Each function of `malloc_2.cpp` returns on a heap and does to its list of blocks what `Serves`
and `Reallocs` say (`smalloc_run`, `scalloc_run`, `sfree_run`, `srealloc_run`). -/

namespace OsProjects.Malloc2

variable {s s' : State} {as bs bs' cs : List Block} {b c : Block} {f : Field} {p e v r size : ℕ}

/-! ### The allocator without memory -/

/-- The block is free and large enough. -/
def Block.fits (size : ℕ) (b : Block) : Bool := b.free && decide (size ≤ b.size)

/-- A request of `size` bytes is served from the blocks `bs`, the break being at `brk`: the
result is `r`, and the blocks are `bs'` afterwards. -/
inductive Serves (size brk : ℕ) : List Block → ℕ → List Block → Prop
  | refused {bs : List Block} : Serves size brk bs 0 bs
  /-- The first block that fits. -/
  | reused {as cs : List Block} {b : Block} : 0 < size ∧ size ≤ sizeLimit →
      (∀ a ∈ as, a.fits size = false) → b.fits size = true →
      Serves size brk (as ++ b :: cs) b.payload (as ++ { b with free := false } :: cs)
  | fresh {bs : List Block} : 0 < size ∧ size ≤ sizeLimit → (∀ a ∈ bs, a.fits size = false) →
      Serves size brk bs (brk + sizeofMetadata) (bs ++ [⟨brk, size, false⟩])

/-- `srealloc` of the payload of `b`. -/
inductive Reallocs (size brk : ℕ) (b : Block) : List Block → ℕ → List Block → Prop
  | kept {bs : List Block} : size ≤ b.size → Reallocs size brk b bs b.payload bs
  | refused {bs : List Block} : Reallocs size brk b bs 0 bs
  | moved {bs as cs : List Block} {c : Block} {r : ℕ} : b.size < size → r ≠ 0 →
      Serves size brk bs r (as ++ c :: cs) → c.addr = b.addr →
      Reallocs size brk b bs r (as ++ { c with free := true } :: cs)

/-- The payloads of the blocks hold what they held. -/
def SamePayloads (bs : List Block) (m m' : Memory) : Prop :=
  ∀ b ∈ bs, ∀ x, b.payload ≤ x → x < b.stop → m'.byte x = m.byte x

/-- What a request with the result `r` leaves alone: the payloads, and the whole memory and all
variables if it is refused. -/
structure Keeps (bs : List Block) (r : ℕ) (s s' : State) : Prop where
  payloads : SamePayloads bs s.sys.mem s'.sys.mem
  refused : r = 0 → s'.heap = s.heap ∧ s'.sys.mem = s.sys.mem

/-! ### Accesses -/

open Prog

theorem SamePayloads.trans {m₁ m₂ m₃ : Memory} (h : SamePayloads bs m₁ m₂)
    (h' : SamePayloads bs m₂ m₃) : SamePayloads bs m₁ m₃ := fun b hb x h₁ h₂ =>
  (h' b hb x h₁ h₂).trans (h b hb x h₁ h₂)

theorem Keeps.refl (bs : List Block) (r : ℕ) (s : State) : Keeps bs r s s :=
  ⟨fun _ _ _ _ _ => rfl, fun _ => ⟨rfl, rfl⟩⟩

theorem Keeps.of_payloads (h : SamePayloads bs s.sys.mem s'.sys.mem) (hr : r ≠ 0) :
    Keeps bs r s s' := ⟨h, fun e => absurd e hr⟩

theorem Block.payload_ne_zero (b : Block) : b.payload ≠ 0 := by
  unfold payload sizeofMetadata
  omega

theorem run_get (h : s.sys.mem.accessible (p + f.offset) f.width = true) :
    (get f p).run s = .ok (metadata.get s.sys.mem f p, s) := if_pos h

theorem run_set (h : s.sys.mem.accessible (p + f.offset) f.width = true) :
    (set f p v).run s = .ok ((), s.setMem (metadata.set s.sys.mem f p v)) := if_pos h

@[simp] theorem run_getHeap (s : State) : getHeap.run s = .ok (s.heap, s) := rfl

@[simp] theorem run_setHeap (g : MemoryList → MemoryList) (s : State) :
    (setHeap g).run s = .ok ((), s.mapHeap g) := rfl

@[simp] theorem setMem_mem (s : State) (m : Memory) : (s.setMem m).sys.mem = m := rfl
@[simp] theorem setMem_heap (s : State) (m : Memory) : (s.setMem m).heap = s.heap := rfl
@[simp] theorem setMem_brk (s : State) (m : Memory) : (s.setMem m).sys.brk = s.sys.brk := rfl
@[simp] theorem setMem_base (s : State) (m : Memory) : (s.setMem m).sys.base = s.sys.base := rfl
@[simp] theorem setMem_obtained (s : State) (m : Memory) :
    (s.setMem m).obtained = s.obtained := rfl
@[simp] theorem mapHeap_heap (s : State) (g : MemoryList → MemoryList) :
    (s.mapHeap g).heap = g s.heap := rfl
@[simp] theorem mapHeap_sys (s : State) (g : MemoryList → MemoryList) :
    (s.mapHeap g).sys = s.sys := rfl
@[simp] theorem mapHeap_obtained (s : State) (g : MemoryList → MemoryList) :
    (s.mapHeap g).obtained = s.obtained := rfl

theorem Region.run_set (h : Region s.sys) (h₁ : s.sys.base ≤ p)
    (h₂ : p + sizeofMetadata ≤ s.sys.brk) (f : Field) (v : ℕ) :
    (set f p v).run s = .ok ((), s.setMem (metadata.set s.sys.mem f p v)) :=
  Malloc2.run_set (h.accessible_field h₁ h₂ f)

namespace Shape

theorem run_get (h : Shape s bs e) (hb : b ∈ bs) (f : Field) :
    (get f b.addr).run s = .ok (metadata.get s.sys.mem f b.addr, s) := by
  have h₁ := h.bounds hb
  have h₂ := h.le
  unfold Block.stop at h₁
  exact Malloc2.run_get (h.region.accessible_field h₁.1 (by omega) f)

theorem run_set_of_mem (h : Shape s bs e) (hb : b ∈ bs) (f : Field) (v : ℕ) :
    (set f b.addr v).run s = .ok ((), s.setMem (metadata.set s.sys.mem f b.addr v)) := by
  have h₁ := h.bounds hb
  have h₂ := h.le
  unfold Block.stop at h₁
  exact h.region.run_set h₁.1 (by omega) f v

/-- A store into a header changes no payload. -/
theorem samePayloads_set (h : Shape s bs e) (hp : (∃ c ∈ bs, c.addr = p) ∨ e ≤ p) (f : Field)
    (v : ℕ) : SamePayloads bs s.sys.mem (metadata.set s.sys.mem f p v) := by
  intro b hb x h₁ h₂
  apply metadata.set_byte
  show x < p ∨ p + sizeofMetadata ≤ x
  unfold Block.payload at h₁
  obtain ⟨c, hc, rfl⟩ | hp := hp
  · obtain rfl | h' | h' := h.eq_or_apart hb hc
    · exact .inr h₁
    · exact .inl (by omega)
    · unfold Block.stop at h'
      exact .inr (by omega)
  · have := (h.bounds hb).2
    exact .inl (by omega)

/-- The address behind a header does not wrap. -/
theorem payload_eq (h : Shape s bs e) (hb : b ∈ bs) : add64 b.addr sizeofMetadata = b.payload := by
  have h₁ := (h.bounds hb).2
  have h₂ := h.le
  have h₃ := h.region.brk_le
  unfold Block.stop at h₁
  unfold userTop at h₃
  exact add64_eq (by omega)

/-- The header in front of a payload. -/
theorem header_eq (h : Shape s bs e) (hb : b ∈ bs) : sub64 b.payload sizeofMetadata = b.addr := by
  have h₁ := (h.bounds hb).2
  have h₂ := h.le
  have h₃ := h.region.brk_le
  unfold Block.stop at h₁
  unfold userTop at h₃
  unfold Block.payload
  rw [sub64_eq (by omega) (by omega), Nat.add_sub_cancel]

/-- The size of a block, read after its flag was changed. -/
theorem run_size (h : Shape s (as ++ b :: cs) e) (v : ℕ) (free : Bool) (hfree : v = free.toNat) :
    (get .size b.addr).run (s.setMem (metadata.set s.sys.mem .isFree b.addr v)) =
      .ok (b.size, s.setMem (metadata.set s.sys.mem .isFree b.addr v)) := by
  have h' := h.setFree v free hfree
  have hmem : { b with free := free } ∈ as ++ { b with free := free } :: cs := by simp
  have hsize := h'.header_size hmem
  rw [← hsize]
  exact h'.run_get hmem .size

/-! ### The loop of `smalloc` -/

/-- How the loop ends from the first of `bs` on. -/
def searchResult (size : ℕ) (b : Block) (cs : List Block) : Search :=
  match (b :: cs).find? (Block.fits size) with
  | some c => .found c.addr
  | none => .last (cs.getLastD b).addr

/-- One round of the loop. -/
theorem search_succ (h : Shape s (as ++ b :: cs) e) (size fuel : ℕ) :
    (search size (fuel + 1) b.addr).run s =
      if b.fits size then .ok (.found b.addr, s)
      else if (cs.map Block.addr).headD 0 ≠ 0 then
        (search size fuel ((cs.map Block.addr).headD 0)).run s
      else .ok (.last b.addr, s) := by
  have hb : b ∈ as ++ b :: cs := by simp
  have hfits : (if metadata.get s.sys.mem .isFree b.addr ≠ 0 then
      (do return decide (size ≤ (← get .size b.addr)) : M Bool) else pure false).run s =
        .ok (b.fits size, s) := by
    have hfree := h.header_free hb
    rw [run_ite]
    split
    next hne =>
      rw [run_bind_ok (h.run_get hb .size), h.header_size hb, run_pure, Block.fits, ← hfree,
        bne_iff_ne.mpr hne, Bool.true_and]
    next heq =>
      rw [run_pure, Block.fits, ← hfree, not_not.mp heq]
      rfl
  rw [search, run_bind_ok (h.run_get hb .isFree), run_bind_ok hfits, run_ite,
    run_bind_ok (h.run_get hb .next), h.next_eq, run_ite]
  rfl

theorem search_run (h : Shape s (as ++ b :: cs) e) (size : ℕ) {fuel : ℕ}
    (hf : cs.length < fuel) :
    (search size fuel b.addr).run s = .ok (searchResult size b cs, s) := by
  induction cs generalizing as b fuel with
  | nil =>
      obtain ⟨fuel, rfl⟩ : ∃ n, fuel = n + 1 := ⟨fuel - 1, by omega⟩
      rw [h.search_succ, searchResult, List.find?_singleton]
      cases b.fits size <;> simp
  | cons c cs ih =>
      obtain ⟨fuel, rfl⟩ : ∃ n, fuel = n + 1 := ⟨fuel - 1, by omega⟩
      have hc : c.addr ≠ 0 := h.ne_zero (by simp)
      have h' : Shape s (as ++ [b] ++ c :: cs) e := by simpa using h
      rw [List.length_cons] at hf
      rw [h.search_succ, List.map_cons, List.headD_cons, if_pos hc, ih h' (by omega)]
      cases hb : b.fits size <;> simp [searchResult, hb, List.getLast?_cons]

theorem search_head (h : Shape s (b :: cs) e) (size : ℕ) (hlen : (b :: cs).length < rounds) :
    (search size rounds b.addr).run s = .ok (searchResult size b cs, s) := by
  have h' : Shape s ([] ++ b :: cs) e := h
  rw [List.length_cons] at hlen
  exact h'.search_run size (by omega)

end Shape

/-! ### A new header -/

namespace Shape

/-- The first block. -/
theorem single (h : Region s.sys) (hb : b.addr = s.sys.base) (hstop : b.stop ≤ s.sys.brk)
    (hheader : blockAt s.sys.mem b.addr = b) (hnext : metadata.get s.sys.mem .next b.addr = 0)
    (hprev : metadata.get s.sys.mem .prev b.addr = 0) (hhead : s.heap.head = b.addr) :
    Shape s [b] b.stop := by
  have hne : b.addr ≠ 0 := by
    have := h.base_pos
    omega
  refine ⟨h, ⟨hb, rfl⟩, hstop, by simpa using hheader, ⟨?_, hne, fun h => absurd rfl h, ?_⟩, ?_⟩
  · rw [nx, if_pos rfl, hhead]
  · show nx s b.addr = 0
    rw [nx, if_neg hne, hnext]
  · intro c hc
    obtain rfl : b = c := by simpa using hc
    exact hprev

/-- A new header behind the last block `c` joins the list. -/
theorem link (h : Shape s (bs ++ [c]) e) (hb : b.addr = e) (hstop : b.stop ≤ s.sys.brk)
    (hheader : blockAt s.sys.mem b.addr = b) (hnext : metadata.get s.sys.mem .next b.addr = 0)
    (hprev : metadata.get s.sys.mem .prev b.addr = c.addr) :
    Shape (s.setMem (metadata.set s.sys.mem .next c.addr b.addr)) (bs ++ [c] ++ [b]) b.stop := by
  have hc : c ∈ bs ++ [c] := by simp
  have hv : b.addr < 256 ^ metadata.width .next := by
    have h₁ := h.region.brk_le
    unfold Block.stop at hstop
    unfold userTop at h₁
    show b.addr < 2 ^ 64
    omega
  have hbehind : ∀ d ∈ bs ++ [c], metadata.Apart d.addr b.addr := by
    intro d hd
    have h₁ := (h.bounds hd).2
    unfold Block.stop at h₁
    refine .inl ?_
    show d.addr + sizeofMetadata ≤ b.addr
    omega
  have hne : b.addr ≠ 0 := by
    have h₁ := (h.bounds hc)
    have h₂ := h.region.base_pos
    unfold Block.stop at h₁
    omega
  -- only the `next` of `c` changes
  have hget : ∀ d ∈ bs ++ [c] ++ [b], ∀ g, metadata.get
      (metadata.set s.sys.mem .next c.addr b.addr) g d.addr =
        if .next = g ∧ c.addr = d.addr then b.addr else metadata.get s.sys.mem g d.addr := by
    intro d hd g
    refine metadata.get_set ?_ hv
    obtain hd | hd := List.mem_append.mp hd
    · exact h.apart hc hd
    · rw [List.mem_singleton.mp hd]
      exact .inr (hbehind c hc)
  have hkeep : ∀ d ∈ bs ++ [c] ++ [b], ∀ g, g ≠ .next → metadata.get
      (metadata.set s.sys.mem .next c.addr b.addr) g d.addr = metadata.get s.sys.mem g d.addr :=
    fun d hd g hg => by rw [hget d hd g, if_neg fun e => hg e.1.symm]
  have hblock : ∀ d ∈ bs ++ [c] ++ [b], blockAt s.sys.mem d.addr = d := by
    intro d hd
    obtain hd | hd := List.mem_append.mp hd
    · exact h.header d hd
    · rwa [List.mem_singleton.mp hd]
  have htiles : extent.Tiles s.sys.base (bs ++ [c] ++ [b]) b.stop :=
    Extent.Tiles.append_iff.mpr ⟨e, h.tiles, hb, rfl⟩
  refine ⟨h.region.setMem rfl, htiles, hstop, fun d hd => ?_, ?_, fun d hd => ?_⟩
  · show blockAt (metadata.set s.sys.mem .next c.addr b.addr) d.addr = d
    rw [blockAt, hkeep d hd .size (by simp), hkeep d hd .isFree (by simp)]
    exact hblock d hd
  · have hl := h.linked
    rw [← List.append_nil (List.map _ _)] at hl
    have hd : (0 :: ((bs ++ [c]).map Block.addr ++ [])).Nodup := by
      rw [List.append_nil, List.nodup_cons]
      refine ⟨fun h₀ => ?_, h.tiles.nodup_addr⟩
      obtain ⟨d, hd, h₀⟩ := List.mem_map.mp h₀
      exact h.ne_zero hd h₀
    have hlast : ((bs ++ [c]).map Block.addr).getLastD 0 = c.addr := by simp
    have hcne := h.ne_zero hc
    rw [List.map_append, List.map_singleton]
    refine hl.insert hd hne ?_ ?_ ?_ ?_ ?_ ?_
    · intro a ha hac
      rw [hlast] at hac
      rw [nx_setMem, nx]
      obtain rfl | ha := List.mem_cons.mp ha
      · rw [if_pos rfl, if_pos rfl]
      · rw [List.append_nil] at ha
        obtain ⟨d, hd, rfl⟩ := List.mem_map.mp ha
        have hdne := h.ne_zero hd
        rw [if_neg hdne, if_neg hdne, hget d (List.mem_append_left _ hd),
          if_neg fun e => hac e.2.symm]
    · intro a ha _
      rw [List.append_nil] at ha
      obtain ⟨d, hd, rfl⟩ := List.mem_map.mp ha
      exact hkeep d (List.mem_append_left _ hd) .prev (by simp)
    · rw [hlast, nx_setMem, if_neg hcne, hget c (by simp), if_pos ⟨rfl, rfl⟩]
    · rw [nx_setMem, if_neg hne, hget b (by simp), if_neg fun e => ?_, hnext]
      · rfl
      · have := hbehind c hc
        rw [e.2] at this
        simp at this
    · intro _
      rw [hlast]
      exact (hkeep b (by simp) .prev (by simp)).trans hprev
    · intro h
      exact absurd rfl h
  · have hd' : d ∈ (bs ++ [c]).head? := by
      cases bs <;> simpa using hd
    have hmem := List.mem_of_mem_head? hd'
    exact (hkeep d (List.mem_append_left _ hmem) .prev (by simp)).trans (h.first d hd')

end Shape

/-! ### Counting -/

theorem freeBytes_le (bs : List Block) :
    ((bs.filter Block.free).map Block.size).sum ≤ (bs.map Block.size).sum := by
  induction bs with
  | nil => simp
  | cons b bs ih =>
      rw [List.filter_cons]
      split <;> simp <;> omega

/-- The blocks and their headers fit into the region. -/
theorem sum_le {p : ℕ} (h : extent.Tiles p bs e) :
    p + (bs.map Block.size).sum + bs.length * sizeofMetadata = e := by
  induction bs generalizing p with
  | nil =>
      have : p = e := h
      simpa using this
  | cons b bs ih =>
      have h₁ : b.addr = p := h.1
      have h₂ := ih h.2
      have h₃ : extent.stop b = b.addr + sizeofMetadata + b.size := rfl
      rw [h₃] at h₂
      simp only [List.map_cons, List.sum_cons, List.length_cons, add_one_mul]
      omega

namespace Heap

/-- No counter comes near the end of its range. -/
theorem bounds (h : Heap s bs) : bs.length ≤ userTop ∧ bs.countP Block.free ≤ bs.length ∧
    (bs.map Block.size).sum ≤ userTop ∧ bs.length * sizeofMetadata ≤ userTop ∧
    ((bs.filter Block.free).map Block.size).sum ≤ (bs.map Block.size).sum := by
  have h₁ := sum_le h.shape.tiles
  have h₂ := h.shape.region.brk_le
  have h₃ : bs.length * sizeofMetadata = bs.length * 32 := rfl
  exact ⟨by omega, List.countP_le_length, by omega, by omega, freeBytes_le bs⟩

/-- **`smalloc` with a block of the list.** -/
theorem reuse_run (h : Heap s (as ++ b :: cs)) (hb : b.free = true) :
    ∃ s', (reuse b.addr).run s = .ok (b.payload, s') ∧
      Heap s' (as ++ { b with free := false } :: cs) ∧
      SamePayloads (as ++ b :: cs) s.sys.mem s'.sys.mem := by
  have hmem : b ∈ as ++ b :: cs := by simp
  obtain ⟨hlen, -, hbytes, -, hfree⟩ := h.bounds
  refine ⟨(s.setMem (metadata.set s.sys.mem .isFree b.addr 0)).mapHeap fun h => { h with
    numFreeBlocks := sub64 h.numFreeBlocks 1
    numFreeBytes := sub64 h.numFreeBytes b.size }, ?_,
    ⟨(h.shape.setFree 0 false rfl).mapHeap rfl, by simp [h.obtained], ?_⟩,
    h.shape.samePayloads_set (.inl ⟨b, hmem, rfl⟩) .isFree 0⟩
  · rw [reuse, run_bind_ok (h.shape.run_set_of_mem hmem .isFree 0),
      run_bind_ok (h.shape.run_size 0 false rfl), run_bind_ok (run_setHeap _ _), run_pure,
      h.shape.payload_eq hmem]
  · obtain ⟨h₁, h₂, h₃, h₄, h₅⟩ := h.counted
    unfold userTop at hbytes hlen
    simp only [List.countP_append, List.countP_cons, List.filter_append, List.filter_cons,
      List.map_append, List.sum_append, List.length_append, List.length_cons, hb, if_true,
      List.map_cons, List.sum_cons] at h₁ h₂ h₃ h₄ h₅ hbytes hfree hlen
    have h₆ := List.countP_le_length (p := Block.free) (l := as)
    have h₇ := List.countP_le_length (p := Block.free) (l := cs)
    constructor
    · simp only [mapHeap_heap, setMem_heap, h₁]
      rw [sub64_eq (by omega) (by omega)]
      simp
    · simp only [mapHeap_heap, setMem_heap, h₂]
      rw [sub64_eq (by omega) (by omega)]
      simp
      omega
    · simpa using h₃
    · simpa using h₄
    · simpa using h₅

/-- **`sfree`** of the payload of a block; a block that is free already is left alone. -/
theorem sfree_run (h : Heap s (as ++ b :: cs)) :
    ∃ s', (sfree b.payload).run s = .ok ((), s') ∧
      Heap s' (as ++ { b with free := true } :: cs) ∧
      SamePayloads (as ++ b :: cs) s.sys.mem s'.sys.mem := by
  have hmem : b ∈ as ++ b :: cs := by simp
  have hne := b.payload_ne_zero
  have hflag := h.shape.header_free hmem
  rw [sfree, run_ite, if_neg hne, h.shape.header_eq hmem,
    run_bind_ok (h.shape.run_get hmem .isFree), run_ite]
  cases hb : b.free with
  | true =>
      rw [hb, bne_iff_ne] at hflag
      rw [if_neg hflag]
      exact ⟨s, rfl, by rwa [← hb], fun _ _ _ _ _ => rfl⟩
  | false =>
      have hz : metadata.get s.sys.mem .isFree b.addr = 0 := by
        rw [hb] at hflag
        simpa using hflag
      rw [if_pos hz]
      obtain ⟨hlen, -, hbytes, -, hfree⟩ := h.bounds
      refine ⟨(s.setMem (metadata.set s.sys.mem .isFree b.addr 1)).mapHeap fun h => { h with
        numFreeBlocks := add64 h.numFreeBlocks 1
        numFreeBytes := add64 h.numFreeBytes b.size }, ?_,
        ⟨(h.shape.setFree 1 true rfl).mapHeap rfl, by simp [h.obtained], ?_⟩,
        h.shape.samePayloads_set (.inl ⟨b, hmem, rfl⟩) .isFree 1⟩
      · rw [run_bind_ok (h.shape.run_set_of_mem hmem .isFree 1),
          run_bind_ok (h.shape.run_size 1 true rfl), run_setHeap]
      · obtain ⟨h₁, h₂, h₃, h₄, h₅⟩ := h.counted
        have h₆ := freeBytes_le as
        have h₇ := freeBytes_le cs
        have h₈ := List.countP_le_length (p := Block.free) (l := as)
        have h₉ := List.countP_le_length (p := Block.free) (l := cs)
        unfold userTop at hbytes hlen
        simp only [List.countP_append, List.countP_cons, List.filter_append, List.filter_cons,
          List.map_append, List.sum_append, List.length_append, List.length_cons, hb,
          List.map_cons, List.sum_cons] at h₁ h₂ h₃ h₄ h₅ hbytes hfree hlen
        constructor
        · simp only [mapHeap_heap, setMem_heap, h₁]
          rw [add64_eq (by simp; omega)]
          simp
          omega
        · simp only [mapHeap_heap, setMem_heap, h₂]
          rw [add64_eq (by simp; omega)]
          simp
          omega
        · simpa using h₃
        · simpa using h₄
        · simpa using h₅

/-! ### New blocks -/

/-- What `sbrk` does with a heap. -/
theorem sbrk_run (h : Heap s bs) {n : ℕ} (hn : n < 2 ^ 63) :
    (∃ s', (sbrk n).run s = .ok (failed, s') ∧ Heap s' bs ∧ s'.heap = s.heap ∧
      s'.sys.mem = s.sys.mem) ∨
    ∃ s', (sbrk n).run s = .ok (s.sys.brk, s') ∧ s.sys.brk ≠ failed ∧ Shape s' bs s.sys.brk ∧
      s'.heap = s.heap ∧ s'.obtained = s.obtained ++ [s.sys.brk] ∧
      s'.sys.brk = s.sys.brk + n ∧ s'.sys.mem.byte = s.sys.mem.byte := by
  obtain ⟨hregion, htiles, hle, hheader, hlinked, hfirst⟩ := h.shape
  obtain ⟨hr, hm, hb, hbase⟩ | ⟨hr, hne, hx⟩ := s.sys.sbrk_cases hn hregion.brk_le
  · refine .inl ⟨{ s with sys := (s.sys.sbrk n).2 }, ?_, ⟨⟨?_, ?_, ?_, ?_, ?_, ?_⟩, h.obtained,
      h.counted⟩, rfl, hm⟩
    · show Except.ok _ = _
      rw [hr, if_pos rfl]
    · obtain ⟨h₁, h₂, h₃, h₄⟩ := hregion
      exact ⟨by rwa [hbase], by rwa [hb], by rwa [hbase, hb, hm], by rwa [hb, hm]⟩
    · show extent.Tiles (s.sys.sbrk n).2.base bs (s.sys.sbrk n).2.brk
      rwa [hbase, hb]
    · exact le_rfl
    · show ∀ b ∈ bs, blockAt (s.sys.sbrk n).2.mem b.addr = b
      rwa [hm]
    · unfold nx pv at hlinked ⊢
      rwa [hm]
    · unfold pv at hfirst ⊢
      rwa [hm]
  · have hget : ∀ f p, metadata.get (s.sys.sbrk n).2.mem f p = metadata.get s.sys.mem f p :=
      fun f p => metadata.get_congr fun x _ _ => congrFun hx.byte x
    rw [hr] at hne
    refine .inr ⟨{ s with sys := (s.sys.sbrk n).2, obtained := s.obtained ++ [s.sys.brk] }, ?_,
      hne, ⟨hregion.extend hx, ?_, ?_, ?_, ?_, ?_⟩, rfl, rfl, hx.brk, hx.byte⟩
    · show Except.ok _ = _
      rw [hr, if_neg hne]
    · show extent.Tiles (s.sys.sbrk n).2.base bs s.sys.brk
      rwa [hx.base]
    · show s.sys.brk ≤ (s.sys.sbrk n).2.brk
      rw [hx.brk]
      omega
    · intro b hb
      show blockAt (s.sys.sbrk n).2.mem b.addr = b
      rw [blockAt, hget, hget]
      exact hheader b hb
    · unfold nx pv at hlinked ⊢
      simpa only [hget] using hlinked
    · unfold pv at hfirst ⊢
      simpa only [hget] using hfirst

end Heap

/-- What `newAllocAdjustment` does to the counters. -/
def MemoryList.adjust (size : ℕ) (h : MemoryList) : MemoryList :=
  { h with
    numAllocatedBlocks := add64 h.numAllocatedBlocks 1
    numAllocatedBytes := add64 h.numAllocatedBytes size
    numMetaDataBytes := add64 h.numMetaDataBytes sizeofMetadata }

theorem run_newAllocAdjustment (size : ℕ) (s : State) :
    (newAllocAdjustment size).run s = .ok ((), s.mapHeap (MemoryList.adjust size)) := rfl

theorem Counted.adjust {h : MemoryList} (hc : Counted h bs) (hb : b.free = false)
    (hsum : extent.Tiles p (bs ++ [b]) e) (he : e ≤ userTop) :
    Counted (h.adjust b.size) (bs ++ [b]) := by
  obtain ⟨h₁, h₂, h₃, h₄, h₅⟩ := hc
  have hle := sum_le hsum
  have h₆ : (bs ++ [b]).length * sizeofMetadata = bs.length * sizeofMetadata + 32 := by
    rw [List.length_append, List.length_singleton, Nat.add_mul]
    rfl
  have h₇ : bs.length ≤ bs.length * sizeofMetadata := Nat.le_mul_of_pos_right _ (by decide)
  have h₈ : sizeofMetadata = 32 := rfl
  simp only [List.map_append, List.sum_append, List.map_singleton, List.sum_singleton] at hle
  unfold userTop at he
  constructor
  · simpa [MemoryList.adjust, List.countP_append, hb] using h₁
  · simpa [MemoryList.adjust, List.filter_append, hb] using h₂
  · simp only [MemoryList.adjust, h₃]
    rw [add64_eq (by omega)]
    simp
  · simp only [MemoryList.adjust, h₄]
    rw [add64_eq (by omega)]
    simp
  · simp only [MemoryList.adjust, h₅, h₆]
    rw [add64_eq (by omega), h₈]

namespace Heap

/-- **`smalloc` with the first block.** -/
theorem firstAllocation_run (h : Heap s []) (hpos : 0 < size) (hsize : size ≤ sizeLimit) :
    ∃ r s' bs', (firstAllocation size).run s = .ok (r, s') ∧ Serves size s.sys.brk [] r bs' ∧
      Heap s' bs' ∧ Keeps [] r s s' := by
  have hn : add64 size sizeofMetadata = size + 32 := by
    unfold sizeLimit at hsize
    exact add64_eq (by unfold sizeofMetadata; omega)
  have hv : size < 256 ^ metadata.width .size := by
    unfold sizeLimit at hsize
    show size < 2 ^ 64
    omega
  obtain ⟨s₁, hrun, hheap, hsame⟩ | ⟨s₁, hrun, hne, hsh, hheap, hobt, hbrk, -⟩ :=
    h.sbrk_run (n := add64 size sizeofMetadata) (by unfold sizeLimit at hsize; omega)
  · refine ⟨0, s₁, [], ?_, .refused, hheap, by simp [SamePayloads], fun _ => hsame⟩
    rw [firstAllocation, run_bind_ok hrun, run_ite, if_pos rfl, run_pure]
  · rw [hn] at hbrk
    have hbase : s₁.sys.base = s.sys.brk := hsh.tiles
    let b : Block := ⟨s.sys.brk, size, false⟩
    let t₀ := s₁.mapHeap fun h => { h with head := s.sys.brk }
    let t₁ := t₀.setMem (metadata.set t₀.sys.mem .isFree s.sys.brk 0)
    let t₂ := t₁.setMem (metadata.set t₁.sys.mem .next s.sys.brk 0)
    let t₃ := t₂.setMem (metadata.set t₂.sys.mem .prev s.sys.brk 0)
    let t₄ := t₃.setMem (metadata.set t₃.sys.mem .size s.sys.brk size)
    have r₀ : Region t₀.sys := hsh.region
    have r₁ : Region t₁.sys := r₀.setMem rfl
    have r₂ : Region t₂.sys := r₁.setMem rfl
    have r₃ : Region t₃.sys := r₂.setMem rfl
    have r₄ : Region t₄.sys := r₃.setMem rfl
    have hle : s.sys.brk + sizeofMetadata ≤ s₁.sys.brk := by
      unfold sizeofMetadata
      omega
    have hshape : Shape t₄ [b] b.stop := by
      refine .single r₄ hbase.symm ?_ ?_ ?_ ?_ rfl
      · show s.sys.brk + sizeofMetadata + size ≤ s₁.sys.brk
        unfold sizeofMetadata
        omega
      all_goals
        simp [blockAt, t₄, t₃, t₂, t₁, b, metadata.get_set_field, metadata.get_set_same, hv]
    have hstop : b.stop = t₄.sys.brk := by
      show s.sys.brk + sizeofMetadata + size = s₁.sys.brk
      unfold sizeofMetadata
      omega
    refine ⟨b.payload, t₄.mapHeap (MemoryList.adjust size), [b], ?_,
      .fresh ⟨hpos, hsize⟩ (by simp), ?_, .of_payloads (by simp [SamePayloads]) b.payload_ne_zero⟩
    · rw [firstAllocation, run_bind_ok hrun, run_ite, if_neg hne, run_bind_ok (run_setHeap _ _),
        run_bind_ok (r₀.run_set hbase.le hle .isFree 0),
        run_bind_ok (r₁.run_set hbase.le hle .next 0),
        run_bind_ok (r₂.run_set hbase.le hle .prev 0),
        run_bind_ok (r₃.run_set hbase.le hle .size size),
        run_bind_ok (run_newAllocAdjustment _ _), run_pure, hshape.payload_eq (b := b) (by simp)]
    · refine ⟨?_, ?_, ?_⟩
      · rw [hstop] at hshape
        exact hshape.mapHeap rfl
      · simpa [t₄, t₃, t₂, t₁, t₀, h.obtained, b] using hobt
      · have hc : Counted t₄.heap [] := by
          show Counted { s₁.heap with head := _ } []
          rw [hheap]
          exact ⟨h.counted.1, h.counted.2, h.counted.3, h.counted.4, h.counted.5⟩
        exact hc.adjust (b := b) rfl hshape.tiles (hstop.trans_le r₄.brk_le)

/-- **`smalloc` with a new block** behind the last block `c`. -/
theorem append_run (h : Heap s (bs ++ [c])) (hpos : 0 < size) (hsize : size ≤ sizeLimit)
    (hfits : ∀ a ∈ bs ++ [c], a.fits size = false) :
    ∃ r s' bs', (append size c.addr).run s = .ok (r, s') ∧
      Serves size s.sys.brk (bs ++ [c]) r bs' ∧ Heap s' bs' ∧ Keeps (bs ++ [c]) r s s' := by
  have hn : add64 size sizeofMetadata = size + 32 := by
    unfold sizeLimit at hsize
    exact add64_eq (by unfold sizeofMetadata; omega)
  have hv : size < 256 ^ metadata.width .size := by
    unfold sizeLimit at hsize
    show size < 2 ^ 64
    omega
  have hcv : c.addr < 256 ^ metadata.width .prev := by
    have h₁ := h.shape.region.brk_le
    have h₂ := (h.shape.bounds (b := c) (by simp)).2
    unfold Block.stop at h₂
    unfold userTop at h₁
    show c.addr < 2 ^ 64
    omega
  obtain ⟨s₁, hrun, hheap, hsame⟩ | ⟨s₁, hrun, hne, hsh, hheap, hobt, hbrk, hbyte⟩ :=
    h.sbrk_run (n := add64 size sizeofMetadata) (by unfold sizeLimit at hsize; omega)
  · refine ⟨0, s₁, bs ++ [c], ?_, .refused, hheap, fun d _ x _ _ => by rw [hsame.2], fun _ => hsame⟩
    rw [append, run_bind_ok hrun, run_ite, if_pos rfl, run_pure]
  · rw [hn] at hbrk
    have hbase : s₁.sys.base ≤ s.sys.brk := hsh.tiles.le
    let b : Block := ⟨s.sys.brk, size, false⟩
    let t₁ := s₁.setMem (metadata.set s₁.sys.mem .isFree s.sys.brk 0)
    let t₂ := t₁.setMem (metadata.set t₁.sys.mem .size s.sys.brk size)
    let t₃ := t₂.setMem (metadata.set t₂.sys.mem .next s.sys.brk 0)
    let t₄ := t₃.setMem (metadata.set t₃.sys.mem .prev s.sys.brk c.addr)
    let t₅ := t₄.setMem (metadata.set t₄.sys.mem .next c.addr s.sys.brk)
    have h₁ : Shape t₁ (bs ++ [c]) s.sys.brk := hsh.setField le_rfl
    have h₂ : Shape t₂ (bs ++ [c]) s.sys.brk := h₁.setField le_rfl
    have h₃ : Shape t₃ (bs ++ [c]) s.sys.brk := h₂.setField le_rfl
    have h₄ : Shape t₄ (bs ++ [c]) s.sys.brk := h₃.setField le_rfl
    have hle : s.sys.brk + sizeofMetadata ≤ s₁.sys.brk := by
      unfold sizeofMetadata
      omega
    have hshape : Shape t₅ (bs ++ [c] ++ [b]) b.stop := by
      refine h₄.link (b := b) rfl ?_ ?_ ?_ ?_
      · show s.sys.brk + sizeofMetadata + size ≤ s₁.sys.brk
        unfold sizeofMetadata
        omega
      all_goals
        simp [blockAt, t₄, t₃, t₂, t₁, b, metadata.get_set_field, metadata.get_set_same, hv, hcv]
    have hstop : b.stop = t₅.sys.brk := by
      show s.sys.brk + sizeofMetadata + size = s₁.sys.brk
      unfold sizeofMetadata
      omega
    have hkeep : SamePayloads (bs ++ [c]) s.sys.mem t₅.sys.mem := by
      have h₀ : SamePayloads (bs ++ [c]) s.sys.mem s₁.sys.mem := fun d _ x _ _ => congrFun hbyte x
      exact ((((h₀.trans (hsh.samePayloads_set (.inr le_rfl) .isFree 0)).trans
        (h₁.samePayloads_set (.inr le_rfl) .size size)).trans
        (h₂.samePayloads_set (.inr le_rfl) .next 0)).trans
        (h₃.samePayloads_set (.inr le_rfl) .prev c.addr)).trans
        (h₄.samePayloads_set (.inl ⟨c, by simp, rfl⟩) .next s.sys.brk)
    refine ⟨b.payload, t₅.mapHeap (MemoryList.adjust size), bs ++ [c] ++ [b], ?_,
      .fresh ⟨hpos, hsize⟩ hfits, ?_, .of_payloads hkeep b.payload_ne_zero⟩
    · rw [append, run_bind_ok hrun, run_ite, if_neg hne,
        run_bind_ok (hsh.region.run_set hbase hle .isFree 0),
        run_bind_ok (h₁.region.run_set hbase hle .size size),
        run_bind_ok (h₂.region.run_set hbase hle .next 0),
        run_bind_ok (h₃.region.run_set hbase hle .prev c.addr),
        run_bind_ok (h₄.run_set_of_mem (by simp) .next s.sys.brk),
        run_bind_ok (run_newAllocAdjustment _ _), run_pure,
        hshape.payload_eq (b := b) (by simp)]
    · refine ⟨?_, ?_, ?_⟩
      · rw [hstop] at hshape
        exact hshape.mapHeap rfl
      · simpa [t₅, t₄, t₃, t₂, t₁, h.obtained, b] using hobt
      · have hc : Counted t₅.heap (bs ++ [c]) := by
          show Counted s₁.heap _
          rw [hheap]
          exact h.counted
        exact hc.adjust (b := b) rfl hshape.tiles (hstop.trans_le hshape.region.brk_le)

/-- **`smalloc`** returns and serves the request. -/
theorem smalloc_run (h : Heap s bs) (size : ℕ) :
    ∃ r s' bs', (smalloc size).run s = .ok (r, s') ∧ Serves size s.sys.brk bs r bs' ∧
      Heap s' bs' ∧ Keeps bs r s s' := by
  rw [smalloc, run_ite]
  split
  next => exact ⟨0, s, bs, rfl, .refused, h, .refl bs 0 s⟩
  next hsize =>
    have hpos : 0 < size := by omega
    replace hsize : size ≤ sizeLimit := by omega
    rw [run_bind_ok (run_getHeap s), run_ite]
    cases hbs : bs with
    | nil =>
        subst hbs
        have hhead : s.heap.head = 0 := h.shape.head_eq
        rw [if_pos hhead]
        exact h.firstAllocation_run hpos hsize
    | cons b cs =>
        subst hbs
        have hhead : s.heap.head = b.addr := h.shape.head_eq
        have hne := h.shape.ne_zero (b := b) (by simp)
        have hlen := h.shape.length_lt
        rw [if_neg (by rwa [hhead]), run_bind_ok (run_getHeap s), hhead,
          run_bind_ok (h.shape.search_head size hlen),
          Shape.searchResult]
        cases hf : (b :: cs).find? (Block.fits size) with
        | some d =>
            -- the first block that fits
            obtain ⟨hd, as, cs', hsplit, has⟩ := List.find?_eq_some_iff_append.mp hf
            rw [hsplit] at h ⊢
            have hfree : d.free = true := by
              unfold Block.fits at hd
              simp at hd
              exact hd.1
            obtain ⟨s', hrun, hheap, hkeep⟩ := h.reuse_run hfree
            exact ⟨_, s', _, hrun, .reused ⟨hpos, hsize⟩ (fun a ha => by simpa using has a ha) hd,
              hheap, .of_payloads hkeep d.payload_ne_zero⟩
        | none =>
            have hfits : ∀ a ∈ b :: cs, a.fits size = false := by simpa using hf
            obtain ⟨ds, d, hsplit⟩ := List.eq_nil_or_concat' (b :: cs) |>.resolve_left (by simp)
            have hlast : cs.getLastD b = d := by
              have := congrArg (List.getLastD · b) hsplit
              simpa [List.getLast?_cons] using this
            rw [hlast]
            rw [hsplit] at h hfits ⊢
            exact h.append_run hpos hsize hfits

/-- Stores into the payload of a block are not seen. -/
theorem of_payload {m : Memory} (h : Heap s bs) (hp : m.page = s.sys.mem.page) (hb : b ∈ bs)
    (hm : ∀ x, x < b.payload ∨ b.stop ≤ x → m.byte x = s.sys.mem.byte x) :
    Heap (s.setMem m) bs :=
  ⟨h.shape.of_payload hp hb hm, h.obtained, h.counted⟩

/-- The payload of a block is mapped. -/
theorem accessible_payload (h : Heap s bs) (hb : b ∈ bs) {n : ℕ} (hn : n ≤ b.size) :
    s.sys.mem.accessible b.payload n = true := by
  obtain ⟨h₁, h₂⟩ := h.shape.bounds hb
  refine h.shape.region.accessible ?_ ?_
  · unfold Block.payload
    omega
  · unfold Block.stop at h₂
    unfold Block.payload
    omega

end Heap

/-- The block that has served a request. -/
theorem Serves.block {brk : ℕ} (h : Serves size brk bs r bs') (hr : r ≠ 0) :
    ∃ b ∈ bs', b.payload = r ∧ size ≤ b.size ∧ b.free = false := by
  cases h with
  | refused => exact absurd rfl hr
  | @reused as cs b _ _ hb =>
      refine ⟨{ b with free := false }, by simp, rfl, ?_, rfl⟩
      unfold Block.fits at hb
      simp at hb
      exact hb.2
  | fresh => exact ⟨⟨brk, size, false⟩, by simp, rfl, le_rfl, rfl⟩

/-- Only a size within the limit is served. -/
theorem Serves.size_le {brk : ℕ} (h : Serves size brk bs r bs') (hr : r ≠ 0) :
    0 < size ∧ size ≤ sizeLimit := by
  cases h with
  | refused => exact absurd rfl hr
  | reused h | fresh h => exact h

/-- Serving a request neither moves nor resizes a block. -/
theorem Serves.mem {brk : ℕ} (h : Serves size brk bs r bs') (hb : b ∈ bs) :
    ∃ c ∈ bs', c.addr = b.addr ∧ c.size = b.size := by
  cases h with
  | refused => exact ⟨b, hb, rfl, rfl⟩
  | @reused as cs d =>
      rw [List.mem_append, List.mem_cons] at hb
      obtain hb | rfl | hb := hb
      · exact ⟨b, by simp [hb], rfl, rfl⟩
      · exact ⟨{ b with free := false }, by simp, rfl, rfl⟩
      · exact ⟨b, by simp [hb], rfl, rfl⟩
  | fresh => exact ⟨b, by simp [hb], rfl, rfl⟩

namespace Heap

/-- **`scalloc`** returns and serves the request for the product as a `size_t`; it clears the
bytes that it has served. -/
theorem scalloc_run (h : Heap s bs) (num size : ℕ) :
    ∃ r s' bs', (scalloc num size).run s = .ok (r, s') ∧
      Serves (num * size % 2 ^ 64) s.sys.brk bs r bs' ∧ Heap s' bs' ∧
      (r ≠ 0 → ∀ x, r ≤ x → x < r + num * size % 2 ^ 64 → s'.sys.mem.byte x = 0) := by
  obtain ⟨r, s₁, bs', hrun, hserves, hheap, -⟩ := h.smalloc_run (num * size % 2 ^ 64)
  rw [scalloc, run_bind_ok hrun, run_ite]
  split
  next hr => exact ⟨0, s₁, bs', rfl, hr ▸ hserves, hheap, fun h => absurd rfl h⟩
  next hr =>
    obtain ⟨b, hb, rfl, hle, -⟩ := hserves.block hr
    have hset : (memset b.payload (num * size % 2 ^ 64) 0).run s₁ =
        .ok ((), s₁.setMem (s₁.sys.mem.fill b.payload (num * size % 2 ^ 64) 0)) :=
      if_pos (hheap.accessible_payload hb hle)
    rw [run_bind_ok hset, run_pure]
    refine ⟨b.payload, _, bs', rfl, hserves, hheap.of_payload rfl hb fun x hx =>
      Memory.fill_byte_of_not_mem _ _ ?_, fun _ x h₁ h₂ => if_pos ⟨h₁, h₂⟩⟩
    unfold Block.payload at hx ⊢
    unfold Block.stop at hx
    omega

/-- **`srealloc`** of the payload of a block returns.  What a block holds that is not free stays,
and a block that moves takes its payload along. -/
theorem srealloc_run (h : Heap s bs) (hb : b ∈ bs) (size : ℕ) :
    ∃ r s' bs', (srealloc b.payload size).run s = .ok (r, s') ∧
      Reallocs size s.sys.brk b bs r bs' ∧ Heap s' bs' ∧
      (∀ c ∈ bs, c.payload ≠ r → ∀ x, c.payload ≤ x → x < c.stop →
        s'.sys.mem.byte x = s.sys.mem.byte x) ∧
      (r ≠ 0 → ∀ i < min b.size size, s'.sys.mem.byte (r + i) = s.sys.mem.byte (b.payload + i)) ∧
      (r = 0 → s'.heap = s.heap ∧ s'.sys.mem = s.sys.mem) := by
  rw [srealloc, run_ite, if_neg b.payload_ne_zero, h.shape.header_eq hb,
    run_bind_ok (h.shape.run_get hb .size), h.shape.header_size hb, run_ite]
  split
  next hle =>
    exact ⟨b.payload, s, bs, rfl, .kept hle, h, fun _ _ _ _ _ _ => rfl, fun _ _ _ => rfl,
      fun hr => absurd hr b.payload_ne_zero⟩
  next hlt =>
    obtain ⟨r, s₁, bs₁, hrun, hserves, hheap, hkeep⟩ := h.smalloc_run size
    rw [run_bind_ok hrun, run_ite]
    split
    next hr =>
      subst hr
      cases hserves with
      | refused =>
          exact ⟨0, s₁, bs, rfl, .refused, hheap, fun c hc _ => hkeep.payloads c hc,
            fun h => absurd rfl h, hkeep.refused⟩
    next hr =>
      obtain ⟨d, hd, rfl, hdle, -⟩ := hserves.block hr
      obtain ⟨c, hc, haddr, hsize⟩ := hserves.mem hb
      have hget : (get .size b.addr).run s₁ = .ok (b.size, s₁) := by
        rw [← haddr, hheap.shape.run_get hc, hheap.shape.header_size hc, hsize]
      have hpay : c.payload = b.payload := by
        unfold Block.payload
        rw [haddr]
      let s₂ := s₁.setMem (s₁.sys.mem.copy d.payload b.payload b.size)
      have hmove : (memmove d.payload b.payload b.size).run s₁ = .ok ((), s₂) := by
        refine if_pos ?_
        rw [← hpay, hheap.accessible_payload hc hsize.ge, hheap.accessible_payload hd (by omega)]
        rfl
      have hheap' : Heap s₂ bs₁ := by
        refine hheap.of_payload rfl hd fun x hx => Memory.copy_byte_of_not_mem _ ?_
        unfold Block.payload at hx ⊢
        unfold Block.stop at hx
        omega
      obtain ⟨as, cs, rfl⟩ := List.append_of_mem hc
      obtain ⟨s', hfree, hend, hkeep'⟩ := hheap'.sfree_run
      rw [hpay] at hfree
      refine ⟨d.payload, s', _, ?_, .moved (by omega) hr hserves haddr, hend, ?_, ?_,
        fun h => absurd h hr⟩
      · rw [run_bind_ok hget, run_bind_ok hmove, run_bind_ok hfree, run_pure]
      · intro a ha hne x h₁ h₂
        obtain ⟨a', ha', haddr', hsize'⟩ := hserves.mem ha
        have hpay' : a'.payload = a.payload := by
          unfold Block.payload
          rw [haddr']
        have hstop' : a'.stop = a.stop := by
          unfold Block.stop
          rw [haddr', hsize']
        rw [hkeep' a' ha' x (hpay'.trans_le h₁) (h₂.trans_eq hstop'.symm)]
        refine (Memory.copy_byte_of_not_mem _ ?_).trans (hkeep.payloads a ha x h₁ h₂)
        obtain rfl | h | h := hheap.shape.eq_or_apart hd ha'
        · exact absurd hpay'.symm hne
        · refine .inr ?_
          unfold Block.payload at h₁ ⊢
          unfold Block.stop at h
          omega
        · refine .inl ?_
          unfold Block.payload
          omega
      · intro _ i hi
        rw [hkeep' d hd (d.payload + i) (Nat.le_add_right _ _) (by
          unfold Block.stop Block.payload
          omega)]
        have hcopy : s₂.sys.mem.byte (d.payload + i) = s₁.sys.mem.byte (b.payload + i) := by
          show (if _ then _ else _) = _
          rw [if_pos ⟨Nat.le_add_right _ _, by omega⟩, Nat.add_sub_cancel_left]
        rw [hcopy]
        refine hkeep.payloads b hb _ (Nat.le_add_right _ _) ?_
        unfold Block.stop Block.payload
        omega

end Heap

end OsProjects.Malloc2
