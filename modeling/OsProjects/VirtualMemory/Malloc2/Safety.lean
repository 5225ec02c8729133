import Mathlib.Algebra.Order.BigOperators.Group.List
import OsProjects.VirtualMemory.Malloc2.Calls

/-! # Runs of the allocator

What a call does to the blocks (`Effect`), and what every run keeps: the live allocations are
different blocks in use, and every pointer that was ever returned is the payload of a block. -/

namespace OsProjects.Malloc2

variable {s s' : State} {as bs bs' cs : List Block} {b c : Block} {w : World}
  {live known : List Alloc} {brk r size : ℕ}

/-! ### Calls -/

/-- What a call does to the blocks `bs`: it returns `r`, and the blocks are `bs'`. -/
inductive Effect (brk : ℕ) (bs : List Block) : Call → ℕ → List Block → Prop
  | smalloc {size r : ℕ} {bs' : List Block} : Serves size brk bs r bs' →
      Effect brk bs (.smalloc size) r bs'
  | scalloc {num size r : ℕ} {bs' : List Block} : Serves (num * size % 2 ^ 64) brk bs r bs' →
      Effect brk bs (.scalloc num size) r bs'
  | freeNull : Effect brk bs (.sfree 0) 0 bs
  | sfree {as cs : List Block} {b : Block} : bs = as ++ b :: cs →
      Effect brk bs (.sfree b.payload) 0 (as ++ { b with free := true } :: cs)
  | reallocNull {size r : ℕ} {bs' : List Block} : Serves size brk bs r bs' →
      Effect brk bs (.srealloc 0 size) r bs'
  | srealloc {size r : ℕ} {b : Block} {bs' : List Block} : b ∈ bs →
      Reallocs size brk b bs r bs' → Effect brk bs (.srealloc b.payload size) r bs'

/-- **Every call returns**, and does to the blocks what `Effect` says. -/
theorem Heap.call_run (h : Heap s bs) (c : Call)
    (hp : c.ptr = 0 ∨ ∃ b ∈ bs, b.payload = c.ptr) :
    ∃ r s' bs', c.code.run s = .ok (r, s') ∧ Effect s.sys.brk bs c r bs' ∧ Heap s' bs' := by
  cases c with
  | smalloc size =>
      obtain ⟨r, s', bs', hrun, hserves, hheap, -⟩ := h.smalloc_run size
      exact ⟨r, s', bs', hrun, .smalloc hserves, hheap⟩
  | scalloc num size =>
      obtain ⟨r, s', bs', hrun, hserves, hheap, -⟩ := h.scalloc_run num size
      exact ⟨r, s', bs', hrun, .scalloc hserves, hheap⟩
  | sfree p =>
      obtain hp | ⟨b, hb, hp⟩ := hp
      · obtain rfl : p = 0 := hp
        exact ⟨0, s, bs, rfl, .freeNull, h⟩
      · obtain rfl : b.payload = p := hp
        obtain ⟨as, cs, rfl⟩ := List.append_of_mem hb
        obtain ⟨s', hrun, hheap, -⟩ := h.sfree_run
        refine ⟨0, s', _, ?_, .sfree rfl, hheap⟩
        rw [Call.code, Prog.run_bind_ok hrun, Prog.run_pure]
  | srealloc oldp size =>
      obtain hp | ⟨b, hb, hp⟩ := hp
      · obtain rfl : oldp = 0 := hp
        obtain ⟨r, s', bs', hrun, hserves, hheap, -⟩ := h.smalloc_run size
        exact ⟨r, s', bs', hrun, .reallocNull hserves, hheap⟩
      · obtain rfl : b.payload = oldp := hp
        obtain ⟨r, s', bs', hrun, hre, hheap, -⟩ := h.srealloc_run hb size
        exact ⟨r, s', bs', hrun, .srealloc hb hre, hheap⟩

/-! ### Pointers that were returned -/

/-- Every known pointer is the payload of a block that is large enough. -/
def Known (bs : List Block) (known : List Alloc) : Prop :=
  ∀ a ∈ known, ∃ b ∈ bs, b.payload = a.ptr ∧ a.bytes ≤ b.size

/-- Known pointers stay known as long as no block moves or shrinks. -/
theorem Known.mono (h : Known bs known)
    (hb : ∀ b ∈ bs, ∃ c ∈ bs', c.addr = b.addr ∧ c.size = b.size) : Known bs' known := by
  intro a ha
  obtain ⟨b, hmem, hp, hle⟩ := h a ha
  obtain ⟨c, hc, haddr, hsize⟩ := hb b hmem
  refine ⟨c, hc, ?_, hsize ▸ hle⟩
  rw [← hp]
  unfold Block.payload
  rw [haddr]

theorem setFree_mem (free : Bool) (hb : b ∈ as ++ c :: cs) :
    ∃ d ∈ as ++ { c with free := free } :: cs, d.addr = b.addr ∧ d.size = b.size := by
  rw [List.mem_append, List.mem_cons] at hb
  obtain hb | rfl | hb := hb
  · exact ⟨b, by simp [hb], rfl, rfl⟩
  · exact ⟨{ b with free := free }, by simp, rfl, rfl⟩
  · exact ⟨b, by simp [hb], rfl, rfl⟩

theorem Reallocs.mem (h : Reallocs size brk c bs r bs') (hb : b ∈ bs) :
    ∃ d ∈ bs', d.addr = b.addr ∧ d.size = b.size := by
  cases h with
  | kept | refused => exact ⟨b, hb, rfl, rfl⟩
  | moved _ _ hserves _ =>
      obtain ⟨d, hd, h₁, h₂⟩ := hserves.mem hb
      obtain ⟨e, he, h₃, h₄⟩ := setFree_mem true hd
      exact ⟨e, he, h₃.trans h₁, h₄.trans h₂⟩

/-- The block whose payload `srealloc` returns. -/
theorem Reallocs.block (h : Reallocs size brk b bs r bs') (hb : b ∈ bs) (hr : r ≠ 0) :
    ∃ d ∈ bs', d.payload = r ∧ size ≤ d.size := by
  cases h with
  | kept hle => exact ⟨b, hb, rfl, hle⟩
  | refused => exact absurd rfl hr
  | moved _ hr hserves _ =>
      obtain ⟨d, hd, rfl, hle, -⟩ := hserves.block hr
      obtain ⟨e, he, h₁, h₂⟩ := setFree_mem true hd
      refine ⟨e, he, ?_, h₂.symm ▸ hle⟩
      unfold Block.payload
      rw [h₁]

/-- No call moves or resizes a block. -/
theorem Effect.mem {c : Call} (h : Effect brk bs c r bs') (hb : b ∈ bs) :
    ∃ d ∈ bs', d.addr = b.addr ∧ d.size = b.size := by
  cases h with
  | smalloc hs | scalloc hs | reallocNull hs => exact hs.mem hb
  | freeNull => exact ⟨b, hb, rfl, rfl⟩
  | sfree hbs =>
      subst hbs
      exact setFree_mem true hb
  | srealloc _ hre => exact hre.mem hb

/-- The block whose payload a call returns holds what the client uses of it. -/
theorem Effect.block {c : Call} (h : Effect brk bs c r bs') (hr : r ≠ 0) :
    ∃ d ∈ bs', d.payload = r ∧ c.size % 2 ^ 64 ≤ d.size := by
  cases h with
  | smalloc hs | reallocNull hs =>
      obtain ⟨d, hd, hp, hle, -⟩ := hs.block hr
      exact ⟨d, hd, hp, (Nat.mod_le _ _).trans hle⟩
  | scalloc hs =>
      obtain ⟨d, hd, hp, hle, -⟩ := hs.block hr
      exact ⟨d, hd, hp, hle⟩
  | freeNull | sfree => exact absurd rfl hr
  | srealloc hb hre =>
      obtain ⟨d, hd, hp, hle⟩ := hre.block hb hr
      exact ⟨d, hd, hp, (Nat.mod_le _ _).trans hle⟩

theorem Known.call {c : Call} (h : Known bs known) (he : Effect brk bs c r bs') :
    Known bs' (c.returned r known) := by
  have hmono := h.mono fun b hb => he.mem hb
  unfold Call.returned
  split
  next => exact hmono
  next hr =>
    intro a ha
    obtain rfl | ha := List.mem_cons.mp ha
    · exact he.block hr
    · exact hmono a ha

/-! ### Live allocations -/

/-- The live allocations are different blocks, in use and large enough. -/
structure Live (bs : List Block) (live : List Alloc) : Prop where
  distinct : (live.map Alloc.ptr).Nodup
  block : ∀ a ∈ live, ∃ b ∈ bs, b.payload = a.ptr ∧ b.free = false ∧ a.size ≤ b.size

theorem payload_inj (h : b.payload = c.payload) : b.addr = c.addr := by
  unfold Block.payload at h
  omega

namespace Serves

/-- A block in use stays as it is. -/
theorem used (h : Serves size brk bs r bs') (hb : b ∈ bs) (hf : b.free = false) : b ∈ bs' := by
  cases h with
  | refused => exact hb
  | @reused as cs d _ _ hd =>
      rw [List.mem_append, List.mem_cons] at hb
      obtain hb | rfl | hb := hb
      · simp [hb]
      · unfold Block.fits at hd
        simp [hf] at hd
      · simp [hb]
  | fresh => simp [hb]

/-- A request is not served with a block in use. -/
theorem ne_used (h : Serves size brk bs r bs') (hd : (bs.map Block.addr).Nodup)
    (hd' : (bs'.map Block.addr).Nodup) (hb : b ∈ bs) (hf : b.free = false) : b.payload ≠ r := by
  intro he
  cases h with
  | refused =>
      unfold Block.payload sizeofMetadata at he
      omega
  | @reused as cs d _ _ hfits =>
      have hbd : b = d := List.inj_on_of_nodup_map hd hb (by simp) (payload_inj he)
      subst hbd
      unfold Block.fits at hfits
      simp [hf] at hfits
  | fresh =>
      rw [List.map_append, List.map_singleton] at hd'
      have haddr : b.addr = brk := payload_inj (c := ⟨brk, size, false⟩) he
      have hmem : brk ∈ bs.map Block.addr := List.mem_map.mpr ⟨b, hb, haddr⟩
      exact (List.nodup_append.mp hd').2.2 brk hmem brk (by simp) rfl

end Serves

namespace Live

theorem filter (h : Live bs live) (q : Alloc → Bool) : Live bs (live.filter q) where
  distinct := h.distinct.sublist (List.filter_sublist.map _)
  block a ha := h.block a (List.mem_of_mem_filter ha)

theorem serve (h : Live bs live) (hs : Serves size brk bs r bs') : Live bs' live where
  distinct := h.distinct
  block a ha := by
    obtain ⟨b, hb, hp, hf, hle⟩ := h.block a ha
    exact ⟨b, hs.used hb hf, hp, hf, hle⟩

/-- The pointer that was returned is a new live allocation. -/
theorem insert (h : Live bs live) (hs : Serves size brk bs r bs') (hr : r ≠ 0)
    (hd : (bs.map Block.addr).Nodup) (hd' : (bs'.map Block.addr).Nodup) :
    Live bs' (⟨r, size⟩ :: live) where
  distinct := by
    rw [List.map_cons, List.nodup_cons]
    refine ⟨fun hmem => ?_, h.distinct⟩
    obtain ⟨a, ha, hp⟩ := List.mem_map.mp hmem
    obtain ⟨b, hb, hbp, hf, -⟩ := h.block a ha
    exact hs.ne_used hd hd' hb hf (hbp.trans hp)
  block a ha := by
    obtain rfl | ha := List.mem_cons.mp ha
    · obtain ⟨b, hb, hp, hle, hf⟩ := hs.block hr
      exact ⟨b, hb, hp, hf, hle⟩
    · exact (h.serve hs).block a ha

/-- A block whose pointer is not live is marked free. -/
theorem free (h : Live (as ++ b :: cs) live) (hb : ∀ a ∈ live, a.ptr ≠ b.payload) :
    Live (as ++ { b with free := true } :: cs) live where
  distinct := h.distinct
  block a ha := by
    obtain ⟨c, hc, hp, hf, hle⟩ := h.block a ha
    rw [List.mem_append, List.mem_cons] at hc
    obtain hc | rfl | hc := hc
    · exact ⟨c, by simp [hc], hp, hf, hle⟩
    · exact absurd hp.symm (hb a ha)
    · exact ⟨c, by simp [hc], hp, hf, hle⟩

/-- The live allocations without those at `p`. -/
theorem ne_of_mem_filter {a : Alloc} {p : ℕ} (ha : a ∈ live.filter fun a => a.ptr != p) :
    a.ptr ≠ p := by
  simpa using (List.mem_filter.mp ha).2

end Live

/-- Every `scalloc` of the run asks for a product that fits into a `size_t`, or for one that
`smalloc` refuses after it has wrapped. -/
def Event.Fits (_ : World) : Event → Prop
  | call (.scalloc num size) => num * size < 2 ^ 64 ∨ num * size % 2 ^ 64 = 0 ∨
      sizeLimit < num * size % 2 ^ 64
  | _ => True

/-- The size that the code serves is the size that was requested. -/
theorem Event.Fits.size_eq {num size : ℕ} (h : Event.Fits w (.call (.scalloc num size)))
    (hs : Serves (num * size % 2 ^ 64) brk bs r bs') (hr : r ≠ 0) :
    num * size % 2 ^ 64 = num * size := by
  obtain ⟨h₁, h₂⟩ := hs.size_le hr
  obtain h | h | h := h
  · exact Nat.mod_eq_of_lt h
  · omega
  · omega

theorem Call.live_srealloc (oldp size r : ℕ) (live : List Alloc) :
    (Call.srealloc oldp size).live r live =
      if r = 0 then live else ⟨r, size⟩ :: live.filter fun a => a.ptr != oldp := rfl

/-- **A call keeps the live allocations apart.** -/
theorem Live.call {c : Call} (h : Live bs live) (hlegal : c.Legal live)
    (hfits : Event.Fits w (.call c)) (hd : (bs.map Block.addr).Nodup)
    (hd' : (bs'.map Block.addr).Nodup) (he : Effect brk bs c r bs') :
    Live bs' (c.live r live) := by
  -- a request without a pointer to hand back
  have hserve : ∀ {n : ℕ}, Serves n brk bs r bs' → (r ≠ 0 → n = c.size) →
      Live bs' (if r = 0 then live else ⟨r, c.size⟩ :: live.filter fun a => a.ptr != c.ptr) := by
    intro n hs hn
    split
    next => exact h.serve hs
    next hr =>
      rw [← hn hr]
      exact (h.filter _).insert hs hr hd hd'
  cases he with
  | smalloc hs => exact hserve hs fun _ => rfl
  | scalloc hs => exact hserve hs fun hr => hfits.size_eq hs hr
  | freeNull => exact h.filter _
  | @sfree as cs b hbs =>
      subst hbs
      exact (h.filter _).free fun a ha => ne_of_mem_filter ha
  | reallocNull hs => exact hserve hs fun _ => rfl
  | @srealloc size r b bs' hb hre =>
      have hne : b.payload ≠ 0 := by
        unfold Block.payload sizeofMetadata
        omega
      -- the block is in use, since its pointer is live
      obtain ⟨a, ha, hap⟩ : ∃ a ∈ live, a.ptr = b.payload := hlegal.1.resolve_left hne
      obtain ⟨b', hb', hbp, hf, -⟩ := h.block a ha
      obtain rfl : b' = b := List.inj_on_of_nodup_map hd hb' hb (payload_inj (hbp.trans hap))
      cases hre with
      | kept hle =>
          rw [Call.live_srealloc, if_neg hne]
          refine ⟨?_, fun a ha => ?_⟩
          · rw [List.map_cons, List.nodup_cons]
            refine ⟨fun hmem => ?_, (h.filter _).distinct⟩
            obtain ⟨a, ha, hp⟩ := List.mem_map.mp hmem
            exact ne_of_mem_filter ha hp
          · obtain rfl | ha := List.mem_cons.mp ha
            · exact ⟨b', hb, rfl, hf, hle⟩
            · exact (h.filter _).block a ha
      | refused => exact h
      | @moved as cs c _ hlt hr hs haddr =>
          have hcp : c.payload = b'.payload := by
            unfold Block.payload
            rw [haddr]
          have hd₁ : ((as ++ c :: cs).map Block.addr).Nodup := by simpa using hd'
          rw [Call.live_srealloc, if_neg hr]
          refine ((h.filter _).insert hs hr hd hd₁).free fun a ha => ?_
          rw [hcp]
          obtain rfl | ha := List.mem_cons.mp ha
          · exact (hs.ne_used hd hd₁ hb hf).symm
          · exact ne_of_mem_filter ha

/-! ### Runs -/

theorem Heap.init (h : Initial w) : Heap w.state [] := by
  obtain ⟨-, -, hheap, hobt, hbrk, hpos, hle, hpage⟩ := h
  have hregion : Region w.state.sys :=
    ⟨hpos, by rwa [hbrk], fun x h₁ h₂ => by omega, by rwa [hbrk]⟩
  refine ⟨⟨hregion, hbrk.symm, le_rfl, by simp, ?_, by simp⟩, hobt, ?_⟩
  · show nx w.state 0 = 0
    rw [nx, if_pos rfl, hheap]
  · rw [hheap]
    constructor <;> rfl

/-- The client stores a byte into what it was given. -/
theorem Heap.store (h : Heap s bs) {x : ℕ} {v : UInt8} {a : Alloc} (hb : b ∈ bs)
    (hp : b.payload = a.ptr) (hle : a.bytes ≤ b.size) (h₁ : a.ptr ≤ x) (h₂ : x < a.ptr + a.bytes) :
    Heap (s.store x v) bs := by
  refine h.of_payload rfl hb fun y hy => Memory.fill_byte_of_not_mem _ _ ?_
  unfold Block.payload at hp hy
  unfold Block.stop at hy
  omega

/-- What a run keeps, whichever of the returned pointers the client uses. -/
theorem reachable_returned (h : (allocator World.returned).Reachable w) :
    ∃ bs, Heap w.state bs ∧ Known bs w.returned := by
  refine h.invariant (I := fun w => ∃ bs, Heap w.state bs ∧ Known bs w.returned)
    (fun w h₀ => ⟨[], .init h₀, by simp [Known, h₀.returned]⟩) ?_
  rintro w e w' ⟨bs, hheap, hknown⟩ - hs
  cases hs with
  | @call c r s' hlegal hrun =>
      have hp : c.ptr = 0 ∨ ∃ b ∈ bs, b.payload = c.ptr := by
        refine hlegal.1.imp_right fun ⟨a, ha, hap⟩ => ?_
        obtain ⟨b, hb, hbp, -⟩ := hknown a ha
        exact ⟨b, hb, hbp.trans hap⟩
      obtain ⟨r', s'', bs', hrun', heff, hheap'⟩ := hheap.call_run c hp
      rw [hrun] at hrun'
      cases hrun'
      exact ⟨bs', hheap', hknown.call heff⟩
  | @store a x v ha h₁ h₂ =>
      obtain ⟨b, hb, hp, hle⟩ := hknown a ha
      exact ⟨bs, hheap.store hb hp hle h₁ h₂, hknown⟩

/-- What a run keeps if the client uses live pointers only. -/
theorem run_live (h : (allocator World.live).Run Event.Fits w) :
    ∃ bs, Heap w.state bs ∧ Live bs w.live := by
  refine h.invariant (I := fun w => ∃ bs, Heap w.state bs ∧ Live bs w.live)
    (fun w h₀ => ⟨[], .init h₀, by simp [h₀.live], by simp [h₀.live]⟩) ?_
  rintro w e w' ⟨bs, hheap, hlive⟩ hfits hs
  cases hs with
  | @call c r s' hlegal hrun =>
      have hp : c.ptr = 0 ∨ ∃ b ∈ bs, b.payload = c.ptr := by
        refine hlegal.1.imp_right fun ⟨a, ha, hap⟩ => ?_
        obtain ⟨b, hb, hbp, -⟩ := hlive.block a ha
        exact ⟨b, hb, hbp.trans hap⟩
      obtain ⟨r', s'', bs', hrun', heff, hheap'⟩ := hheap.call_run c hp
      rw [hrun] at hrun'
      cases hrun'
      exact ⟨bs', hheap', hlive.call hlegal hfits hheap.shape.tiles.nodup_addr
        hheap'.shape.tiles.nodup_addr heff⟩
  | @store a x v ha h₁ h₂ =>
      obtain ⟨b, hb, hp, -, hle⟩ := hlive.block a ha
      exact ⟨bs, hheap.store hb hp ((Nat.mod_le _ _).trans hle) h₁ h₂, hlive⟩

/-! ### What a client sees -/

theorem chain_of_linked {m : Memory} {nx pv : ℕ → ℕ} {a : ℕ}
    (hn : ∀ b ∈ bs, nx b.addr = metadata.get m .next b.addr)
    (hp : ∀ b ∈ bs, pv b.addr = metadata.get m .prev b.addr)
    (hh : ∀ b ∈ bs, blockAt m b.addr = b) (hl : Linked nx pv a (bs.map Block.addr))
    (hf : ∀ b ∈ bs.head?, metadata.get m .prev b.addr = a) :
    ChainWalk m (nx a) bs ∧ BackLinks m a bs := by
  induction bs generalizing a with
  | nil => exact ⟨hl, trivial⟩
  | cons b bs ih =>
      obtain ⟨ha, hne, -, hl⟩ := hl
      simp only [List.forall_mem_cons] at hn hp hh
      have hfirst : ∀ c ∈ bs.head?, metadata.get m .prev c.addr = b.addr := by
        intro c hc
        cases bs with
        | nil => simp at hc
        | cons d bs =>
            obtain rfl : d = c := by simpa using hc
            rw [← hp.2 d (by simp)]
            exact hl.2.2.1 hne
      obtain ⟨hchain, hback⟩ := ih hn.2 hp.2 hh.2 hl hfirst
      rw [hn.1] at hchain
      refine ⟨⟨by rwa [ha], ?_, ?_⟩, hf b (by simp), hback⟩
      · rw [ha]
        exact hh.1.symm
      · rwa [ha]

namespace Heap

theorem chain (h : Heap s bs) : ListBlocks s bs ∧ BackLinks s.sys.mem 0 bs := by
  have := chain_of_linked (m := s.sys.mem) (fun b hb => ?_) (fun b _ => rfl) h.shape.header
    h.shape.linked h.shape.first
  · exact this
  · rw [nx, if_neg (h.shape.ne_zero hb)]

theorem sorted (h : Heap s bs) : s.obtained.Pairwise (· < ·) := by
  rw [h.obtained]
  exact h.shape.tiles.sorted

/-- Payloads of different blocks are apart. -/
theorem payload_apart (h : Heap s bs) (hb : b ∈ bs) (hc : c ∈ bs) (hne : b.payload ≠ c.payload) :
    b.stop ≤ c.payload ∨ c.stop ≤ b.payload := by
  unfold Block.payload at hne ⊢
  obtain rfl | h | h := h.shape.eq_or_apart hb hc
  · exact absurd rfl hne
  · exact .inl (by omega)
  · exact .inr (by omega)

end Heap

/-- **Safety.**  In every run in which no product of `scalloc` is served after it has wrapped,
the list holds exactly the blocks that `sbrk` has given, in increasing order and linked both
ways; each live pointer is the payload of a block in use that is large enough; and the payloads
of two live allocations are apart. -/
theorem allocations_safe (h : (allocator World.live).Run Event.Fits w) :
    ∃ bs, ListBlocks w.state bs ∧ bs.map Block.addr = w.state.obtained ∧
      w.state.obtained.Pairwise (· < ·) ∧ BackLinks w.state.sys.mem 0 bs ∧
      (∀ a ∈ w.live, ∃ b ∈ bs, b.payload = a.ptr ∧ b.free = false ∧ a.size ≤ b.size) ∧
      w.live.Pairwise fun a a' => ∀ b ∈ bs, ∀ b' ∈ bs, b.payload = a.ptr → b'.payload = a'.ptr →
        b.stop ≤ b'.payload ∨ b'.stop ≤ b.payload := by
  obtain ⟨bs, hheap, hlive⟩ := run_live h
  refine ⟨bs, hheap.chain.1, hheap.obtained.symm, hheap.sorted, hheap.chain.2, hlive.block, ?_⟩
  have hd := hlive.distinct
  rw [List.Nodup, List.pairwise_map] at hd
  refine hd.imp fun hne b hb b' hb' hp hp' => hheap.payload_apart hb hb' ?_
  rwa [hp, hp']

/-- Three live allocations: an array in a block that is used again, one that has moved, and one where
that was before. -/
theorem allocations_safe_reused :
    ∃ w : World, w.live = [⟨65700, 30⟩, ⟨65782, 80⟩, ⟨65568, 60⟩] ∧
      ∃ bs, ListBlocks w.state bs ∧
        ∀ a ∈ w.live, ∃ b ∈ bs, b.payload = a.ptr ∧ b.free = false ∧ a.size ≤ b.size := by
  let P : World → Call → Bool := fun _ c => decide (c.size < 2 ^ 64)
  have hPQ : ∀ w c, P w c = true → Event.Fits w (.call c) := by
    intro w c h
    cases c with
    | scalloc num size => exact .inl (of_decide_eq_true h)
    | smalloc | sfree | srealloc => exact trivial
  obtain ⟨w, hw, hlive⟩ := World.exists_of_execIf World.live hPQ [.smalloc 100, .smalloc 50,
    .sfree 65568, .scalloc 3 20, .srealloc 65700 80, .smalloc 30]
    (fun w => w.live == [⟨65700, 30⟩, ⟨65782, 80⟩, ⟨65568, 60⟩]) (by decide +kernel)
  obtain ⟨bs, hlist, -, -, -, hblock, -⟩ := allocations_safe hw
  exact ⟨w, by simpa using hlive, bs, hlist, hblock⟩

/-- The block of a pointer is read off its header. -/
theorem ChainWalk.blockAt_eq {m : Memory} {p : ℕ} (h : ChainWalk m p bs) (hb : b ∈ bs) :
    blockAt m b.addr = b := by
  induction bs generalizing p with
  | nil => simp at hb
  | cons c bs ih =>
      obtain ⟨-, hc, h⟩ := h
      obtain rfl | hb := List.mem_cons.mp hb
      · rw [hc, blockAt_addr]
      · exact ih h hb

/-- `scalloc(2 ^ 63 + 1, 2)` is served with a block of two bytes. -/
theorem scalloc_wraps :
    ∃ w : World, (allocator World.live).Reachable w ∧ ∃ a ∈ w.live, a.size = (2 ^ 63 + 1) * 2 ∧
      ∀ bs, ListBlocks w.state bs → ¬∃ b ∈ bs, b.payload = a.ptr ∧ a.size ≤ b.size := by
  obtain ⟨w, hw, hf⟩ := World.exists_of_exec World.live [.scalloc (2 ^ 63 + 1) 2]
    (fun w => w.live == [⟨65568, (2 ^ 63 + 1) * 2⟩] &&
      metadata.get w.state.sys.mem .size 65536 == 2) (by decide +kernel)
  simp only [Bool.and_eq_true, beq_iff_eq] at hf
  obtain ⟨hlive, hsize⟩ := hf
  refine ⟨w, hw, ⟨65568, (2 ^ 63 + 1) * 2⟩, by simp [hlive], rfl, ?_⟩
  rintro bs hlist ⟨b, hb, hp, hle⟩
  have haddr : b.addr = 65536 := payload_inj (c := ⟨65536, 0, false⟩) hp
  have hsz := congrArg Block.size (hlist.blockAt_eq hb)
  rw [haddr] at hsz
  change metadata.get w.state.sys.mem .size 65536 = b.size at hsz
  rw [hsize] at hsz
  simp only at hle
  omega

/-- **The statistics are exact**, whichever of the returned pointers the client hands back, live
or freed; the counters that `smalloc` decreases are large enough, and every call returns. -/
theorem statistics_exact (h : (allocator World.returned).Reachable w) :
    (∃ bs, ListBlocks w.state bs ∧
      w.state.heap.numAllocatedBlocks = bs.length ∧
      w.state.heap.numAllocatedBytes = (bs.map Block.size).sum ∧
      w.state.heap.numFreeBlocks = bs.countP Block.free ∧
      w.state.heap.numFreeBytes = ((bs.filter Block.free).map Block.size).sum ∧
      w.state.heap.numMetaDataBytes = bs.length * sizeofMetadata ∧
      ∀ b ∈ bs, b.free = true → 1 ≤ w.state.heap.numFreeBlocks ∧
        b.size ≤ w.state.heap.numFreeBytes) ∧
    ∀ c : Call, c.Legal w.returned → ∃ r s', c.code.run w.state = .ok (r, s') := by
  obtain ⟨bs, hheap, hknown⟩ := reachable_returned h
  obtain ⟨h₁, h₂, h₃, h₄, h₅⟩ := hheap.counted
  refine ⟨⟨bs, hheap.chain.1, h₃, h₄, h₁, h₂, h₅, fun b hb hf => ⟨?_, ?_⟩⟩, fun c hc => ?_⟩
  · rw [h₁]
    exact List.countP_pos_iff.mpr ⟨b, hb, hf⟩
  · rw [h₂]
    exact List.le_sum_of_mem (List.mem_map_of_mem (List.mem_filter.mpr ⟨hb, hf⟩))
  · obtain ⟨r, s', -, hrun, -⟩ := hheap.call_run c (hc.1.imp_right fun ⟨a, ha, hap⟩ => by
      obtain ⟨b, hb, hp, -⟩ := hknown a ha
      exact ⟨b, hb, hp.trans hap⟩)
    exact ⟨r, s', hrun⟩

/-- A block that is freed twice, with a second one behind it. -/
theorem statistics_exact_freed_twice :
    ∃ w : World, w.state.heap.numFreeBlocks = 1 ∧ ∃ bs, ListBlocks w.state bs ∧
      bs.countP Block.free = 1 := by
  obtain ⟨w, hw, hf⟩ := World.exists_of_exec World.returned
    [.smalloc 100, .smalloc 50, .sfree 65568, .sfree 65568]
    (fun w => w.state.heap.numFreeBlocks == 1) (by decide +kernel)
  obtain ⟨bs, hlist, -, -, hcount, -⟩ := (statistics_exact hw).1
  rw [beq_iff_eq] at hf
  exact ⟨w, hf, bs, hlist, by rw [← hcount, hf]⟩

end OsProjects.Malloc2
