import OsProjects.VirtualMemory.Malloc2.Footprint

/-! # The allocator is first fit

`Arena` is what `malloc_2.cpp` is for: a row of blocks and the place behind it.  A request takes the
first free block that is large enough, whole, and only if there is none it asks for more memory,
which is granted or not.  In every state that a client can reach, with whatever pointers it was ever
given, each call returns what the arena answers, leaves the blocks that the arena has afterwards,
and makes a system call exactly when the arena asks for more (`calls_refine_arena`). -/

namespace OsProjects.Malloc2

variable {α β : Type} {s s' : State} {as bs bs' cs : List Block} {b c : Block} {w : World}
  {brk n p r size : ℕ} {more : Bool}

/-! ### The arena -/

/-- A row of blocks, and where the next one would begin. -/
structure Arena where
  blocks : List Block
  brk : ℕ
deriving DecidableEq, Repr

/-- The first block that fits is taken. -/
def takeFirst (size : ℕ) : List Block → Option (Block × List Block)
  | [] => none
  | b :: bs =>
    if b.fits size then some (b, { b with free := false } :: bs)
    else (takeFirst size bs).map fun t => (t.1, b :: t.2)

/-- The block at the payload `p` is free. -/
def Block.release (p : ℕ) (b : Block) : Block := if b.payload = p then { b with free := true } else b

namespace Arena

variable (a : Arena)

/-- A request has to ask for more memory. -/
def asks (size : ℕ) : Bool :=
  decide (0 < size) && decide (size ≤ sizeLimit) && a.blocks.all fun b => !b.fits size

/-- A request; `more` tells whether more memory would be granted. -/
def request (more : Bool) (size : ℕ) : ℕ × Arena :=
  if size = 0 ∨ sizeLimit < size then (0, a)
  else
    match takeFirst size a.blocks with
    | some (b, bs) => (b.payload, { a with blocks := bs })
    | none =>
      if more then
        (a.brk + sizeofMetadata,
          ⟨a.blocks ++ [⟨a.brk, size, false⟩], a.brk + (size + sizeofMetadata)⟩)
      else (0, a)

def release (p : ℕ) : Arena := { a with blocks := a.blocks.map (Block.release p) }

/-- A request for a block that replaces the one at `p`, which must be known. -/
def resize (more : Bool) (p size : ℕ) : ℕ × Arena :=
  match a.blocks.find? fun b => b.payload == p with
  | none => a.request more size
  | some b =>
    if size ≤ b.size then (p, a)
    else
      let t := a.request more size
      if t.1 = 0 then t else (t.1, t.2.release p)

/-- What a call returns and leaves. -/
def call (more : Bool) : Call → ℕ × Arena
  | .smalloc size => a.request more size
  | .scalloc num size => a.request more (num * size % 2 ^ 64)
  | .sfree p => (0, a.release p)
  | .srealloc p size => a.resize more p size

/-- A call that has to ask for more memory. -/
def callAsks : Call → Bool
  | .smalloc size => a.asks size
  | .scalloc num size => a.asks (num * size % 2 ^ 64)
  | .sfree _ => false
  | .srealloc p size =>
    match a.blocks.find? fun b => b.payload == p with
    | none => a.asks size
    | some b => decide (b.size < size) && a.asks size

end Arena

/-- Whether the system would grant what a call may ask for. -/
def Call.granted (s : State) (c : Call) : Bool :=
  c.request.any fun n => (s.sys.sbrk (n + sizeofMetadata)).1 != failed

/-! ### Requests -/

theorem takeFirst_append (h : ∀ a ∈ as, a.fits size = false) (hb : b.fits size = true) :
    takeFirst size (as ++ b :: cs) = some (b, as ++ { b with free := false } :: cs) := by
  induction as with
  | nil => rw [List.nil_append, takeFirst, if_pos hb, List.nil_append]
  | cons a as ih =>
      obtain ⟨ha, has⟩ := List.forall_mem_cons.mp h
      rw [List.cons_append, takeFirst, if_neg (by simp [ha]), ih has]
      rfl

theorem takeFirst_none (h : ∀ a ∈ bs, a.fits size = false) : takeFirst size bs = none := by
  induction bs with
  | nil => rfl
  | cons a bs ih =>
      obtain ⟨ha, hbs⟩ := List.forall_mem_cons.mp h
      rw [takeFirst, if_neg (by simp [ha]), ih hbs]
      rfl

/-- Either no block fits, or there is a first one that does. -/
theorem fits_cases (size : ℕ) (bs : List Block) :
    (∀ a ∈ bs, a.fits size = false) ∨
      ∃ as b cs, bs = as ++ b :: cs ∧ (∀ a ∈ as, a.fits size = false) ∧ b.fits size = true := by
  cases hf : bs.find? (Block.fits size) with
  | none => exact .inl (by simpa using hf)
  | some b =>
      obtain ⟨hb, as, cs, hsplit, has⟩ := List.find?_eq_some_iff_append.mp hf
      exact .inr ⟨as, b, cs, hsplit, fun a ha => by simpa using has a ha, hb⟩

namespace Arena

variable {a : Arena}

theorem request_of_not (h : size = 0 ∨ sizeLimit < size) : a.request more size = (0, a) := by
  unfold request
  rw [if_pos h]

theorem request_found (hsize : ¬(size = 0 ∨ sizeLimit < size)) (hbs : a.blocks = as ++ b :: cs)
    (has : ∀ a ∈ as, a.fits size = false) (hb : b.fits size = true) :
    a.request more size =
      (b.payload, { a with blocks := as ++ { b with free := false } :: cs }) := by
  unfold request
  rw [if_neg hsize, hbs, takeFirst_append has hb]

theorem request_none (hsize : ¬(size = 0 ∨ sizeLimit < size))
    (h : ∀ b ∈ a.blocks, b.fits size = false) :
    a.request more size = if more then (a.brk + sizeofMetadata,
      ⟨a.blocks ++ [⟨a.brk, size, false⟩], a.brk + (size + sizeofMetadata)⟩) else (0, a) := by
  unfold request
  rw [if_neg hsize, takeFirst_none h]

theorem asks_of_not (h : size = 0 ∨ sizeLimit < size) : a.asks size = false := by
  unfold asks
  simp only [Bool.and_eq_false_iff, decide_eq_false_iff_not]
  omega

theorem asks_none (hsize : ¬(size = 0 ∨ sizeLimit < size))
    (h : ∀ b ∈ a.blocks, b.fits size = false) : a.asks size = true := by
  unfold asks
  simp only [Bool.and_eq_true, decide_eq_true_eq, List.all_eq_true, Bool.not_eq_true']
  exact ⟨by omega, h⟩

theorem asks_found (hb : b ∈ a.blocks) (h : b.fits size = true) : a.asks size = false := by
  unfold asks
  rw [Bool.and_eq_false_iff, List.all_eq_false]
  exact .inr ⟨b, hb, by simp [h]⟩

/-- The arena serves a request as the list of blocks does. -/
theorem request_serves (a : Arena) (more : Bool) (size : ℕ) :
    Serves size a.brk a.blocks (a.request more size).1 (a.request more size).2.blocks := by
  by_cases hsize : size = 0 ∨ sizeLimit < size
  · rw [request_of_not hsize]
    exact .refused
  · obtain hfits | ⟨as, b, cs, hbs, has, hb⟩ := fits_cases size a.blocks
    · rw [request_none hsize hfits]
      cases more with
      | false => exact .refused
      | true => exact .fresh ⟨by omega, by omega⟩ hfits
    · rw [request_found hsize hbs has hb, hbs]
      exact .reused ⟨by omega, by omega⟩ has hb

end Arena

/-- What a request leaves is known from what it returns. -/
theorem Serves.unique {bs₁ bs₂ : List Block} (h₁ : Serves size brk bs r bs₁)
    (h₂ : Serves size brk bs r bs₂) : bs₁ = bs₂ := by
  have hne : ∀ b : Block, b.payload ≠ 0 := fun b => b.payload_ne_zero
  have hbrk : brk + sizeofMetadata ≠ 0 := by
    unfold sizeofMetadata
    omega
  generalize hr : r = q at h₂
  cases h₁ with
  | refused =>
      cases h₂ with
      | refused => rfl
      | reused => exact absurd hr.symm (hne _)
      | fresh => exact absurd hr.symm hbrk
  | @reused as cs b _ has hb =>
      generalize hbs : as ++ b :: cs = l at h₂
      cases h₂ with
      | refused => exact absurd hr (hne _)
      | @reused as' cs' b' _ has' hb' =>
          have h : takeFirst size (as ++ b :: cs) = _ := takeFirst_append has hb
          rw [hbs, takeFirst_append has' hb'] at h
          simp only [Option.some.injEq, Prod.mk.injEq] at h
          exact h.2.symm
      | fresh _ hfits =>
          have h := hfits b (by rw [← hbs]; simp)
          rw [hb] at h
          cases h
  | fresh _ hfits =>
      generalize hbs : bs = l at h₂
      cases h₂ with
      | refused => exact absurd hr hbrk
      | @reused as' cs' b' _ has' hb' =>
          have h := hfits b' (by rw [hbs]; simp)
          rw [hb'] at h
          cases h
      | fresh => rfl

/-! ### What the code asks of the system -/

/-- The program changes nothing of the system but the memory, and returns a value with `P`. -/
def Quiet (q : M α) (P : α → Prop) : Prop :=
  ∀ s x s', q.run s = .ok (x, s') → P x ∧ ∃ m, s'.sys = { s.sys with mem := m }

namespace Quiet

variable {P : α → Prop} {Q : β → Prop}

theorem pure {x : α} (h : P x) : Quiet (Pure.pure x) P := by
  intro s y s' hrun
  rw [Prog.run_pure] at hrun
  cases hrun
  exact ⟨h, _, rfl⟩

theorem bind {q : M α} {f : α → M β} (hq : Quiet q P) (hf : ∀ x, P x → Quiet (f x) Q) :
    Quiet (q >>= f) Q := by
  intro s y s' hrun
  obtain ⟨x, s₁, hx, hy⟩ := Prog.run_bind_eq_ok.mp hrun
  obtain ⟨hP, m, hm⟩ := hq s x s₁ hx
  obtain ⟨hQ, m', hm'⟩ := hf x hP s₁ y s' hy
  exact ⟨hQ, m', by rw [hm', hm]⟩

theorem ite {c : Prop} [Decidable c] {q q' : M α} (h : c → Quiet q P) (h' : ¬c → Quiet q' P) :
    Quiet (if c then q else q') P := by
  split
  next hc => exact h hc
  next hc => exact h' hc

theorem setHeap (g : MemoryList → MemoryList) : Quiet (setHeap g) fun _ => True := by
  intro s x s' hrun
  rw [run_setHeap] at hrun
  cases hrun
  exact ⟨trivial, _, rfl⟩

/-- An access returns from a state in which nothing or only the memory has changed. -/
theorem access {ok : State → Bool} {x : State → α} {m : State → Memory} :
    Quiet (fun s => if ok s then .ok (x s, s.setMem (m s)) else .error .fault) fun _ => True := by
  intro s y s' hrun
  unfold Prog.run at hrun
  simp only at hrun
  split at hrun
  next =>
    cases hrun
    exact ⟨trivial, _, rfl⟩
  next => cases hrun

theorem get (f : Field) (p : ℕ) : Quiet (get f p) fun _ => True :=
  access (x := fun s => metadata.get s.sys.mem f p) (m := fun s => s.sys.mem)

theorem set (f : Field) (p v : ℕ) : Quiet (set f p v) fun _ => True := access

theorem memmove (dst src n : ℕ) : Quiet (memmove dst src n) fun _ => True := access

theorem memset (dst n : ℕ) (v : UInt8) : Quiet (memset dst n v) fun _ => True := access

theorem reuse (p : ℕ) : Quiet (reuse p) (· = add64 p sizeofMetadata) := by
  unfold Malloc2.reuse
  exact (set _ _ _).bind fun _ _ => (get _ _).bind fun _ _ => (setHeap _).bind fun _ _ => pure rfl

theorem sfree (p : ℕ) : Quiet (sfree p) fun _ => True := by
  unfold Malloc2.sfree
  refine ite (fun _ => pure trivial) fun _ => (get _ _).bind fun _ _ => ite (fun _ => ?_) fun _ =>
    pure trivial
  exact (set _ _ _).bind fun _ _ => (get _ _).bind fun _ _ => setHeap _

end Quiet

/-- Every request of a size other than 0 is counted. -/
theorem sbrk_calls (t : System) (h₀ : n ≠ 0) (hn : n < 2 ^ 63) :
    (t.sbrk n).2.calls = t.calls + 1 := by
  unfold System.sbrk
  rw [if_neg h₀, if_pos hn]
  unfold System.grow
  simp only
  split <;> rfl

/-- A new block is what `sbrk` returns, or nothing if it fails. -/
structure Obtains (n : ℕ) (s : State) (r : ℕ) (s' : State) : Prop where
  sys : ∃ m, s'.sys = { (s.sys.sbrk n).2 with mem := m }
  refused : (s.sys.sbrk n).1 = failed → r = 0
  granted : (s.sys.sbrk n).1 ≠ failed → r = add64 (s.sys.sbrk n).1 sizeofMetadata

theorem obtains_of_sbrk {rest : ℕ → M ℕ}
    (hrest : ∀ p, Quiet (rest p) (· = add64 p sizeofMetadata))
    (hrun : (sbrk n >>= fun p => if p = failed then Pure.pure 0 else rest p).run s = .ok (r, s')) :
    Obtains n s r s' := by
  obtain ⟨p, s₁, hsbrk, hrun⟩ := Prog.run_bind_eq_ok.mp hrun
  have hp : p = (s.sys.sbrk n).1 ∧ s₁.sys = (s.sys.sbrk n).2 := by
    unfold sbrk Prog.run at hsbrk
    cases hsbrk
    exact ⟨rfl, rfl⟩
  obtain ⟨rfl, hsys⟩ := hp
  obtain ⟨hfail, hrun⟩ | ⟨hne, hrun⟩ := Prog.run_ite_eq_ok.mp hrun
  · rw [Prog.run_pure] at hrun
    cases hrun
    exact ⟨⟨_, hsys⟩, fun _ => rfl, fun h => absurd hfail h⟩
  · obtain ⟨hr, m, hm⟩ := hrest _ s₁ r s' hrun
    exact ⟨⟨m, by rw [hm, hsys]⟩, fun h => absurd h hne, fun _ => hr⟩

theorem firstAllocation_obtains (h : (firstAllocation size).run s = .ok (r, s')) :
    Obtains (add64 size sizeofMetadata) s r s' :=
  obtains_of_sbrk (fun _ => (Quiet.setHeap _).bind fun _ _ => (Quiet.set _ _ _).bind fun _ _ =>
    (Quiet.set _ _ _).bind fun _ _ => (Quiet.set _ _ _).bind fun _ _ => (Quiet.set _ _ _).bind
    fun _ _ => (Quiet.setHeap _).bind fun _ _ => .pure rfl) h

theorem append_obtains (h : (append size p).run s = .ok (r, s')) :
    Obtains (add64 size sizeofMetadata) s r s' :=
  obtains_of_sbrk (fun _ => (Quiet.set _ _ _).bind fun _ _ => (Quiet.set _ _ _).bind fun _ _ =>
    (Quiet.set _ _ _).bind fun _ _ => (Quiet.set _ _ _).bind fun _ _ => (Quiet.set _ _ _).bind
    fun _ _ => (Quiet.setHeap _).bind fun _ _ => .pure rfl) h

/-! ### Requests of the code -/

namespace Heap

/-- A block that fits is taken. -/
theorem smalloc_found (h : Heap s (as ++ b :: cs)) (hsize : ¬(size = 0 ∨ sizeLimit < size))
    (has : ∀ a ∈ as, a.fits size = false) (hb : b.fits size = true) :
    (smalloc size).run s = (reuse b.addr).run s := by
  obtain ⟨c, ds, hbs⟩ : ∃ c ds, as ++ b :: cs = c :: ds := by cases as <;> simp
  have hfind : (c :: ds).find? (Block.fits size) = some b :=
    List.find?_eq_some_iff_append.mpr ⟨hb, as, cs, hbs.symm, fun a ha => by simp [has a ha]⟩
  rw [hbs] at h
  have hhead : s.heap.head = c.addr := h.shape.head_eq
  have hne := h.shape.ne_zero (b := c) (by simp)
  unfold smalloc
  rw [Prog.run_ite, if_neg hsize, Prog.run_bind_ok (run_getHeap s), Prog.run_ite,
    if_neg (by rwa [hhead]), Prog.run_bind_ok (run_getHeap s), hhead,
    Prog.run_bind_ok (h.shape.search_head size h.shape.length_lt), Shape.searchResult, hfind]

/-- If no block fits, a new one is asked for. -/
theorem smalloc_new (h : Heap s bs) (hsize : ¬(size = 0 ∨ sizeLimit < size))
    (hfits : ∀ a ∈ bs, a.fits size = false) (hrun : (smalloc size).run s = .ok (r, s')) :
    Obtains (add64 size sizeofMetadata) s r s' := by
  unfold smalloc at hrun
  rw [Prog.run_ite, if_neg hsize, Prog.run_bind_ok (run_getHeap s), Prog.run_ite] at hrun
  cases bs with
  | nil =>
      have hhead : s.heap.head = 0 := h.shape.head_eq
      rw [if_pos hhead] at hrun
      exact firstAllocation_obtains hrun
  | cons c ds =>
      have hhead : s.heap.head = c.addr := h.shape.head_eq
      have hne := h.shape.ne_zero (b := c) (by simp)
      have hfind : (c :: ds).find? (Block.fits size) = none := by simpa using hfits
      rw [if_neg (by rwa [hhead]), Prog.run_bind_ok (run_getHeap s), hhead,
        Prog.run_bind_ok (h.shape.search_head size h.shape.length_lt), Shape.searchResult,
        hfind] at hrun
      exact append_obtains hrun

end Heap

/-- What the system sees of a request and what the request returns are the arena's. -/
structure Answers (s : State) (t : ℕ × Arena) (asks : Bool) (r : ℕ) (s' : State) : Prop where
  result : r = t.1
  brk : s'.sys.brk = t.2.brk
  calls : s'.sys.calls = s.sys.calls + asks.toNat

/-- **`smalloc` answers as the arena does.** -/
theorem Heap.smalloc_answers (h : Heap s bs) (hrun : (smalloc size).run s = .ok (r, s')) :
    Answers s (Arena.request ⟨bs, s.sys.brk⟩ ((s.sys.sbrk (size + sizeofMetadata)).1 != failed) size)
      (Arena.asks ⟨bs, s.sys.brk⟩ size) r s' := by
  by_cases hsize : size = 0 ∨ sizeLimit < size
  · unfold smalloc at hrun
    rw [Prog.run_ite, if_pos hsize, Prog.run_pure] at hrun
    cases hrun
    rw [Arena.request_of_not hsize, Arena.asks_of_not hsize]
    exact ⟨rfl, rfl, rfl⟩
  · obtain hfits | ⟨as, b, cs, rfl, has, hb⟩ := fits_cases size bs
    · have hn : add64 size sizeofMetadata = size + sizeofMetadata := by
        unfold sizeLimit at hsize
        exact add64_eq (by unfold sizeofMetadata; omega)
      have hobt := h.smalloc_new hsize hfits hrun
      rw [hn] at hobt
      obtain ⟨⟨m, hm⟩, hrefused, hgranted⟩ := hobt
      have hlt : size + sizeofMetadata < 2 ^ 63 := by
        unfold sizeLimit at hsize
        unfold sizeofMetadata
        omega
      have hcalls := sbrk_calls s.sys (n := size + sizeofMetadata) (by unfold sizeofMetadata; omega)
        hlt
      rw [Arena.request_none hsize hfits, Arena.asks_none hsize hfits]
      obtain ⟨hr, -, hbrk, -⟩ | ⟨hr, hne, hx⟩ :=
        s.sys.sbrk_cases hlt h.shape.region.brk_le
      · rw [hr, bne_self_eq_false, if_neg (by decide)]
        exact ⟨hrefused hr, by rw [hm]; exact hbrk, by rw [hm]; exact hcalls⟩
      · have hbne : ((s.sys.sbrk (size + sizeofMetadata)).1 != failed) = true := bne_iff_ne.mpr hne
        rw [hbne, if_pos rfl]
        refine ⟨?_, by rw [hm]; exact hx.brk, by rw [hm]; exact hcalls⟩
        rw [hgranted hne, hr]
        have hle := h.shape.region.brk_le
        unfold userTop at hle
        exact add64_eq (by unfold sizeofMetadata; omega)
    · rw [h.smalloc_found hsize has hb] at hrun
      obtain ⟨hr, m, hm⟩ := Quiet.reuse b.addr s r s' hrun
      rw [Arena.request_found hsize rfl has hb, Arena.asks_found (b := b) (by simp) hb]
      refine ⟨?_, by rw [hm], by rw [hm]; rfl⟩
      rw [hr]
      exact h.shape.payload_eq (by simp)

/-- The state is the arena `a`. -/
structure Arena.Of (a : Arena) (s : State) : Prop where
  heap : Heap s a.blocks
  brk : s.sys.brk = a.brk

/-- A call from the arena `a` returns `t.1` and leads to the arena `t.2`. -/
def Refines (s : State) (q : M ℕ) (t : ℕ × Arena) (asks : Bool) : Prop :=
  ∃ s', q.run s = .ok (t.1, s') ∧ t.2.Of s' ∧ s'.sys.calls = s.sys.calls + asks.toNat

/-! ### The calls -/

theorem map_release_of_ne (h : ∀ c ∈ bs, c.payload ≠ p) : bs.map (Block.release p) = bs := by
  conv_rhs => rw [← List.map_id bs]
  refine List.map_congr_left fun c hc => ?_
  unfold Block.release
  rw [if_neg (h c hc)]
  rfl

/-- Only one block is at a payload. -/
theorem payload_ne_of_nodup (hd : ((as ++ b :: cs).map Block.addr).Nodup) :
    ∀ c ∈ as ++ cs, c.payload ≠ b.payload := by
  intro c hc hp
  have hmem : c ∈ as ++ b :: cs := by
    rw [List.mem_append] at hc
    obtain hc | hc := hc <;> simp [hc]
  obtain rfl := List.inj_on_of_nodup_map hd hmem (by simp) (payload_inj hp)
  have hn := hd.of_map
  rw [List.nodup_middle, List.nodup_cons] at hn
  exact hn.1 hc

theorem map_release (hd : ((as ++ b :: cs).map Block.addr).Nodup) :
    (as ++ b :: cs).map (Block.release b.payload) = as ++ { b with free := true } :: cs := by
  have hne := payload_ne_of_nodup hd
  rw [List.map_append, List.map_cons,
    map_release_of_ne fun c hc => hne c (List.mem_append_left _ hc),
    map_release_of_ne fun c hc => hne c (List.mem_append_right _ hc), Block.release, if_pos rfl]

theorem find_payload (hd : (bs.map Block.addr).Nodup) (hb : b ∈ bs) :
    bs.find? (fun c => c.payload == b.payload) = some b := by
  obtain ⟨as, cs, rfl⟩ := List.append_of_mem hb
  have hne := payload_ne_of_nodup hd
  refine List.find?_eq_some_iff_append.mpr ⟨by simp, as, cs, rfl, fun c hc => ?_⟩
  simpa using hne c (List.mem_append_left _ hc)

theorem find_null : bs.find? (fun c => c.payload == 0) = none :=
  List.find?_eq_none.mpr fun c _ => by simpa using c.payload_ne_zero

namespace Heap

/-- **A request** of the code and of the arena. -/
theorem smalloc_refines (h : Heap s bs) (size : ℕ) :
    Refines s (smalloc size)
      (Arena.request ⟨bs, s.sys.brk⟩ ((s.sys.sbrk (size + sizeofMetadata)).1 != failed) size)
      (Arena.asks ⟨bs, s.sys.brk⟩ size) := by
  obtain ⟨r, s', bs', hrun, hserves, hheap, -⟩ := h.smalloc_run size
  obtain ⟨rfl, hbrk, hcalls⟩ := h.smalloc_answers hrun
  obtain rfl := hserves.unique (Arena.request_serves ⟨bs, s.sys.brk⟩ _ size)
  exact ⟨s', hrun, ⟨hheap, hbrk⟩, hcalls⟩

theorem scalloc_refines (h : Heap s bs) (num size : ℕ) :
    Refines s (scalloc num size)
      (Arena.request ⟨bs, s.sys.brk⟩
        ((s.sys.sbrk (num * size % 2 ^ 64 + sizeofMetadata)).1 != failed) (num * size % 2 ^ 64))
      (Arena.asks ⟨bs, s.sys.brk⟩ (num * size % 2 ^ 64)) := by
  obtain ⟨r, s', bs', hrun, hserves, hheap, -⟩ := h.scalloc_run num size
  have hcode := hrun
  unfold scalloc at hcode
  obtain ⟨q, s₁, hsmalloc, hrest⟩ := Prog.run_bind_eq_ok.mp hcode
  obtain ⟨hq, hbrk, hcalls⟩ := h.smalloc_answers hsmalloc
  -- `memset` is not seen by the system
  have hquiet : Quiet (if q = 0 then pure 0 else do
      memset q (num * size % 2 ^ 64) 0
      pure q) (· = q) :=
    .ite (fun h₀ => .pure h₀.symm) fun _ => (Quiet.memset _ _ _).bind fun _ _ => .pure rfl
  obtain ⟨rfl, m, hm⟩ := hquiet s₁ r s' hrest
  obtain rfl := hq
  obtain rfl := hserves.unique (Arena.request_serves ⟨bs, s.sys.brk⟩ _ _)
  exact ⟨s', hrun, ⟨hheap, by rw [hm]; exact hbrk⟩, by rw [hm]; exact hcalls⟩

theorem sfree_refines (h : Heap s bs) (hp : p = 0 ∨ ∃ b ∈ bs, b.payload = p) :
    Refines s (Call.sfree p).code (0, Arena.release ⟨bs, s.sys.brk⟩ p) false := by
  obtain rfl | ⟨b, hb, rfl⟩ := hp
  · refine ⟨s, rfl, ⟨?_, rfl⟩, rfl⟩
    show Heap s (bs.map _)
    rwa [map_release_of_ne fun c _ => c.payload_ne_zero]
  · obtain ⟨as, cs, rfl⟩ := List.append_of_mem hb
    obtain ⟨s', hrun, hheap, -⟩ := h.sfree_run
    obtain ⟨-, m, hm⟩ := Quiet.sfree b.payload s () s' hrun
    refine ⟨s', ?_, ⟨?_, by rw [hm]; rfl⟩, by rw [hm]; rfl⟩
    · rw [Call.code, Prog.run_bind_ok hrun, Prog.run_pure]
    · show Heap s' (List.map _ _)
      rwa [map_release h.shape.tiles.nodup_addr]

/-- **`srealloc`** of the code and of the arena. -/
theorem srealloc_refines (h : Heap s bs) (hp : p = 0 ∨ ∃ b ∈ bs, b.payload = p) (size : ℕ) :
    Refines s (srealloc p size)
      (Arena.resize ⟨bs, s.sys.brk⟩ ((s.sys.sbrk (size + sizeofMetadata)).1 != failed) p size)
      (Arena.callAsks ⟨bs, s.sys.brk⟩ (.srealloc p size)) := by
  have hd : (bs.map Block.addr).Nodup := h.shape.tiles.nodup_addr
  unfold Arena.resize Arena.callAsks
  simp only
  obtain rfl | ⟨b, hb, rfl⟩ := hp
  · rw [find_null]
    exact h.smalloc_refines size
  · rw [find_payload hd hb]
    obtain ⟨r, s', bs', hrun, hre, hheap, -⟩ := h.srealloc_run hb size
    have hcode := hrun
    unfold srealloc at hcode
    rw [Prog.run_ite, if_neg b.payload_ne_zero, h.shape.header_eq hb,
      Prog.run_bind_ok (h.shape.run_get hb .size), h.shape.header_size hb, Prog.run_ite] at hcode
    simp only
    by_cases hle : size ≤ b.size
    · rw [if_pos hle, Prog.run_pure] at hcode
      cases hcode
      rw [if_pos hle, decide_eq_false (by omega)]
      exact ⟨s, hrun, ⟨h, rfl⟩, rfl⟩
    · rw [if_neg hle] at hcode
      obtain ⟨q, s₁, hsmalloc, hrest⟩ := Prog.run_bind_eq_ok.mp hcode
      obtain ⟨hq, hbrk, hcalls⟩ := h.smalloc_answers hsmalloc
      -- the move and the release are not seen by the system
      have hquiet : Quiet (if q = 0 then pure 0 else do
          memmove q b.payload (← get .size b.addr)
          sfree b.payload
          pure q) (· = q) :=
        .ite (fun h₀ => .pure h₀.symm) fun _ => (Quiet.get _ _).bind fun _ _ =>
          (Quiet.memmove _ _ _).bind fun _ _ => (Quiet.sfree _).bind fun _ _ => .pure rfl
      obtain ⟨rfl, m, hm⟩ := hquiet s₁ r s' hrest
      obtain rfl := hq
      have hserves := Arena.request_serves ⟨bs, s.sys.brk⟩
        ((s.sys.sbrk (size + sizeofMetadata)).1 != failed) size
      rw [if_neg hle, decide_eq_true (by omega), Bool.true_and]
      generalize Arena.request ⟨bs, s.sys.brk⟩
        ((s.sys.sbrk (size + sizeofMetadata)).1 != failed) size = t at *
      have hbrk' : s'.sys.brk = t.2.brk := by rw [hm]; exact hbrk
      have hcalls' : s'.sys.calls = s.sys.calls + (Arena.asks ⟨bs, s.sys.brk⟩ size).toNat := by
        rw [hm]
        exact hcalls
      split
      next hr =>
        rw [hr] at hserves hre
        obtain rfl := hserves.unique .refused
        generalize hr' : 0 = r at hre
        cases hre with
        | kept => exact absurd hr'.symm b.payload_ne_zero
        | refused => exact ⟨s', hrun, ⟨hheap, hbrk'⟩, hcalls'⟩
        | moved _ hne => exact absurd hr'.symm hne
      next hr =>
        generalize hr' : t.1 = r at hre hrun hr hserves
        cases hre with
        | kept hle' => exact absurd hle' hle
        | refused => exact absurd rfl hr
        | @moved as cs c _ _ hne hmoved haddr =>
            have hblocks := hserves.unique hmoved
            have hpay : c.payload = b.payload := by
              unfold Block.payload
              rw [haddr]
            have hd' : ((as ++ { c with free := true } :: cs).map Block.addr).Nodup :=
              hheap.shape.tiles.nodup_addr
            have hd₁ : ((as ++ c :: cs).map Block.addr).Nodup := by simpa using hd'
            refine ⟨s', hrun, ⟨?_, hbrk'⟩, hcalls'⟩
            show Heap s' (t.2.blocks.map _)
            rwa [hblocks, ← hpay, map_release hd₁]

end Heap

/-- **`malloc_2.cpp` is first fit.**  Whatever a client has done with the pointers it was given, the
state is an arena, and every call that the client can make returns what the arena returns, leaves
the arena that the call leads to, and makes one system call if the arena asks for more memory and
none otherwise. -/
theorem calls_refine_arena (h : (allocator World.returned).Reachable w) :
    ∃ a : Arena, a.Of w.state ∧ ∀ c : Call, c.Legal w.returned →
      Refines w.state c.code (a.call (c.granted w.state) c) (a.callAsks c) := by
  obtain ⟨bs, hheap, hknown⟩ := reachable_returned h
  refine ⟨⟨bs, w.state.sys.brk⟩, ⟨hheap, rfl⟩, fun c hc => ?_⟩
  have hp : c.ptr = 0 ∨ ∃ b ∈ bs, b.payload = c.ptr := by
    refine hc.1.imp_right fun ⟨a, ha, hap⟩ => ?_
    obtain ⟨b, hb, hbp, -⟩ := hknown a ha
    exact ⟨b, hb, hbp.trans hap⟩
  cases c with
  | smalloc size => exact hheap.smalloc_refines size
  | scalloc num size => exact hheap.scalloc_refines num size
  | sfree p => exact hheap.sfree_refines hp
  | srealloc p size => exact hheap.srealloc_refines hp size

/-- The first of two blocks is free again, and is large enough. -/
theorem calls_refine_arena_reused :
    ∃ (w : World) (a : Arena), w.live = [⟨65700, 50⟩] ∧ a.Of w.state ∧
      Refines w.state (smalloc 60) (a.request ((Call.smalloc 60).granted w.state) 60) (a.asks 60) := by
  obtain ⟨w, hw, hf⟩ := World.exists_of_exec World.returned
    [.smalloc 100, .smalloc 50, .sfree 65568] (fun w => w.live == [⟨65700, 50⟩]) (by decide +kernel)
  obtain ⟨a, ha, h⟩ := calls_refine_arena hw
  exact ⟨w, a, by simpa using hf, ha, h (.smalloc 60) ⟨.inl rfl, by decide⟩⟩

end OsProjects.Malloc2
