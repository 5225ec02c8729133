import OsProjects.Lib.Transition
import OsProjects.VirtualMemory.Malloc3

/-! # Clients of the allocator and what they can observe

A client calls `smalloc`, `scalloc`, `sfree` and `srealloc` in any order and, between the
calls, stores bytes into the payloads it owns.  `World` pairs the allocator's state with the
live allocations: their pointers and the sizes last requested for them.  `HeapWalk` is the
walk over the blocks in address order and `ChainWalk` the walk along the `next` pointers. -/

namespace OsProjects.Malloc3

/-! ### Blocks and walks -/

/-- A block as its header describes it. -/
structure Block where
  addr : ℕ
  size : ℕ
  free : Bool
deriving DecidableEq, Repr

/-- The first byte of the payload. -/
def Block.payload (b : Block) : ℕ := b.addr + sizeofMetadata

/-- The first byte behind the block. -/
def Block.stop (b : Block) : ℕ := b.addr + sizeofMetadata + b.size

/-- The block whose header is at `p`. -/
def blockAt (m : Memory) (p : ℕ) : Block := ⟨p, getField m .size p, getField m .isFree p != 0⟩

/-- The walk in address order from `p`, stepping by `size + sizeof(MallocMetadata)`, meets
the blocks `bs` and ends at `stop`. -/
def HeapWalk (m : Memory) (stop : ℕ) : ℕ → List Block → Prop
  | p, [] => p = stop
  | p, b :: bs => b = blockAt m p ∧ HeapWalk m stop (p + sizeofMetadata + b.size) bs

/-- The walk along `next` from `p` meets the blocks `bs` and ends with `NULL`. -/
def ChainWalk (m : Memory) : ℕ → List Block → Prop
  | p, [] => p = 0
  | p, b :: bs => p ≠ 0 ∧ b = blockAt m p ∧ ChainWalk m (getField m .next p) bs

/-- The walk over the heap from `Heap.firsthead` to the program break; before the first
allocation there is nothing to walk over. -/
def HeapBlocks (s : State) (bs : List Block) : Prop :=
  (s.heap.firsthead = 0 ∧ bs = []) ∨
    (s.heap.firsthead ≠ 0 ∧ HeapWalk s.sys.mem s.sys.brk s.heap.firsthead bs)

/-- The chain from `Heap.head`. -/
def ListBlocks (s : State) (bs : List Block) : Prop := ChainWalk s.sys.mem s.heap.head bs

/-- The chain from `Heap.mmhead`. -/
def MmBlocks (s : State) (bs : List Block) : Prop := ChainWalk s.sys.mem s.heap.mmhead bs

/-! ### Calls and runs -/

/-- A call of the allocator. -/
inductive Call where
  | smalloc (size : ℕ)
  | scalloc (num size : ℕ)
  | sfree (p : ℕ)
  | srealloc (oldp size : ℕ)
deriving DecidableEq, Repr

/-- The code of a call; `sfree` returns nothing, which is written `0`. -/
def Call.code : Call → M ℕ
  | smalloc size => Malloc3.smalloc size
  | scalloc num size => Malloc3.scalloc num size
  | sfree p => do
    Malloc3.sfree p
    pure 0
  | srealloc oldp size => Malloc3.srealloc oldp size

/-- A live allocation: its pointer and the size last requested for it. -/
structure Alloc where
  ptr : ℕ
  size : ℕ
deriving DecidableEq, Repr

/-- The allocator's state and the live allocations. -/
structure World where
  state : State
  live : List Alloc

/-- The live allocations after a call that returned `r`. -/
def Call.live (c : Call) (r : ℕ) (live : List Alloc) : List Alloc :=
  match c with
  | smalloc size => if r = 0 then live else ⟨r, size⟩ :: live
  | scalloc num size => if r = 0 then live else ⟨r, num * size⟩ :: live
  | sfree p => live.filter fun a => a.ptr != p
  | srealloc oldp size =>
    if r = 0 then live else ⟨r, size⟩ :: live.filter fun a => a.ptr != oldp

/-- What a caller promises: sizes are `size_t`s, and `sfree` and `srealloc` receive `NULL` or
the pointer of a live allocation. -/
def Call.Legal (c : Call) (live : List Alloc) : Prop :=
  match c with
  | smalloc size => size < 2 ^ 64
  | scalloc num size => num < 2 ^ 64 ∧ size < 2 ^ 64
  | sfree p => p = 0 ∨ ∃ a ∈ live, a.ptr = p
  | srealloc oldp size => size < 2 ^ 64 ∧ (oldp = 0 ∨ ∃ a ∈ live, a.ptr = oldp)

/-- What a client does: it makes a call, or it stores a byte into a payload it owns. -/
inductive Event where
  | call (c : Call)
  | store (x : ℕ) (v : UInt8)

/-- The state after the client stored the byte `v` at `x`. -/
def State.store (s : State) (x : ℕ) (v : UInt8) : State :=
  { s with sys := { s.sys with mem := s.sys.mem.fill x 1 v } }

/-- One event.  A call that does not return has no successor. -/
inductive Step : World → Event → World → Prop
  | call {w : World} {c : Call} {r : ℕ} {s' : State} : c.Legal w.live →
      c.code.run w.state = .ok (r, s') → Step w (.call c) ⟨s', c.live r w.live⟩
  | store {w : World} {a : Alloc} {x : ℕ} {v : UInt8} : a ∈ w.live → a.ptr ≤ x →
      x < a.ptr + a.size → Step w (.store x v) ⟨w.state.store x v, w.live⟩

/-- Before the first call: nothing is allocated, the break is where the program started, and
the page the break lies in, if any, belongs to the program. -/
structure Initial (w : World) : Prop where
  live : w.live = []
  heap : w.state.heap = {}
  brk : w.state.sys.brk = w.state.sys.base
  base_pos : 0 < w.state.sys.base
  base_le : w.state.sys.base ≤ userTop
  null : w.state.sys.mem.page 0 = false
  basePage : w.state.sys.base % pageSize ≠ 0 →
    w.state.sys.mem.page (w.state.sys.base / pageSize) = true

/-- The allocator with its clients. -/
def allocator : TransitionSystem World Event := ⟨Initial, Step⟩

/-! ### Runs that can be evaluated -/

instance decidableChainWalk (m : Memory) : (p : ℕ) → (bs : List Block) →
    Decidable (ChainWalk m p bs)
  | _, [] => inferInstanceAs (Decidable (_ = 0))
  | p, b :: bs =>
    have := decidableChainWalk m (getField m .next p) bs
    inferInstanceAs (Decidable (p ≠ 0 ∧ b = blockAt m p ∧ ChainWalk m (getField m .next p) bs))

instance (s : State) (bs : List Block) : Decidable (ListBlocks s bs) := decidableChainWalk _ _ _

instance : (c : Call) → (live : List Alloc) → Decidable (c.Legal live)
  | .smalloc _, _ => inferInstanceAs (Decidable (_ < _))
  | .scalloc .., _ => inferInstanceAs (Decidable (_ < _ ∧ _ < _))
  | .sfree _, live => inferInstanceAs (Decidable (_ ∨ ∃ a ∈ live, _))
  | .srealloc .., live => inferInstanceAs (Decidable (_ < _ ∧ (_ ∨ ∃ a ∈ live, _)))

/-- A program before its first call. -/
def World.start : World where
  state :=
    { sys :=
        { mem := ⟨fun _ => 0, fun _ => false⟩
          brk := 65536
          base := 65536
          calls := 0
          refuses := fun _ => false
          place := fun k => some (16777216 * (k + 1)) }
      heap := {}
      mainCookie := 12345 }
  live := []

theorem World.start_initial : Initial World.start :=
  ⟨rfl, rfl, rfl, by decide, by decide, rfl, fun h => absurd rfl h⟩

/-- The world after an event, if it is legal and returns. -/
def World.next (w : World) : Event → Option World
  | .call c =>
    if c.Legal w.live then
      match c.code.run w.state with
      | .ok (r, s') => some ⟨s', c.live r w.live⟩
      | .error _ => none
    else none
  | .store x v =>
    if ∃ a ∈ w.live, a.ptr ≤ x ∧ x < a.ptr + a.size then some ⟨w.state.store x v, w.live⟩ else none

theorem World.step_of_next {w w' : World} {e : Event} (h : w.next e = some w') : Step w e w' := by
  cases e with
  | call c =>
      simp only [World.next] at h
      split at h
      next hlegal =>
        split at h
        next r s' hrun => exact Option.some.inj h ▸ .call hlegal hrun
        next => cases h
      next => cases h
  | store x v =>
      simp only [World.next] at h
      split at h
      next hx =>
        obtain ⟨a, ha, h₁, h₂⟩ := hx
        exact Option.some.inj h ▸ .store ha h₁ h₂
      next => cases h

/-- The world after the events `es`, if all of them are legal and return. -/
def World.exec : List Event → World → Option World
  | [], w => some w
  | e :: es, w => (w.next e).bind (exec es)

theorem World.exec_reachable {es : List Event} {w w' : World} (h : allocator.Reachable w)
    (he : w.exec es = some w') : allocator.Reachable w' := by
  induction es generalizing w with
  | nil => exact Option.some.inj he ▸ h
  | cons e es ih =>
      obtain ⟨w₁, h₁, h₂⟩ := Option.bind_eq_some_iff.mp he
      exact ih (h.step trivial (step_of_next h₁)) h₂

theorem World.exists_of_exec (w₀ : World) (h₀ : Initial w₀) (es : List Event) (f : World → Bool)
    (h : (w₀.exec es).any f = true) : ∃ w, allocator.Reachable w ∧ f w = true := by
  obtain ⟨w, hw, hf⟩ := (Option.any_eq_true _ _).mp h
  exact ⟨w, exec_reachable (.init h₀) hw, hf⟩

end OsProjects.Malloc3
