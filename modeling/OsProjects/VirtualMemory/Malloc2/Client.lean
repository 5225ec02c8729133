import OsProjects.Lib.Transition
import OsProjects.VirtualMemory.Malloc2

/-! # Clients of the allocator and what they can observe

A client calls `smalloc`, `scalloc`, `sfree` and `srealloc` in any order and, between the
calls, stores bytes into what it was given.  Which pointers it may hand back is a parameter:
those of the live allocations, or all that were ever returned. -/

namespace OsProjects.Malloc2

/-! ### Blocks -/

/-- A block as its header describes it. -/
structure Block where
  addr : ℕ
  size : ℕ
  free : Bool
deriving DecidableEq, Repr

/-- The first byte of the payload. -/
def Block.payload (b : Block) : ℕ := b.addr + sizeofMetadata

/-- The first byte behind the block. -/
def Block.stop (b : Block) : ℕ := b.addr + sizeofMetadata + b.size

/-- The block whose header is at `p`. -/
def blockAt (m : Memory) (p : ℕ) : Block :=
  ⟨p, metadata.get m .size p, metadata.get m .isFree p != 0⟩

/-- The walk along `next` from `p` meets the blocks `bs` and ends with `NULL`. -/
def ChainWalk (m : Memory) : ℕ → List Block → Prop
  | p, [] => p = 0
  | p, b :: bs => p ≠ 0 ∧ b = blockAt m p ∧ ChainWalk m (metadata.get m .next p) bs

/-- The list from `Heap.head`. -/
def ListBlocks (s : State) (bs : List Block) : Prop := ChainWalk s.sys.mem s.heap.head bs

/-- `prev` of each block is the block in front of it, and `p` for the first one. -/
def BackLinks (m : Memory) : ℕ → List Block → Prop
  | _, [] => True
  | p, b :: bs => metadata.get m .prev b.addr = p ∧ BackLinks m b.addr bs

/-! ### Calls -/

/-- A call of the allocator. -/
inductive Call where
  | smalloc (size : ℕ)
  | scalloc (num size : ℕ)
  | sfree (p : ℕ)
  | srealloc (oldp size : ℕ)
deriving DecidableEq, Repr

/-- The code of a call; `sfree` returns nothing, which is written `0`. -/
def Call.code : Call → M ℕ
  | smalloc size => Malloc2.smalloc size
  | scalloc num size => Malloc2.scalloc num size
  | sfree p => do
    Malloc2.sfree p
    pure 0
  | srealloc oldp size => Malloc2.srealloc oldp size

/-- An allocation: its pointer and the size last requested for it. -/
structure Alloc where
  ptr : ℕ
  size : ℕ
deriving DecidableEq, Repr

/-- The bytes that a client uses; it computes them as a `size_t`. -/
def Alloc.bytes (a : Alloc) : ℕ := a.size % 2 ^ 64

/-- What is requested by a call; `sfree` requests nothing. -/
def Call.size : Call → ℕ
  | smalloc size => size
  | scalloc num size => num * size
  | sfree _ => 0
  | srealloc _ size => size

/-- The pointer that a call hands back. -/
def Call.ptr : Call → ℕ
  | sfree p => p
  | srealloc oldp _ => oldp
  | _ => 0

/-- The live allocations after a call that returned `r`: a pointer that was handed back is
gone, unless `srealloc` has failed. -/
def Call.live (c : Call) (r : ℕ) (live : List Alloc) : List Alloc :=
  match c with
  | sfree p => live.filter fun a => a.ptr != p
  | c => if r = 0 then live else ⟨r, c.size⟩ :: live.filter fun a => a.ptr != c.ptr

/-- All allocations that were ever returned, after a call that returned `r`. -/
def Call.returned (c : Call) (r : ℕ) (returned : List Alloc) : List Alloc :=
  if r = 0 then returned else ⟨r, c.size⟩ :: returned

/-- Arguments are `size_t`s, and a pointer is `NULL` or one of the known ones. -/
def Call.Legal (c : Call) (known : List Alloc) : Prop :=
  (c.ptr = 0 ∨ ∃ a ∈ known, a.ptr = c.ptr) ∧
  match c with
  | smalloc size => size < 2 ^ 64
  | scalloc num size => num < 2 ^ 64 ∧ size < 2 ^ 64
  | sfree _ => True
  | srealloc _ size => size < 2 ^ 64

instance : (c : Call) → (known : List Alloc) → Decidable (c.Legal known)
  | .smalloc _, known => inferInstanceAs (Decidable ((_ ∨ ∃ a ∈ known, _) ∧ _ < _))
  | .scalloc .., known => inferInstanceAs (Decidable ((_ ∨ ∃ a ∈ known, _) ∧ _ < _ ∧ _ < _))
  | .sfree _, known => inferInstanceAs (Decidable ((_ ∨ ∃ a ∈ known, _) ∧ True))
  | .srealloc .., known => inferInstanceAs (Decidable ((_ ∨ ∃ a ∈ known, _) ∧ _ < _))

/-! ### Runs -/

/-- The allocator's state, the live allocations and all that were ever returned. -/
structure World where
  state : State
  live : List Alloc
  returned : List Alloc

/-- What a client does: it makes a call, or it stores a byte into what it was given. -/
inductive Event where
  | call (c : Call)
  | store (x : ℕ) (v : UInt8)

/-- The state after the client stored the byte `v` at `x`. -/
def State.store (s : State) (x : ℕ) (v : UInt8) : State := s.setMem (s.sys.mem.fill x 1 v)

/-- One event of a client that uses the pointers `known`. -/
inductive Step (known : World → List Alloc) : World → Event → World → Prop
  | call {w : World} {c : Call} {r : ℕ} {s' : State} : c.Legal (known w) →
      c.code.run w.state = .ok (r, s') →
      Step known w (.call c) ⟨s', c.live r w.live, c.returned r w.returned⟩
  | store {w : World} {a : Alloc} {x : ℕ} {v : UInt8} : a ∈ known w → a.ptr ≤ x →
      x < a.ptr + a.bytes → Step known w (.store x v) { w with state := w.state.store x v }

/-- Before the first call: nothing is allocated, the break is where the program started, and
the page the break lies in, if any, belongs to the program. -/
structure Initial (w : World) : Prop where
  live : w.live = []
  returned : w.returned = []
  heap : w.state.heap = {}
  obtained : w.state.obtained = []
  brk : w.state.sys.brk = w.state.sys.base
  base_pos : 0 < w.state.sys.base
  base_le : w.state.sys.base ≤ userTop
  basePage : w.state.sys.base % pageSize ≠ 0 →
    w.state.sys.mem.page (w.state.sys.base / pageSize) = true

/-- The allocator with clients that use the pointers `known`. -/
def allocator (known : World → List Alloc) : TransitionSystem World Event := ⟨Initial, Step known⟩

/-- A program before its first call. -/
def World.start : World where
  state :=
    { sys :=
        { mem := ⟨fun _ => 0, fun _ => false⟩
          brk := 65536
          base := 65536
          calls := 0
          refuses := fun _ => false
          place := fun _ => none }
      heap := {}
      obtained := [] }
  live := []
  returned := []

theorem World.start_initial : Initial World.start :=
  ⟨rfl, rfl, rfl, rfl, rfl, by decide, by decide, fun h => absurd rfl h⟩

/-- The world after the calls `cs`, if all of them are legal and return. -/
def World.exec (known : World → List Alloc) : List Call → World → Option World
  | [], w => some w
  | c :: cs, w =>
    if c.Legal (known w) then
      match c.code.run w.state with
      | .ok (r, s') => exec known cs ⟨s', c.live r w.live, c.returned r w.returned⟩
      | .error _ => none
    else none

theorem World.exec_reachable {known : World → List Alloc} {cs : List Call} {w w' : World}
    (h : (allocator known).Reachable w) (he : w.exec known cs = some w') :
    (allocator known).Reachable w' := by
  induction cs generalizing w with
  | nil => exact Option.some.inj he ▸ h
  | cons c cs ih =>
      rw [exec] at he
      split at he
      next hlegal =>
        split at he
        next r s' hrun => exact ih (h.step trivial (Step.call hlegal hrun)) he
        next => cases he
      next => cases he

/-- A run that can be evaluated. -/
theorem World.exists_of_exec (known : World → List Alloc) (cs : List Call) (f : World → Bool)
    (h : (World.start.exec known cs).any f = true) :
    ∃ w, (allocator known).Reachable w ∧ f w = true := by
  obtain ⟨w, hw, hf⟩ := (Option.any_eq_true _ _).mp h
  exact ⟨w, exec_reachable (.init World.start_initial) hw, hf⟩

/-- The world after the calls `cs`, if each of them meets `P`, is legal and returns. -/
def World.execIf (known : World → List Alloc) (P : World → Call → Bool) :
    List Call → World → Option World
  | [], w => some w
  | c :: cs, w =>
    if P w c = true ∧ c.Legal (known w) then
      match c.code.run w.state with
      | .ok (r, s') => execIf known P cs ⟨s', c.live r w.live, c.returned r w.returned⟩
      | .error _ => none
    else none

theorem World.execIf_run {known : World → List Alloc} {P : World → Call → Bool}
    {Q : World → Event → Prop} (hPQ : ∀ w c, P w c = true → Q w (.call c)) {cs : List Call}
    {w w' : World} (h : (allocator known).Run Q w) (he : w.execIf known P cs = some w') :
    (allocator known).Run Q w' := by
  induction cs generalizing w with
  | nil => exact Option.some.inj he ▸ h
  | cons c cs ih =>
      rw [execIf] at he
      split at he
      next hc =>
        split at he
        next r s' hrun => exact ih (h.step (hPQ w c hc.1) (Step.call hc.2 hrun)) he
        next => cases he
      next => cases he

/-- A run that can be evaluated, and whose calls all meet `Q`. -/
theorem World.exists_of_execIf (known : World → List Alloc) {P : World → Call → Bool}
    {Q : World → Event → Prop} (hPQ : ∀ w c, P w c = true → Q w (.call c)) (cs : List Call)
    (f : World → Bool) (h : (World.start.execIf known P cs).any f = true) :
    ∃ w, (allocator known).Run Q w ∧ f w = true := by
  obtain ⟨w, hw, hf⟩ := (Option.any_eq_true _ _).mp h
  exact ⟨w, execIf_run hPQ (.init World.start_initial) hw, hf⟩

end OsProjects.Malloc2
