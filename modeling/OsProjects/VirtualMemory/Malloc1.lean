import OsProjects.Lib.Transition
import OsProjects.VirtualMemory.Malloc2.Heap

/-! # The allocator of `malloc_1.cpp`

`smalloc` of `malloc_1.cpp` is `sbrk` behind a test of the size, and nothing is ever given back.
Over whole runs the allocations lie one behind the other, without a gap, from where the program
break was at the start up to the break (`allocations_tile`), and each is an array of its own: a
client finds in it what it has stored there, whatever it has stored elsewhere and asked for since. -/

namespace OsProjects.Malloc1

variable {s : System} {size : ℕ}

/-- `SIZE_LIMIT` -/
def sizeLimit : ℕ := 100000000

/-- `smalloc`: the pointer and the system afterwards. -/
def smalloc (size : ℕ) (s : System) : ℕ × System :=
  if size = 0 ∨ sizeLimit < size then (0, s)
  else
    let (address, s') := s.sbrk size
    if address = failed then (0, s') else (address, s')

/-! ### Clients -/

/-- An allocation with what its client has stored there last, byte by byte. -/
structure Allocation where
  ptr : ℕ
  size : ℕ
  bytes : ℕ → UInt8
  pos : 0 < size

namespace Allocation

/-- Where an allocation lies. -/
def extent : Extent Allocation where
  addr := ptr
  stop a := a.ptr + a.size
  lt a := by have := a.pos; omega

/-- The client stores the byte `v` at position `i` of the allocation at `p`. -/
def put (p i : ℕ) (v : UInt8) (a : Allocation) : Allocation :=
  if a.ptr = p then { a with bytes := Function.update a.bytes i v } else a

@[simp] theorem put_ptr (p i : ℕ) (v : UInt8) (a : Allocation) : (a.put p i v).ptr = a.ptr := by
  unfold put
  split <;> rfl

@[simp] theorem put_size (p i : ℕ) (v : UInt8) (a : Allocation) : (a.put p i v).size = a.size := by
  unfold put
  split <;> rfl

end Allocation

/-- The system and the allocations, in the order of the calls. -/
structure World where
  sys : System
  allocations : List Allocation

theorem pos_of_ne_zero (h : (smalloc size s).1 ≠ 0) : 0 < size := by
  unfold smalloc at h
  split at h
  next => exact absurd rfl h
  next hsize => omega

/-- The client calls `smalloc`; a new allocation holds whatever stands in the memory. -/
def World.smalloc (w : World) (size : ℕ) : World :=
  let t := Malloc1.smalloc size w.sys
  if h : t.1 = 0 then { w with sys := t.2 }
  else ⟨t.2, w.allocations ++ [⟨t.1, size, fun i => t.2.mem.byte (t.1 + i), pos_of_ne_zero h⟩]⟩

/-- The client stores the byte `v` at position `i` of the allocation at `p`. -/
def World.store (w : World) (p i : ℕ) (v : UInt8) : World where
  sys := { w.sys with mem := w.sys.mem.fill (p + i) 1 v }
  allocations := w.allocations.map (Allocation.put p i v)

inductive Event where
  | smalloc (size : ℕ)
  | store (p i : ℕ) (v : UInt8)

/-- A client calls `smalloc` with any size, and stores into what it was given. -/
inductive Step : World → Event → World → Prop
  | smalloc {w : World} {size : ℕ} : Step w (.smalloc size) (w.smalloc size)
  | store {w : World} {a : Allocation} {i : ℕ} {v : UInt8} : a ∈ w.allocations → i < a.size →
      Step w (.store a.ptr i v) (w.store a.ptr i v)

/-- Before the first call. -/
structure Initial (w : World) : Prop where
  allocations : w.allocations = []
  brk : w.sys.brk = w.sys.base
  base_pos : 0 < w.sys.base
  base_le : w.sys.base ≤ userTop
  basePage : w.sys.base % pageSize ≠ 0 → w.sys.mem.page (w.sys.base / pageSize) = true

/-- The allocator and its client. -/
def allocator : TransitionSystem World Event := ⟨Initial, Step⟩

/-! ### What a call does -/

/-- A call is refused, or it returns the break and moves it. -/
theorem smalloc_cases (s : System) (size : ℕ) (hb : s.brk ≤ userTop) :
    ((smalloc size s).1 = 0 ∧ System.Refused s (smalloc size s).2 ∧
        (size = 0 ∨ sizeLimit < size ∨ (s.sbrk size).1 = failed)) ∨
      ((smalloc size s).1 = s.brk ∧ System.Extended s (smalloc size s).2 size ∧
        size ≤ sizeLimit ∧ 0 < size ∧ (s.sbrk size).1 ≠ failed) := by
  unfold smalloc
  split
  next hsize => exact .inl ⟨rfl, ⟨rfl, rfl, rfl⟩, hsize.imp_right .inl⟩
  next hsize =>
    have hlt : size < 2 ^ 63 := by
      unfold sizeLimit at hsize
      omega
    obtain ⟨hr, hsame⟩ | ⟨hr, hne, hx⟩ := s.sbrk_cases hlt hb
    · simp only [if_pos hr]
      exact .inl ⟨trivial, hsame, .inr (.inr hr)⟩
    · simp only [if_neg hne]
      exact .inr ⟨hr, hx, by omega, by omega, hne⟩

/-! ### Runs -/

/-- What every run keeps. -/
structure Inv (w : World) : Prop where
  region : Malloc2.Region w.sys
  tiles : Allocation.extent.Tiles w.sys.base w.allocations w.sys.brk
  size_le : ∀ a ∈ w.allocations, a.size ≤ sizeLimit
  bytes : ∀ a ∈ w.allocations, ∀ i < a.size, w.sys.mem.byte (a.ptr + i) = a.bytes i

theorem Inv.smalloc {w : World} (h : Inv w) (size : ℕ) : Inv (w.smalloc size) := by
  unfold World.smalloc
  simp only
  obtain ⟨hr, hsame, -⟩ | ⟨hr, hx, hle, hpos, -⟩ := smalloc_cases w.sys size h.region.brk_le
  · rw [dif_pos hr]
    obtain ⟨hmem, hbrk, hbase⟩ := hsame
    obtain ⟨h₁, h₂, h₃, h₄⟩ := h.region
    refine ⟨⟨by rwa [hbase], by rwa [hbrk], by rwa [hbase, hbrk, hmem], by rwa [hbrk, hmem]⟩, ?_,
      h.size_le, ?_⟩
    · show Allocation.extent.Tiles (Malloc1.smalloc size w.sys).2.base w.allocations
        (Malloc1.smalloc size w.sys).2.brk
      rw [hbase, hbrk]
      exact h.tiles
    · show ∀ a ∈ w.allocations, ∀ i < a.size, (Malloc1.smalloc size w.sys).2.mem.byte _ = _
      rw [hmem]
      exact h.bytes
  · have hne : (Malloc1.smalloc size w.sys).1 ≠ 0 := by
      have h₁ := h.tiles.le
      have h₂ := h.region.base_pos
      omega
    rw [dif_neg hne]
    refine ⟨h.region.extend hx, ?_, fun a ha => ?_, fun a ha i hi => ?_⟩
    · refine Extent.Tiles.append_iff.mpr ⟨w.sys.brk, ?_, hr, ?_⟩
      · show Allocation.extent.Tiles (Malloc1.smalloc size w.sys).2.base _ _
        rw [hx.base]
        exact h.tiles
      · show (Malloc1.smalloc size w.sys).1 + size = (Malloc1.smalloc size w.sys).2.brk
        rw [hr, hx.brk]
    · obtain ha | ha := List.mem_append.mp ha
      · exact h.size_le a ha
      · rw [List.mem_singleton.mp ha]
        exact hle
    · obtain ha | ha := List.mem_append.mp ha
      · show (Malloc1.smalloc size w.sys).2.mem.byte _ = _
        rw [hx.byte]
        exact h.bytes a ha i hi
      · rw [List.mem_singleton.mp ha]

theorem Inv.store {w : World} {a : Allocation} {i : ℕ} {v : UInt8} (h : Inv w)
    (ha : a ∈ w.allocations) (hi : i < a.size) : Inv (w.store a.ptr i v) where
  region := h.region.setMem (s := ⟨w.sys, {}, []⟩) rfl
  tiles := (Extent.Tiles.map_iff (fun b => b.put_ptr _ _ _) fun b => by
    show (b.put a.ptr i v).ptr + (b.put a.ptr i v).size = b.ptr + b.size
    rw [b.put_ptr, b.put_size]).mpr h.tiles
  size_le b hb := by
    obtain ⟨c, hc, rfl⟩ := List.mem_map.mp hb
    rw [c.put_size]
    exact h.size_le c hc
  bytes b hb j hj := by
    obtain ⟨c, hc, rfl⟩ := List.mem_map.mp hb
    rw [c.put_size] at hj
    rw [c.put_ptr]
    show (w.sys.mem.fill (a.ptr + i) 1 v).byte (c.ptr + j) = _
    by_cases hca : c.ptr = a.ptr
    · rw [Allocation.put, if_pos hca]
      by_cases hij : j = i
      · rw [hij, hca]
        show (if _ then v else _) = Function.update c.bytes i v i
        rw [if_pos (by omega), Function.update_self]
      · rw [Memory.fill_byte_of_not_mem _ _ (by omega), h.bytes c hc j hj]
        show c.bytes j = Function.update c.bytes i v j
        rw [Function.update_of_ne hij]
    · -- another allocation lies apart
      have hap : c.ptr + c.size ≤ a.ptr ∨ a.ptr + a.size ≤ c.ptr := by
        obtain rfl | hlt := h.tiles.eq_or_apart hc ha
        · exact absurd rfl hca
        · exact hlt
      rw [Allocation.put, if_neg hca, Memory.fill_byte_of_not_mem _ _ (by omega)]
      exact h.bytes c hc j hj

theorem reachable_inv {w : World} (h : allocator.Reachable w) : Inv w := by
  refine h.invariant (fun w h₀ => ?_) fun w e w' hinv _ hs => ?_
  · obtain ⟨hnil, hbrk, hpos, hle, hpage⟩ := h₀
    refine ⟨⟨hpos, by rwa [hbrk], fun x h₁ h₂ => by omega, by rwa [hbrk]⟩, ?_, ?_, ?_⟩
    · rw [hnil]
      exact hbrk.symm
    · simp [hnil]
    · simp [hnil]
  · cases hs with
    | smalloc => exact hinv.smalloc _
    | store ha hi => exact hinv.store ha hi

/-- **Every allocation is an array of its own.**  In every run the allocations lie one behind the
other from the first break up to the present one, in the order of the calls; each is mapped and
holds what its client has stored there last.  A call returns `NULL` exactly if the size is 0 or
above the limit or if `sbrk` fails, and then neither the memory nor the break has changed. -/
theorem allocations_tile {w : World} (h : allocator.Reachable w) :
    Allocation.extent.Tiles w.sys.base w.allocations w.sys.brk ∧
      (∀ a ∈ w.allocations, a.size ≤ sizeLimit ∧ w.sys.mem.accessible a.ptr a.size = true ∧
        ∀ i < a.size, w.sys.mem.byte (a.ptr + i) = a.bytes i) ∧
      ∀ size, ((smalloc size w.sys).1 = 0 ↔
          size = 0 ∨ sizeLimit < size ∨ (w.sys.sbrk size).1 = failed) ∧
        ((smalloc size w.sys).1 = 0 → System.Refused w.sys (smalloc size w.sys).2) := by
  obtain ⟨hregion, htiles, hle, hbytes⟩ := reachable_inv h
  refine ⟨htiles, fun a ha => ⟨hle a ha, ?_, hbytes a ha⟩, fun size => ?_⟩
  · obtain ⟨h₁, h₂⟩ := htiles.bounds ha
    exact (Memory.accessible_iff _ _ _).mpr fun x hx hx' =>
      hregion.mapped x (h₁.trans hx) (hx'.trans_le h₂)
  · obtain ⟨hr, hsame, hsize⟩ | ⟨hr, -, hsize, hpos, hne⟩ :=
      smalloc_cases w.sys size hregion.brk_le
    · exact ⟨iff_of_true hr hsize, fun _ => hsame⟩
    · have hr₀ : (smalloc size w.sys).1 ≠ 0 := by
        have h₁ := htiles.le
        have h₂ := hregion.base_pos
        omega
      refine ⟨iff_of_false hr₀ ?_, fun h => absurd h hr₀⟩
      rintro (h | h | h)
      · omega
      · omega
      · exact hne h

/-- A program before its first call. -/
def World.start : World where
  sys :=
    { mem := ⟨fun _ => 0, fun _ => false⟩
      brk := 65536
      base := 65536
      calls := 0
      refuses := fun _ => false
      place := fun _ => none }
  allocations := []

theorem World.start_initial : Initial World.start :=
  ⟨rfl, rfl, by decide, by decide, fun h => absurd rfl h⟩

/-- Two allocations; nothing is between them. -/
theorem allocations_tile_two :
    let w := (World.start.smalloc 100).smalloc 50
    (w.allocations.map fun a => (a.ptr, a.size)) = [(65536, 100), (65636, 50)] ∧
      Allocation.extent.Tiles w.sys.base w.allocations w.sys.brk :=
  ⟨by decide +kernel,
    (allocations_tile (.step (.step (.init World.start_initial) trivial .smalloc) trivial .smalloc)).1⟩

end OsProjects.Malloc1
