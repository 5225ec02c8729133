import OsProjects.VirtualMemory.Malloc3.Client

/-! # Headers in memory

What a memory access does when it returns (`get_eq_ok`, `set_eq_ok`, …), and the algebra of
header fields: two headers that do not overlap have independent fields
(`getField_setField`). -/

namespace OsProjects.Malloc3

/-! ### States -/

@[simp] theorem State.setMem_mem (s : State) (m : Memory) : (s.setMem m).sys.mem = m := rfl
@[simp] theorem State.setMem_heap (s : State) (m : Memory) : (s.setMem m).heap = s.heap := rfl
@[simp] theorem State.setMem_mainCookie (s : State) (m : Memory) :
    (s.setMem m).mainCookie = s.mainCookie := rfl
@[simp] theorem State.setMem_brk (s : State) (m : Memory) : (s.setMem m).sys.brk = s.sys.brk := rfl
@[simp] theorem State.setMem_setMem (s : State) (m m' : Memory) :
    (s.setMem m).setMem m' = s.setMem m' := rfl
@[simp] theorem State.mapHeap_heap (s : State) (f : MemoryList → MemoryList) :
    (s.mapHeap f).heap = f s.heap := rfl
@[simp] theorem State.mapHeap_sys (s : State) (f : MemoryList → MemoryList) :
    (s.mapHeap f).sys = s.sys := rfl
@[simp] theorem State.mapHeap_mainCookie (s : State) (f : MemoryList → MemoryList) :
    (s.mapHeap f).mainCookie = s.mainCookie := rfl

theorem State.mapHeap_setMem (s : State) (f : MemoryList → MemoryList) (m : Memory) :
    (s.mapHeap f).setMem m = (s.setMem m).mapHeap f := rfl
theorem State.mapHeap_mapHeap (s : State) (f g : MemoryList → MemoryList) :
    (s.mapHeap f).mapHeap g = s.mapHeap fun h => g (f h) := rfl

/-! ### Accesses that return -/

open Prog

@[simp] theorem pure_eq_ok {α : Type} {a v : α} {s s' : State} :
    (pure a : M α).run s = .ok (v, s') ↔ a = v ∧ s = s' := by
  simp [Prod.ext_iff]

@[simp] theorem stop_eq_ok {α : Type} {e : Stop} {v : α} {s s' : State} :
    (Prog.stop e : M α).run s = .ok (v, s') ↔ False := by simp

@[simp] theorem gets_eq_ok {α : Type} {f : State → α} {v : α} {s s' : State} :
    (Prog.gets f : M α).run s = .ok (v, s') ↔ f s = v ∧ s = s' := by
  simp [Prod.ext_iff]

@[simp] theorem get_eq_ok {f : Field} {p v : ℕ} {s s' : State} :
    (get f p).run s = .ok (v, s') ↔
      s.sys.mem.accessible (p + f.offset) f.width = true ∧ getField s.sys.mem f p = v ∧ s = s' := by
  show (if _ then _ else _) = _ ↔ _
  split <;> simp_all [Prod.ext_iff]

@[simp] theorem set_eq_ok {f : Field} {p v : ℕ} {u : Unit} {s s' : State} :
    (set f p v).run s = .ok (u, s') ↔
      s.sys.mem.accessible (p + f.offset) f.width = true ∧
        s.setMem (setField s.sys.mem f p v) = s' := by
  show (if _ then _ else _) = _ ↔ _
  split <;> simp_all [Prod.ext_iff]

@[simp] theorem getHeap_eq_ok {h : MemoryList} {s s' : State} :
    getHeap.run s = .ok (h, s') ↔ s.heap = h ∧ s = s' := gets_eq_ok

@[simp] theorem setHeap_eq_ok {f : MemoryList → MemoryList} {u : Unit} {s s' : State} :
    (setHeap f).run s = .ok (u, s') ↔ s.mapHeap f = s' := by
  simp [setHeap, Prod.ext_iff]

@[simp] theorem getFree_eq_ok {p : ℕ} {b : Bool} {s s' : State} :
    (getFree p).run s = .ok (b, s') ↔
      s.sys.mem.accessible (p + Field.isFree.offset) Field.isFree.width = true ∧
        (getField s.sys.mem .isFree p != 0) = b ∧ s = s' := by
  simp only [getFree, run_bind_eq_ok, get_eq_ok, pure_eq_ok]
  aesop

@[simp] theorem setFree_eq_ok {p : ℕ} {b : Bool} {u : Unit} {s s' : State} :
    (setFree p b).run s = .ok (u, s') ↔
      s.sys.mem.accessible (p + Field.isFree.offset) Field.isFree.width = true ∧
        s.setMem (setField s.sys.mem .isFree p b.toNat) = s' := set_eq_ok

/-- A validated cookie changes nothing. -/
theorem validateCookie_eq_ok {p : ℕ} {u : Unit} {s s' : State}
    (h : (validateCookie p).run s = .ok (u, s')) : s = s' := by
  simp only [validateCookie, run_ite_eq_ok, run_bind_eq_ok, get_eq_ok, gets_eq_ok, pure_eq_ok,
    stop_eq_ok] at h
  aesop

/-! ### Fields of headers that do not overlap -/

/-- Two headers do not overlap. -/
def Apart (p q : ℕ) : Prop := p + sizeofMetadata ≤ q ∨ q + sizeofMetadata ≤ p

theorem Apart.symm {p q : ℕ} (h : Apart p q) : Apart q p := Or.symm h

theorem Field.offset_width_le (f : Field) : f.offset + f.width ≤ sizeofMetadata := by
  cases f <;> decide

theorem Field.disjoint {f g : Field} (h : f ≠ g) :
    f.offset + f.width ≤ g.offset ∨ g.offset + g.width ≤ f.offset := by
  revert h
  cases f <;> cases g <;> decide

theorem getField_lt (m : Memory) (f : Field) (p : ℕ) : getField m f p < 256 ^ f.width :=
  m.read_lt _ _

theorem getField_congr {m m' : Memory} {f : Field} {p : ℕ}
    (h : ∀ x, p + f.offset ≤ x → x < p + f.offset + f.width → m'.byte x = m.byte x) :
    getField m' f p = getField m f p := Memory.read_congr h

section blocks

variable {m : Memory} {p : ℕ} {b : Block}

theorem addr_of_blockAt (h : blockAt m p = b) : b.addr = p := by subst h; rfl

theorem size_of_blockAt (h : blockAt m p = b) : getField m .size p = b.size := by subst h; rfl

theorem free_of_blockAt (h : blockAt m p = b) : (getField m .isFree p != 0) = b.free := by
  subst h; rfl

end blocks

theorem getField_setField_same {m : Memory} {f : Field} {p v : ℕ} (hv : v < 256 ^ f.width) :
    getField (setField m f p v) f p = v := by
  rw [getField, setField, Memory.read_write_same, Nat.mod_eq_of_lt hv]

/-- Fields of one header are independent. -/
theorem getField_setField_field {m : Memory} {f g : Field} {p v : ℕ} (h : f ≠ g) :
    getField (setField m f p v) g p = getField m g p := by
  refine Memory.read_write_of_disjoint m v ?_
  rcases Field.disjoint h with h | h <;> omega

/-- Fields of two headers that do not overlap are independent. -/
theorem getField_setField_apart {m : Memory} {f g : Field} {p q v : ℕ} (h : Apart p q) :
    getField (setField m f p v) g q = getField m g q := by
  refine Memory.read_write_of_disjoint m v ?_
  have h₁ := f.offset_width_le
  have h₂ := g.offset_width_le
  rcases h with h | h <;> omega

theorem getField_setField {m : Memory} {f g : Field} {p q v : ℕ} (h : p = q ∨ Apart p q)
    (hv : v < 256 ^ f.width) :
    getField (setField m f p v) g q = if f = g ∧ p = q then v else getField m g q := by
  split
  next e =>
    obtain ⟨rfl, rfl⟩ := e
    exact getField_setField_same hv
  next e =>
    rcases h with rfl | h
    · exact getField_setField_field fun hfg => e ⟨hfg, rfl⟩
    · exact getField_setField_apart h

/-- `v` fits into a pointer or a `size_t`. -/
def IsWord (v : ℕ) : Prop := v < 2 ^ 64

theorem isWord_zero : IsWord 0 := by simp [IsWord]

/-- A set of header addresses: no header is at `NULL` and no two of them overlap. -/
structure Spread (S : Set ℕ) : Prop where
  pos : ∀ p ∈ S, p ≠ 0
  lt : ∀ p ∈ S, IsWord p
  apart : ∀ p ∈ S, ∀ q ∈ S, p = q ∨ Apart p q

namespace Spread

variable {S T : Set ℕ} {m : Memory} {g : Field} {p q v : ℕ}

theorem mono (h : Spread T) (hST : S ⊆ T) : Spread S :=
  ⟨fun p hp => h.pos p (hST hp), fun p hp => h.lt p (hST hp),
    fun p hp q hq => h.apart p (hST hp) q (hST hq)⟩

theorem get_setNext (hS : Spread S) (hp : p ∈ S) (hq : q ∈ S) (hv : IsWord v) :
    getField (setField m .next p v) g q = if .next = g ∧ p = q then v else getField m g q :=
  getField_setField (hS.apart p hp q hq) (by simpa [Field.width, IsWord] using hv)

theorem get_setPrev (hS : Spread S) (hp : p ∈ S) (hq : q ∈ S) (hv : IsWord v) :
    getField (setField m .prev p v) g q = if .prev = g ∧ p = q then v else getField m g q :=
  getField_setField (hS.apart p hp q hq) (by simpa [Field.width, IsWord] using hv)

end Spread

theorem isWord_getField (m : Memory) (f : Field) (p : ℕ) : IsWord (getField m f p) := by
  have h : 256 ^ f.width ≤ 2 ^ 64 := by cases f <;> decide
  exact (getField_lt m f p).trans_le h

end OsProjects.Malloc3
