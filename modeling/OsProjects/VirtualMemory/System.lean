import OsProjects.Lib.ByteMemory

/-! # The system calls under the allocators

The program break, `sbrk`, `mmap` and `munmap` over a byte memory with a page table.  What
the kernel decides is an oracle: `refuses k` tells whether the `k`-th request fails, and
`place k` where the `k`-th `mmap` would put its region.  Whatever the oracle says, `sbrk`
extends the one contiguous region above `base` or fails, and `mmap` returns page-aligned,
unmapped, zeroed pages or fails, because a request that would break this fails. -/

namespace OsProjects

/-- Memory, program break and the oracle for the kernel's decisions. -/
structure System where
  mem : Memory
  /-- The program break. -/
  brk : ℕ
  /-- The break when the program started. -/
  base : ℕ
  /-- Number of requests made so far. -/
  calls : ℕ
  refuses : ℕ → Bool
  place : ℕ → Option ℕ

/-- The first address above user space. -/
def userTop : ℕ := 2 ^ 47

/-- `(void *)-1`, which `sbrk` and `mmap` return on failure. -/
def failed : ℕ := 2 ^ 64 - 1

namespace System

/-- The request counter after one more request. -/
def tick (s : System) : System := { s with calls := s.calls + 1 }

/-- `sbrk(increment)` grows the heap by `increment` bytes. -/
def grow (s : System) (increment : ℕ) : ℕ × System :=
  let top := s.brk + increment
  if s.refuses s.calls || decide (userTop < top) ||
      s.mem.anyMapped (pageCeil s.brk) (pageCeil top) then (failed, s.tick)
  else (s.brk,
    { s.tick with brk := top, mem := s.mem.setPages (pageCeil s.brk) (pageCeil top) true })

/-- `sbrk(-decrement)` gives the top of the heap back. -/
def shrink (s : System) (decrement : ℕ) : ℕ × System :=
  let top := s.brk - decrement
  if s.refuses s.calls || decide (s.brk < s.base + decrement) then (failed, s.tick)
  else (s.brk,
    { s.tick with brk := top, mem := s.mem.setPages (pageCeil top) (pageCeil s.brk) false })

/-- `sbrk`: the old break and the new state.  The argument is the `size_t` that the callers
pass for the signed `intptr_t`. -/
def sbrk (s : System) (increment : ℕ) : ℕ × System :=
  if increment = 0 then (s.brk, s)
  else if increment < 2 ^ 63 then s.grow increment
  else s.shrink (2 ^ 64 - increment)

/-- `mmap` of an anonymous region of `len` bytes: its address and the new state. -/
def mmap (s : System) (len : ℕ) : ℕ × System :=
  match s.place s.calls with
  | none => (failed, s.tick)
  | some a =>
    if a = 0 || decide (a % pageSize ≠ 0) || decide (userTop < a + len) || s.refuses s.calls ||
        s.mem.anyMapped (a / pageSize) (pageCeil (a + len)) then (failed, s.tick)
    else (a, { s.tick with
      mem := (s.mem.fill a (pageCeil (a + len) * pageSize - a) 0).setPages
        (a / pageSize) (pageCeil (a + len)) true })

/-- `munmap` takes the pages of `[a, a + len)` away; an unaligned address is refused with
`EINVAL` and nothing happens. -/
def munmap (s : System) (a len : ℕ) : System :=
  if a % pageSize = 0 then
    { s with mem := s.mem.setPages (a / pageSize) (pageCeil (a + len)) false }
  else s

@[simp] theorem sbrk_zero (s : System) : s.sbrk 0 = (s.brk, s) := rfl

theorem anyMapped_eq_false {m : Memory} {lo hi : ℕ} (h : m.anyMapped lo hi = false) {p : ℕ}
    (h₁ : lo ≤ p) (h₂ : p < hi) : m.page p = false := by
  rw [Memory.anyMapped, List.any_eq_false] at h
  have := h p (by rw [List.mem_range'_1]; omega)
  simpa using this

theorem pageCeil_le {a b : ℕ} (h : a ≤ b) : pageCeil a ≤ pageCeil b :=
  Nat.div_le_div_right (by omega)

theorem le_pageCeil_mul (a : ℕ) : a ≤ pageCeil a * pageSize := by
  unfold pageCeil pageSize; omega

theorem lt_pageCeil {a x : ℕ} (h : x < a) : x / pageSize < pageCeil a := by
  unfold pageCeil pageSize; omega

/-- A request of `sbrk` is refused: nothing but the request counter changes. -/
structure Refused (s s' : System) : Prop where
  mem : s'.mem = s.mem
  brk : s'.brk = s.brk
  base : s'.base = s.base

/-- `sbrk` has extended the heap by `n` bytes. -/
structure Extended (s s' : System) (n : ℕ) : Prop where
  brk : s'.brk = s.brk + n
  base : s'.base = s.base
  le : s'.brk ≤ userTop
  byte : s'.mem.byte = s.mem.byte
  page : ∀ p, s'.mem.page p =
    if pageCeil s.brk ≤ p ∧ p < pageCeil s'.brk then true else s.mem.page p
  fresh : ∀ p, pageCeil s.brk ≤ p → p < pageCeil s'.brk → s.mem.page p = false

/-- What `sbrk` does with a request that does not shrink the heap. -/
theorem sbrk_cases (s : System) {n : ℕ} (hn : n < 2 ^ 63) (hb : s.brk ≤ userTop) :
    ((s.sbrk n).1 = failed ∧ Refused s (s.sbrk n).2) ∨
      ((s.sbrk n).1 = s.brk ∧ (s.sbrk n).1 ≠ failed ∧ Extended s (s.sbrk n).2 n) := by
  have hne : s.brk ≠ failed := by
    simp only [userTop, failed] at *
    omega
  rw [sbrk]
  split
  next h =>
    subst h
    exact .inr ⟨rfl, hne, ⟨rfl, rfl, hb, rfl, fun p => by rw [if_neg (by simp only []; omega)],
      fun p h₁ h₂ => by simp only [] at h₂; omega⟩⟩
  next h =>
    rw [grow]
    simp only []
    split
    next h => exact .inl ⟨rfl, rfl, rfl, rfl⟩
    next h =>
      simp only [Bool.or_eq_true, not_or, decide_eq_true_eq, Bool.not_eq_true] at h
      exact .inr ⟨rfl, hne, rfl, rfl, Nat.le_of_not_lt h.1.2, rfl, fun p => rfl,
        fun p h₁ h₂ => anyMapped_eq_false h.2 h₁ h₂⟩

/-- `mmap` has returned the region of `n` bytes at `a`. -/
structure Placed (s s' : System) (a n : ℕ) : Prop where
  pos : a ≠ 0
  aligned : a % pageSize = 0
  le : a + n ≤ userTop
  brk : s'.brk = s.brk
  base : s'.base = s.base
  byte : ∀ y, y < a ∨ pageCeil (a + n) * pageSize ≤ y → s'.mem.byte y = s.mem.byte y
  zero : ∀ y, a ≤ y → y < a + n → s'.mem.byte y = 0
  page : ∀ p, s'.mem.page p =
    if a / pageSize ≤ p ∧ p < pageCeil (a + n) then true else s.mem.page p
  fresh : ∀ p, a / pageSize ≤ p → p < pageCeil (a + n) → s.mem.page p = false

theorem mmap_cases (s : System) (n : ℕ) :
    ((s.mmap n).1 = failed ∧ Refused s (s.mmap n).2) ∨
      ((s.mmap n).1 ≠ failed ∧ Placed s (s.mmap n).2 (s.mmap n).1 n) := by
  rw [mmap]
  split
  next h => exact .inl ⟨rfl, rfl, rfl, rfl⟩
  next a h =>
    split
    next h => exact .inl ⟨rfl, rfl, rfl, rfl⟩
    next h =>
      simp only [Bool.or_eq_true, not_or, decide_eq_true_eq, Bool.not_eq_true, not_not] at h
      obtain ⟨⟨⟨⟨h₀, h₁⟩, h₂⟩, -⟩, h₃⟩ := h
      have hle : a + n ≤ pageCeil (a + n) * pageSize := le_pageCeil_mul _
      refine .inr ⟨?_, h₀, h₁, Nat.le_of_not_lt h₂, rfl, rfl, fun y hy => ?_, fun y hy₁ hy₂ => ?_,
        fun p => rfl, fun p h₁ h₂ => anyMapped_eq_false h₃ h₁ h₂⟩
      · simp only [userTop, failed] at *
        omega
      · refine Memory.fill_byte_of_not_mem _ _ ?_
        simp only [] at hy
        omega
      · refine if_pos ?_
        simp only [] at hy₁ hy₂
        omega

end System

end OsProjects
