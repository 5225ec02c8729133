import OsProjects.VirtualMemory.Malloc3.WellFormed

/-! # Calls that return `NULL`

When the kernel refuses memory, `smalloc`, `scalloc` and most paths of `srealloc` return `NULL`
and leave everything as it was.  The three paths of `srealloc` that merge blocks before they
ask `sbrk` for more do not: the neighbours have become one block by then. -/

namespace OsProjects.Malloc3

open Prog

variable {s s' : State} {as bs cs mm : List Block} {b : Block} {r size : ℕ}

/-- The allocator's variables, all memory and the program break are the same. -/
structure Unchanged (s s' : State) : Prop where
  heap : s'.heap = s.heap
  mem : s'.sys.mem = s.sys.mem
  brk : s'.sys.brk = s.sys.brk
  base : s'.sys.base = s.sys.base

theorem Unchanged.refl (s : State) : Unchanged s s := ⟨rfl, rfl, rfl, rfl⟩

theorem Unchanged.refused {x : System} (h : System.Refused s.sys x) :
    Unchanged s { s with sys := x } := ⟨rfl, h.mem, h.brk, h.base⟩

/-- The address behind a header in user space is not `NULL`. -/
theorem add64_ne_zero {p : ℕ} (hp : p ≤ userTop) : add64 p sizeofMetadata ≠ 0 := by
  simp only [add64, userTop, sizeofMetadata] at *
  omega

theorem smallocMmap_null
    (h : (smallocMmap size).run s = .ok (0, s')) : Unchanged s s' := by
  simp only [smallocMmap, run_bind_eq_ok, run_ite_eq_ok, mmap_eq_ok, pure_eq_ok] at h
  obtain ⟨_, _, ⟨rfl, rfl⟩, ⟨hf, -, rfl⟩ | ⟨hf, h⟩⟩ := h
  · obtain ⟨-, hr⟩ | ⟨hne, -⟩ := System.mmap_cases s.sys (add64 size sizeofMetadata)
    · exact .refused hr
    · exact absurd hf hne
  · obtain ⟨_, _, -, _, _, -, _, _, -, _, _, -, _, _, -, _, _, -, _, _, -, _, _, -, he, -⟩ := h
    obtain ⟨hf', -⟩ | ⟨-, hp⟩ := System.mmap_cases s.sys (add64 size sizeofMetadata)
    · exact absurd hf' hf
    · have := hp.le
      exact absurd he (add64_ne_zero (by omega))

theorem size_add_lt (hs : size ≤ sizeLimit) : add64 size sizeofMetadata < 2 ^ 63 := by
  simp only [add64, sizeLimit, sizeofMetadata] at *
  omega

theorem firstAllocation_null (hs : size ≤ sizeLimit) (hb : s.sys.brk ≤ userTop)
    (h : (firstAllocation size).run s = .ok (0, s')) : Unchanged s s' := by
  simp only [firstAllocation, run_bind_eq_ok, run_ite_eq_ok, sbrk_eq_ok, pure_eq_ok] at h
  obtain ⟨_, _, ⟨rfl, rfl⟩, ⟨hf, -, rfl⟩ | ⟨hf, h⟩⟩ := h
  · obtain ⟨-, hr⟩ | ⟨-, hne, -⟩ := System.sbrk_cases s.sys (size_add_lt hs) hb
    · exact .refused hr
    · exact absurd hf hne
  · obtain ⟨_, _, -, _, _, -, _, _, -, _, _, -, _, _, -, _, _, -, _, _, -, _, _, -, _, _, -, he, -⟩ := h
    obtain ⟨hf', -⟩ | ⟨hv, -⟩ := System.sbrk_cases s.sys (size_add_lt hs) hb
    · exact absurd hf' hf
    · exact absurd he (add64_ne_zero (by omega))

theorem appendBlock_null (hs : size ≤ sizeLimit) (hb : s.sys.brk ≤ userTop)
    (h : (appendBlock size).run s = .ok (0, s')) : Unchanged s s' := by
  simp only [appendBlock, run_bind_eq_ok, run_ite_eq_ok, sbrk_eq_ok, pure_eq_ok] at h
  obtain ⟨_, _, ⟨rfl, rfl⟩, ⟨hf, -, rfl⟩ | ⟨hf, h⟩⟩ := h
  · obtain ⟨-, hr⟩ | ⟨-, hne, -⟩ := System.sbrk_cases s.sys (size_add_lt hs) hb
    · exact .refused hr
    · exact absurd hf hne
  · obtain ⟨_, _, -, _, _, -, _, _, -, _, _, -, _, _, -, _, _, -, _, _, -, he, -⟩ := h
    obtain ⟨hf', -⟩ | ⟨hv, -⟩ := System.sbrk_cases s.sys (size_add_lt hs) hb
    · exact absurd hf' hf
    · exact absurd he (add64_ne_zero (by omega))

theorem growFreeWilderness_null (ht : Tiled s (as ++ [b])) (hw : s.heap.wilderness = b.addr)
    (hlt : b.size < size) (hs : size ≤ sizeLimit)
    (h : (growFreeWilderness size).run s = .ok (0, s')) : Unchanged s s' := by
  have hb : b ∈ as ++ [b] := by simp
  have hble := ht.stop_le hb
  simp only [growFreeWilderness, run_bind_eq_ok, run_ite_eq_ok, get_eq_ok, getHeap_eq_ok,
    sbrk_eq_ok, pure_eq_ok] at h
  obtain ⟨_, _, ⟨rfl, rfl⟩, _, _, hv, _, _, ⟨-, rfl, rfl⟩, _, _, ⟨rfl, rfl⟩, h⟩ := h
  obtain rfl := validateCookie_eq_ok hv
  rw [hw, ht.size_eq hb] at h
  have hn : sub64 size b.size < 2 ^ 63 := by
    simp only [sizeLimit] at hs
    rw [sub64_eq] <;> omega
  obtain ⟨hf, -, rfl⟩ | ⟨hf, h⟩ := h
  · obtain ⟨-, hr⟩ | ⟨-, hne, -⟩ := System.sbrk_cases s.sys hn ht.brk_le
    · exact .refused hr
    · exact absurd hf hne
  · obtain ⟨_, _, -, _, _, -, _, _, -, _, _, -, _, _, -, _, _, -, he, -⟩ := h
    refine absurd he (add64_ne_zero ?_)
    simp only [userTop]
    omega

/-- **`smalloc` that returns `NULL` changes nothing.** -/
theorem smalloc_null (hw : Whole s bs) (h : (smalloc size).run s = .ok (0, s')) : Unchanged s s' := by
  obtain ⟨-, -, rfl⟩ | ⟨-, hs, ⟨-, h⟩ | ⟨-, -, h⟩ | ⟨-, hh, o, s₁, ho, h⟩⟩ := smalloc_cases h
  · exact .refl s
  · exact smallocMmap_null h
  · exact firstAllocation_null hs hw.tiled.brk_le h
  obtain ⟨order, hp, -, hL, -⟩ := hw.listed
  have hmem : ∀ c ∈ order, c ∈ bs := fun c => hp.mem_iff.mp
  have hpos : ∀ c ∈ order, c.addr ≠ 0 := fun c hc =>
    hw.tiled.spread.pos _ (mem_addrs (hmem c hc))
  obtain ⟨rfl, rfl⟩ := search_order (fun c hc => hw.tiled.headers c (hmem c hc)) hpos hL hh ho
  obtain ⟨p, hp', -, he⟩ | ⟨hnone, h⟩ := h
  · obtain ⟨b, hb, rfl⟩ := Option.map_eq_some_iff.mp hp'
    have := hw.tiled.stop_le (hmem b (List.mem_of_find?_eq_some hb))
    refine absurd he.symm (add64_ne_zero ?_)
    simp only [userTop]
    omega
  · have hne : bs ≠ [] := by
      rintro rfl
      rw [List.perm_nil.mp hp] at hL
      exact hh hL
    obtain ⟨as, b, rfl⟩ : ∃ as b, bs = as ++ [b] :=
      ⟨bs.dropLast, bs.getLast hne, (List.dropLast_append_getLast hne).symm⟩
    have hwild : s.heap.wilderness = b.addr := hw.wilderness.trans (lastAddr_concat as b)
    rw [hwild, hw.tiled.free_eq (by simp : b ∈ as ++ [b])] at h
    obtain ⟨hf, h⟩ | ⟨-, h⟩ := h
    · refine growFreeWilderness_null hw.tiled hwild ?_ hs h
      rw [Option.map_eq_none_iff, found, List.find?_eq_none] at hnone
      simpa [hf] using hnone b (hp.mem_iff.mpr (by simp))
    · exact appendBlock_null hs hw.tiled.brk_le h

end OsProjects.Malloc3
