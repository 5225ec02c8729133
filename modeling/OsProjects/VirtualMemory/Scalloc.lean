import OsProjects.VirtualMemory.Malloc2.Realloc
import OsProjects.VirtualMemory.Malloc3.Allocate

/-! # `scalloc` and its product

`scalloc` of `malloc_2.cpp` and of `malloc_3.cpp` forms `num * size` as a `size_t` and passes it
to `smalloc` and to `memset`.  A pointer that is not `NULL` delivers the whole array exactly when
the product has not wrapped (`scalloc_delivers_iff`). -/

namespace OsProjects

/-- **What `scalloc` delivers.**  In `malloc_2.cpp` a returned pointer delivers the array if and
only if the product fits into a `size_t`, in every state that can be reached.  In `malloc_3.cpp`
it does so on every well-formed heap, and with a larger product it does so on no heap at all. -/
theorem scalloc_delivers_iff (num size q : ℕ) :
    (∀ w, (Malloc2.allocator Malloc2.World.returned).Reachable w → ∀ s',
      (Malloc2.scalloc num size).run w.state = .ok (q, s') → q ≠ 0 →
      (Malloc2.Delivered s'.sys.mem q (num * size) ↔ num * size < 2 ^ 64)) ∧
    ∀ s s', (Malloc3.scalloc num size).run s = .ok (q, s') → q ≠ 0 →
      (Malloc3.Delivered s'.sys.mem q (num * size) → num * size < 2 ^ 64) ∧
      ∀ bs mm, Malloc3.WellFormed s bs mm →
        (Malloc3.Delivered s'.sys.mem q (num * size) ↔ num * size < 2 ^ 64) := by
  constructor
  · intro w hw s' hrun hq
    obtain ⟨bs, hheap, -⟩ := Malloc2.reachable_returned hw
    refine ⟨Malloc2.Delivered.lt, fun hlt => ?_⟩
    have h := hheap.scalloc_cleared hq hrun
    rwa [Nat.mod_eq_of_lt hlt] at h
  · intro s s' hrun hq
    refine ⟨Malloc3.Delivered.lt, fun bs mm hwf => ⟨Malloc3.Delivered.lt, fun hlt => ?_⟩⟩
    have h := Malloc3.scalloc_cleared hwf hq hrun
    rwa [Nat.mod_eq_of_lt hlt] at h

/-- Ten numbers of eight bytes, in a block that was in use before: as it is in `malloc_2.cpp`, and
split in `malloc_3.cpp`, where the client had written to it. -/
theorem scalloc_delivers_reused :
    (∃ w s', (Malloc2.allocator Malloc2.World.returned).Reachable w ∧
      w.returned = [⟨65700, 50⟩, ⟨65568, 100⟩] ∧
      (Malloc2.scalloc 10 8).run w.state = .ok (65568, s') ∧
      Malloc2.Delivered s'.sys.mem 65568 (10 * 8)) ∧
    ∃ s s', Malloc3.WellFormed s [⟨65536, 100, false⟩, ⟨65676, 600, true⟩, ⟨66316, 200, false⟩] [] ∧
      s.sys.mem.byte 65720 = 7 ∧ (Malloc3.scalloc 10 8).run s = .ok (65716, s') ∧
      Malloc3.Delivered s'.sys.mem 65716 (10 * 8) := by
  constructor
  · obtain ⟨w, hw, hf⟩ := Malloc2.World.exists_of_exec Malloc2.World.returned
      [.smalloc 100, .smalloc 50, .sfree 65568]
      (fun w => w.returned == [⟨65700, 50⟩, ⟨65568, 100⟩] &&
        (Malloc2.scalloc 10 8).check w.state fun q _ => q == 65568) (by decide +kernel)
    obtain ⟨hlive, hcheck⟩ := Bool.and_eq_true_iff.mp hf
    obtain ⟨q, s', hrun, hq⟩ := Prog.exists_of_check hcheck
    obtain rfl : q = 65568 := by simpa using hq
    have h := (scalloc_delivers_iff 10 8 65568).1 w hw s' hrun (by decide)
    exact ⟨w, s', hw, by simpa using hlive, hrun, h.mpr (by decide)⟩
  · obtain ⟨w, -, hf⟩ := Malloc3.World.exists_of_exec Malloc3.World.start Malloc3.World.start_initial
      [.call (.smalloc 100), .call (.smalloc 600), .call (.smalloc 200), .store 65720 7,
        .call (.sfree 65716)]
      (fun w => decide (Malloc3.WellFormed w.state
          [⟨65536, 100, false⟩, ⟨65676, 600, true⟩, ⟨66316, 200, false⟩] [] ∧
        w.state.sys.mem.byte 65720 = 7) &&
          (Malloc3.scalloc 10 8).check w.state fun q _ => q == 65716) (by decide +kernel)
    obtain ⟨hstate, hcheck⟩ := Bool.and_eq_true_iff.mp hf
    obtain ⟨hwf, hbyte⟩ := of_decide_eq_true hstate
    obtain ⟨q, s', hrun, hq⟩ := Prog.exists_of_check hcheck
    obtain rfl : q = 65716 := by simpa using hq
    have h := ((scalloc_delivers_iff 10 8 65716).2 w.state s' hrun (by decide)).2 _ _ hwf
    exact ⟨w.state, s', hwf, hbyte, hrun, h.mpr (by decide)⟩

/-- An array of more than `2 ^ 64` bytes, the product of which wraps to `2`. -/
theorem scalloc_delivers_two :
    (∃ q s', (Malloc2.scalloc (2 ^ 63 + 1) 2).run Malloc2.World.start.state = .ok (q, s') ∧
      q ≠ 0 ∧ ¬Malloc2.Delivered s'.sys.mem q ((2 ^ 63 + 1) * 2)) ∧
    ∃ q s', (Malloc3.scalloc (2 ^ 63 + 1) 2).run Malloc3.World.start.state = .ok (q, s') ∧
      q ≠ 0 ∧ ¬Malloc3.Delivered s'.sys.mem q ((2 ^ 63 + 1) * 2) := by
  constructor
  · obtain ⟨q, s', hrun, hq⟩ := Prog.exists_of_check (p := Malloc2.scalloc (2 ^ 63 + 1) 2)
      (s := Malloc2.World.start.state) (f := fun q _ => q != 0) (by decide +kernel)
    exact ⟨q, s', hrun, by simpa using hq, fun h => absurd h.lt (by decide)⟩
  · obtain ⟨q, s', hrun, hq⟩ := Prog.exists_of_check (p := Malloc3.scalloc (2 ^ 63 + 1) 2)
      (s := Malloc3.World.start.state) (f := fun q _ => q != 0) (by decide +kernel)
    exact ⟨q, s', hrun, by simpa using hq, fun h => absurd h.lt (by decide)⟩

end OsProjects
