import OsProjects.VirtualMemory.Malloc3.Serve

/-! # What a request delivers

On a well-formed heap the block behind the pointer that `smalloc` returns has the requested
size, whichever way it was found (`smalloc_block`), and `scalloc` clears as many bytes of it
(`scalloc_cleared`). -/

namespace OsProjects.Malloc3

open Prog

variable {s s' : State} {bs mm : List Block} {num size r n : ℕ}

/-- The block in front of the pointer `q` has `n` bytes, and they are zero. -/
def Delivered (m : Memory) (q n : ℕ) : Prop :=
  n ≤ (blockAt m (q - sizeofMetadata)).size ∧ ∀ x, q ≤ x → x < q + n → m.byte x = 0

/-- **The block that `smalloc` returns** is large enough. -/
theorem smalloc_block (h : WellFormed s bs mm) (hr : r ≠ 0)
    (hrun : (smalloc size).run s = .ok (r, s')) :
    ∃ b, b.payload = r ∧ blockAt s'.sys.mem b.addr = b ∧ size ≤ b.size := by
  have hbase := h.regions.base_pos
  have hle := h.regions.base_le
  obtain hT | hT := Nat.lt_or_ge size mmapThreshold
  · obtain ⟨order, ho, hp, -⟩ := h.list
    have hs := smalloc_heap h.whole ho (by omega) hle h.base hT hr hrun
    have hg : Grants bs size (granted order bs s.sys.brk size) := granted_grants h.tiled hp
    have hmem := hg.inUse.symm ▸ Set.mem_insert _ (used bs)
    exact ⟨_, hs.payload.symm, hs.shape.tiled.headers _ hmem.1, hg.le⟩
  · obtain ⟨-, hr₀, -⟩ | ⟨-, hs, ⟨-, hmm⟩ | ⟨hT', -⟩ | ⟨hT', -⟩⟩ := smalloc_cases hrun
    · exact absurd hr₀ hr
    · obtain ⟨a, rfl, hwf, -⟩ := smallocMmap_wellFormed h hT hs hr hmm
      exact ⟨⟨a, size, false⟩, rfl, hwf.mmList.headers _ (by simp), le_rfl⟩
    · exact absurd hT (Nat.not_le.mpr hT')
    · exact absurd hT (Nat.not_le.mpr hT')

@[simp] theorem memset_eq_ok {d : ℕ} {b : UInt8} {u : Unit} : (memset d n b).run s = .ok (u, s') ↔
    s.sys.mem.accessible d n = true ∧ s' = s.setMem (s.sys.mem.fill d n b) := by
  change (if _ then _ else _) = _ ↔ _
  split
  next h => simp [h, eq_comm]
  next h => simp [h]

theorem scalloc_cases (hr : r ≠ 0) (h : (scalloc num size).run s = .ok (r, s')) :
    ∃ s₁, (smalloc (num * size % 2 ^ 64)).run s = .ok (r, s₁) ∧
      s' = s₁.setMem (s₁.sys.mem.fill r (num * size % 2 ^ 64) 0) := by
  simp only [scalloc, run_bind_eq_ok, run_ite_eq_ok, memset_eq_ok, pure_eq_ok] at h
  obtain ⟨a, s₁, hrun, ⟨-, rfl, -⟩ | ⟨-, _, _, ⟨-, rfl⟩, rfl, rfl⟩⟩ := h
  · exact absurd rfl hr
  · exact ⟨s₁, hrun, rfl⟩

/-- **What `scalloc` clears**: the product as a `size_t`. -/
theorem scalloc_cleared (h : WellFormed s bs mm) (hr : r ≠ 0)
    (hrun : (scalloc num size).run s = .ok (r, s')) :
    Delivered s'.sys.mem r (num * size % 2 ^ 64) := by
  obtain ⟨s₁, hrun', rfl⟩ := scalloc_cases hr hrun
  obtain ⟨b, rfl, hb, hle⟩ := smalloc_block h hr hrun'
  have haddr : b.payload - sizeofMetadata = b.addr := Nat.add_sub_cancel _ _
  have hsize : (blockAt s₁.sys.mem b.addr).size = b.size := congrArg Block.size hb
  refine ⟨?_, fun x h₁ h₂ => if_pos ⟨h₁, h₂⟩⟩
  have hkeep : blockAt (s₁.sys.mem.fill b.payload (num * size % 2 ^ 64) 0) b.addr =
      blockAt s₁.sys.mem b.addr := blockAt_congr fun x h₁ h₂ =>
    Memory.fill_byte_of_not_mem _ _ (.inl (by simp only [Block.payload, sizeofMetadata]; omega))
  rw [haddr]
  show _ ≤ (blockAt (s₁.sys.mem.fill b.payload _ 0) b.addr).size
  rw [hkeep, hsize]
  exact hle

/-- A block has fewer than `2 ^ 64` bytes. -/
theorem Delivered.lt {m : Memory} {q : ℕ} (h : Delivered m q n) : n < 2 ^ 64 :=
  h.1.trans_lt (Memory.read_lt m _ 8)

end OsProjects.Malloc3
