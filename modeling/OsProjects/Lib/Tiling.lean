import Mathlib.Algebra.GroupWithZero.Nat
import Mathlib.Data.List.Basic
import Mathlib.Data.List.Nodup
import Mathlib.Data.List.Perm.Subperm
import Mathlib.Tactic.Common

/-! # Tilings of an interval

Things with an extent `[addr, stop)` that lie one behind the other.  In a tiling of `[p, e)`
two members are equal or apart (`eq_or_apart`), and the addresses increase (`sorted`). -/

namespace OsProjects

/-- The extent of a thing in memory; it is not empty. -/
structure Extent (α : Type) where
  addr : α → ℕ
  stop : α → ℕ
  lt : ∀ b, addr b < stop b

/-- The members of `bs` lie one behind the other from `p` up to `e`. -/
def Extent.Tiles {α : Type} (E : Extent α) : ℕ → List α → ℕ → Prop
  | p, [], e => p = e
  | p, b :: bs, e => E.addr b = p ∧ E.Tiles (E.stop b) bs e

/-- Things that lie apart below `n` have no more than `n` bytes together. -/
theorem Extent.sum_le {α : Type} (E : Extent α) {l : List α} {n : ℕ}
    (hap : l.Pairwise fun b c => E.stop b ≤ E.addr c ∨ E.stop c ≤ E.addr b)
    (hl : ∀ b ∈ l, E.stop b ≤ n) : (l.map fun b => E.stop b - E.addr b).sum ≤ n := by
  have hbytes : (l.flatMap fun b => List.range' (E.addr b) (E.stop b - E.addr b)).Nodup := by
    refine List.nodup_flatMap.mpr ⟨fun b _ => List.nodup_range', hap.imp fun {b c} hbc x hb hc => ?_⟩
    rw [List.mem_range'_1] at hb hc
    omega
  have hsub : (l.flatMap fun b => List.range' (E.addr b) (E.stop b - E.addr b)) ⊆ List.range n := by
    intro x hx
    obtain ⟨b, hb, hx⟩ := List.mem_flatMap.mp hx
    have := hl b hb
    rw [List.mem_range'_1] at hx
    rw [List.mem_range]
    omega
  have hle := (hbytes.subperm hsub).length_le
  simpa [List.length_flatMap] using hle

namespace Extent.Tiles

variable {α : Type} {E : Extent α} {p e : ℕ} {b c : α} {bs cs : List α}

theorem append_iff :
    E.Tiles p (bs ++ cs) e ↔ ∃ q, E.Tiles p bs q ∧ E.Tiles q cs e := by
  induction bs generalizing p with
  | nil => simp [Extent.Tiles]
  | cons b bs ih => simp [Extent.Tiles, ih, and_assoc]

/-- The extents are all that matters. -/
theorem map_iff {f : α → α} (ha : ∀ b, E.addr (f b) = E.addr b) (hs : ∀ b, E.stop (f b) = E.stop b) :
    E.Tiles p (bs.map f) e ↔ E.Tiles p bs e := by
  induction bs generalizing p with
  | nil => rfl
  | cons b bs ih => rw [List.map_cons, Extent.Tiles, Extent.Tiles, ha, hs, ih]

theorem le (h : E.Tiles p bs e) : p ≤ e := by
  induction bs generalizing p with
  | nil => exact Nat.le_of_eq h
  | cons b bs ih =>
      have h₁ := ih h.2
      have h₂ := E.lt b
      have h₃ := h.1
      omega

theorem bounds (h : E.Tiles p bs e) (hb : b ∈ bs) : p ≤ E.addr b ∧ E.stop b ≤ e := by
  obtain ⟨l₁, l₂, rfl⟩ := List.append_of_mem hb
  obtain ⟨q, h₁, h₂⟩ := append_iff.mp h
  have hq : E.addr b = q := h₂.1
  exact ⟨hq ▸ h₁.le, Extent.Tiles.le h₂.2⟩

theorem pairwise (h : E.Tiles p bs e) : bs.Pairwise fun b c => E.stop b ≤ E.addr c := by
  induction bs generalizing p with
  | nil => exact .nil
  | cons b bs ih => exact .cons (fun c hc => (bounds h.2 hc).1) (ih h.2)

/-- Two members are equal or apart. -/
theorem eq_or_apart (h : E.Tiles p bs e) (hb : b ∈ bs) (hc : c ∈ bs) :
    b = c ∨ E.stop b ≤ E.addr c ∨ E.stop c ≤ E.addr b := by
  obtain ⟨l₁, l₂, rfl⟩ := List.append_of_mem hb
  have hp := h.pairwise
  rw [List.pairwise_append, List.pairwise_cons] at hp
  obtain ⟨-, ⟨hp₂, -⟩, hp₃⟩ := hp
  rw [List.mem_append, List.mem_cons] at hc
  obtain hc | rfl | hc := hc
  · exact .inr (.inr (hp₃ c hc b List.mem_cons_self))
  · exact .inl rfl
  · exact .inr (.inl (hp₂ c hc))

theorem addr_inj (h : E.Tiles p bs e) (hb : b ∈ bs) (hc : c ∈ bs) (hbc : E.addr b = E.addr c) :
    b = c := by
  have h₁ := E.lt b
  have h₂ := E.lt c
  obtain h | h | h := eq_or_apart h hb hc
  · exact h
  · omega
  · omega

/-- A tiling has no more members than bytes. -/
theorem length_le (h : E.Tiles p bs e) : p + bs.length ≤ e := by
  induction bs generalizing p with
  | nil => exact Nat.le_of_eq h
  | cons b bs ih =>
      have h₁ := ih h.2
      have h₂ := E.lt b
      have h₃ := h.1
      rw [List.length_cons]
      omega

theorem sorted (h : E.Tiles p bs e) : (bs.map E.addr).Pairwise (· < ·) := by
  rw [List.pairwise_map]
  exact h.pairwise.imp fun {b c} hbc => Nat.lt_of_lt_of_le (E.lt b) hbc

theorem nodup_addr (h : E.Tiles p bs e) : (bs.map E.addr).Nodup :=
  h.sorted.imp fun h => Nat.ne_of_lt h

end Extent.Tiles

end OsProjects
