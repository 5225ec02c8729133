import Mathlib.Data.Finset.Card
import Mathlib.Data.Finset.Range
import Mathlib.Order.Interval.Finset.Nat
import OsProjects.WebServer.Server

/-! # `drop_random`

The pick-and-swap loop marks exactly `limit` of the `n` indexes, whatever `rand()` returns
(`pick_count`).  The loop behind it moves the marked requests together without disturbing the
slots that it has still to read (`compact_eq`): the ring then holds them in their old order,
and all others have been closed. -/

namespace OsProjects.WebServer

variable {cap head n i limit : ℕ} {rand : ℕ → ℕ} {items : ℕ → Request} {picked : ℕ → Bool}

/-! ### Picking -/

/-- After `i` rounds: `indexes` still has every index once, and the marked indexes are those
in its last `i` places. -/
structure Picked (n i : ℕ) (p : Picks) : Prop where
  lt : ∀ k < n, p.indexes k < n
  inj : ∀ j < n, ∀ k < n, p.indexes j = p.indexes k → j = k
  marked : ∀ j, p.randIndexes j = true ↔ ∃ k, n - i ≤ k ∧ k < n ∧ p.indexes k = j

theorem Picked.init (n : ℕ) : Picked n 0 .init where
  lt _ hk := hk
  inj _ _ _ _ h := h
  marked j := by
    simp only [Picks.init, Bool.false_eq_true, false_iff, not_exists]
    intro k hk
    omega

/-- The swap of a round, place by place. -/
theorem round_indexes (n : ℕ) (rand : ℕ → ℕ) (p : Picks) (i k : ℕ) :
    (p.round n rand i).indexes k = p.indexes
      (if k = n - i - 1 then rand i % (n - i) else if k = rand i % (n - i) then n - i - 1 else k) := by
  unfold Picks.round
  simp only [Function.update_apply]
  split_ifs <;> rfl

theorem Picked.round {p : Picks} (h : Picked n i p) (hi : i < n) :
    Picked n (i + 1) (p.round n rand i) := by
  have hx : rand i % (n - i) < n - i := Nat.mod_lt _ (by omega)
  have hround := round_indexes n rand p i
  constructor
  · intro k hk
    rw [hround]
    refine h.lt _ ?_
    split_ifs <;> omega
  · intro j hj k hk he
    rw [hround, hround] at he
    have := h.inj _ (by split_ifs <;> omega) _ (by split_ifs <;> omega) he
    split_ifs at this <;> omega
  · intro j
    have hm : (p.round n rand i).randIndexes j = true ↔
        j = p.indexes (rand i % (n - i)) ∨ p.randIndexes j = true := by
      unfold Picks.round
      simp only [Function.update_apply]
      split_ifs with hj
      · simp [hj]
      · simp [hj]
    rw [hm, h.marked]
    constructor
    · rintro (rfl | ⟨k, h₁, h₂, rfl⟩)
      · exact ⟨n - i - 1, by omega, by omega, by rw [hround, if_pos rfl]⟩
      · refine ⟨k, by omega, h₂, ?_⟩
        rw [hround, if_neg (by omega), if_neg (by omega)]
    · rintro ⟨k, h₁, h₂, rfl⟩
      rw [hround]
      by_cases hk : k = n - i - 1
      · exact .inl (by rw [if_pos hk])
      · refine .inr ⟨k, by omega, h₂, ?_⟩
        rw [if_neg hk, if_neg (by omega)]

theorem pick_picked (h : limit ≤ n) (rand : ℕ → ℕ) : Picked n limit (pick n limit rand) := by
  induction limit with
  | zero => exact .init n
  | succ i ih =>
      rw [pick, List.range_succ, List.foldl_append]
      exact (ih (by omega)).round (by omega)

/-- **The loop picks exactly `limit` indexes.** -/
theorem pick_count (h : limit ≤ n) (rand : ℕ → ℕ) :
    ((List.range n).filter (pick n limit rand).randIndexes).length = limit := by
  have hp := pick_picked h rand
  have hset : (Finset.range n).filter (fun j => (pick n limit rand).randIndexes j = true) =
      (Finset.Ico (n - limit) n).image (pick n limit rand).indexes := by
    ext j
    simp only [Finset.mem_filter, Finset.mem_range, Finset.mem_image, Finset.mem_Ico, hp.marked]
    constructor
    · rintro ⟨-, k, h₁, h₂, rfl⟩
      exact ⟨k, ⟨h₁, h₂⟩, rfl⟩
    · rintro ⟨k, ⟨h₁, h₂⟩, rfl⟩
      exact ⟨hp.lt k h₂, k, h₁, h₂, rfl⟩
  have hinj : Set.InjOn (pick n limit rand).indexes (Finset.Ico (n - limit) n) := by
    intro j hj k hk he
    rw [Finset.coe_Ico, Set.mem_Ico] at hj hk
    exact hp.inj j hj.2 k hk.2 he
  have hcard := congrArg Finset.card hset
  rw [Finset.card_image_of_injOn hinj, Nat.card_Ico] at hcard
  have hlist : ((List.range n).filter (pick n limit rand).randIndexes).length =
      ((Finset.range n).filter fun j => (pick n limit rand).randIndexes j = true).card := by
    simp [Finset.filter, Finset.card, Finset.range_val, Multiset.range]
  rw [hlist, hcard]
  omega

/-! ### Moving -/

/-- The loop after `i` rounds: the picked requests lie together from `head` on, the others are
closed, and the slots from `i` on are untouched. -/
structure Compacted (cap head i : ℕ) (picked : ℕ → Bool) (items : ℕ → Request)
    (c : Compaction) : Prop where
  tail : c.tail = (head + ((List.range i).filter picked).length) % cap
  kept : ring cap c.items head ((List.range i).filter picked).length =
    ((List.range i).filter picked).map fun j => items ((head + j) % cap)
  rest : ∀ j, i ≤ j → j < cap → c.items ((head + j) % cap) = items ((head + j) % cap)
  closed : c.closed = ((List.range i).filter fun j => !picked j).map fun j =>
    (items ((head + j) % cap)).connfd

theorem Compacted.round {c : Compaction} (h : Compacted cap head i picked items c) (hi : i < cap) :
    Compacted cap head (i + 1) picked items (c.round cap head picked i) := by
  have hle : ((List.range i).filter picked).length ≤ i := by
    simpa using List.length_filter_le picked (List.range i)
  have hitem := h.rest i le_rfl hi
  rw [Compaction.round]
  simp only [hitem]
  cases hp : picked i with
  | true =>
      rw [if_pos rfl]
      have hf : (List.range (i + 1)).filter picked = (List.range i).filter picked ++ [i] := by
        simp [List.range_succ, List.filter_append, hp]
      constructor
      · rw [hf, List.length_append, List.length_singleton, h.tail, Nat.mod_add_mod, Nat.add_assoc]
      · rw [hf, List.length_append, List.length_singleton, h.tail, ring_push (by omega), h.kept]
        simp
      · intro j hj hjc
        refine (Function.update_of_ne ?_ _ _).trans (h.rest j (by omega) hjc)
        rw [h.tail]
        intro he
        have := ring_index_inj hjc (by omega) he
        omega
      · rw [h.closed]
        simp [List.range_succ, List.filter_append, hp]
  | false =>
      rw [if_neg (by simp)]
      have hf : (List.range (i + 1)).filter picked = (List.range i).filter picked := by
        simp [List.range_succ, List.filter_append, hp]
      constructor
      · rw [hf]; exact h.tail
      · rw [hf]; exact h.kept
      · exact fun j hj hjc => h.rest j (by omega) hjc
      · simp [h.closed, List.range_succ, List.filter_append, hp]

/-- **The loop** keeps the picked requests in their order and closes the others. -/
theorem compact_eq (hhead : head < cap) (hn : n ≤ cap) (picked : ℕ → Bool)
    (items : ℕ → Request) : Compacted cap head n picked items (compact cap head n picked items) := by
  induction n with
  | zero => exact ⟨by simp [compact, Nat.mod_eq_of_lt hhead], rfl, fun _ _ _ => rfl, rfl⟩
  | succ n ih =>
      rw [compact, List.range_succ, List.foldl_append]
      exact (ih (by omega)).round (by omega)

/-- What the loop leaves in the ring is a subsequence of what was there. -/
theorem kept_sublist (cap head n : ℕ) (picked : ℕ → Bool) (items : ℕ → Request) :
    (((List.range n).filter picked).map fun j => items ((head + j) % cap)).Sublist
      (ring cap items head n) :=
  List.Sublist.map _ List.filter_sublist

/-- What the loop keeps and what it closes make up what was there. -/
theorem kept_closed_perm (cap head n : ℕ) (picked : ℕ → Bool) (items : ℕ → Request) :
    ((((List.range n).filter picked).map fun j => (items ((head + j) % cap)).connfd) ++
      (((List.range n).filter fun j => !picked j).map fun j =>
        (items ((head + j) % cap)).connfd)).Perm ((ring cap items head n).map Request.connfd) := by
  rw [← List.map_append, ring, List.map_map]
  exact (List.filter_append_perm picked _).map _

end OsProjects.WebServer
