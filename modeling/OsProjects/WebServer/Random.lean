import Mathlib.Data.Fin.Tuple.Basic
import Mathlib.Data.Finset.Powerset
import Mathlib.Data.Fintype.Pi
import Mathlib.Algebra.BigOperators.Group.Finset.Basic
import Mathlib.Algebra.BigOperators.Group.Finset.Sigma
import OsProjects.WebServer.Refinement

/-! # Which requests `drop_random` keeps

`drop_random` keeps the requests at the marked indexes, in their order, and closes the others
(`dropRandom_half`).  The marked set is a fair choice: the pick sequences are the ordered
selections of `n / 2` of the `n` indexes, so every set of that size is picked by the same number
of them (`picks_uniform`). -/

namespace OsProjects.WebServer

open Finset

variable {cap k n : ℕ} {rand rand' : ℕ → ℕ}

/-! ### The upper half -/

/-- The waiting requests that are kept: their distances from the head, in ascending order. -/
def kept (n : ℕ) (rand : ℕ → ℕ) : List ℕ :=
  (List.range n).filter (pick n (n / 2) rand).randIndexes

/-- The waiting requests that are closed. -/
def closed (n : ℕ) (rand : ℕ → ℕ) : List ℕ :=
  (List.range n).filter fun j => !(pick n (n / 2) rand).randIndexes j

theorem kept_length (n : ℕ) (rand : ℕ → ℕ) : (kept n rand).length = n / 2 :=
  pick_count (Nat.div_le_self n 2) rand

theorem kept_append_closed (n : ℕ) (rand : ℕ → ℕ) :
    (kept n rand ++ closed n rand).Perm (List.range n) := List.filter_append_perm _ _

theorem closed_length (n : ℕ) (rand : ℕ → ℕ) : (closed n rand).length = (n + 1) / 2 := by
  have h := (kept_append_closed n rand).length_eq
  rw [List.length_append, kept_length, List.length_range] at h
  omega

/-- **`drop_random` drops the upper half and keeps the order.**  Of the `n` waiting requests
`n / 2` stay, in their order from the unchanged head on and with all that the slots held, and
every other one is closed once; nothing else changes.  The loops never read the old `tail`. -/
theorem dropRandom_half {t : ℕ} {s : State t} (rand : ℕ → ℕ) (hhead : s.requestsQueue.head < cap)
    (hsize : s.requestsQueue.size = n) (hpos : 1 ≤ n) (hn : n ≤ cap) :
    let q := s.requestsQueue
    let s' := s.dropRandom cap rand
    let q' := s'.requestsQueue
    let item := fun j => q.items ((q.head + j) % cap)
    (kept n rand ++ closed n rand).Perm (List.range n) ∧ (kept n rand).Pairwise (· < ·) ∧
    (kept n rand).length = n / 2 ∧ (closed n rand).length = (n + 1) / 2 ∧
    ring cap q'.items q'.head (n / 2) = (kept n rand).map item ∧
    s'.history.dropped = s.history.dropped ++ (closed n rand).map (fun j => (item j).connfd) ∧
    q'.head = q.head ∧ q'.size = (n / 2 : ℕ) ∧ q'.tail = (q.head + n / 2) % cap ∧
    checkQueue q'.head q'.tail q'.size cap = true ∧
    s' = { s with
      requestsQueue := q'
      history := { s.history with dropped := s'.history.dropped } } := by
  have hne : s.requestsQueue.size ≠ 0 := by omega
  have hnat : s.requestsQueue.size.toNat = n := by rw [hsize]; rfl
  have hs : s.dropRandom cap rand =
      let c := compact cap s.requestsQueue.head n (pick n (n / 2) rand).randIndexes
        s.requestsQueue.items
      { s with
        requestsQueue :=
          { s.requestsQueue with items := c.items, tail := c.tail, size := (n / 2 : ℕ) }
        history := { s.history with dropped := s.history.dropped ++ c.closed } } := by
    unfold State.dropRandom
    rw [if_neg hne, hnat]
  have hc := compact_eq hhead hn (pick n (n / 2) rand).randIndexes s.requestsQueue.items
  have hlen := kept_length n rand
  have hkept := hc.kept
  have htail' := hc.tail
  change (List.filter _ (List.range n)).length = _ at hlen
  rw [hlen] at hkept htail'
  intro q s' q' item
  have hq : q' = { q with
      items := (compact cap q.head n (pick n (n / 2) rand).randIndexes q.items).items
      tail := (compact cap q.head n (pick n (n / 2) rand).randIndexes q.items).tail
      size := (n / 2 : ℕ) } := congrArg State.requestsQueue hs
  have hd : s'.history.dropped = s.history.dropped ++
      (compact cap q.head n (pick n (n / 2) rand).randIndexes q.items).closed :=
    congrArg (fun s => s.history.dropped) hs
  refine ⟨kept_append_closed n rand, List.pairwise_lt_range.filter _, hlen, closed_length n rand,
    ?_, ?_, ?_, ?_, ?_, ?_, ?_⟩
  · rw [hq]
    exact hkept
  · rw [hd, hc.closed]
    rfl
  · rw [hq]
  · rw [hq]
  · rw [hq]
    exact htail'
  · apply RingOk.checkQueue
    rw [hq]
    exact ⟨hhead, Int.natCast_nonneg _, by show ((n / 2 : ℕ) : ℤ) ≤ cap; omega, htail'⟩
  · rw [hq, hd]
    exact hs

/-- A ring of four with three requests behind slot `2`: one of them stays. -/
theorem dropRandom_half_three :
    let items : ℕ → Request := fun j => ⟨j, ⟨0, j⟩, ⟨0, 0⟩⟩
    let s : State 0 := ⟨⟨items, 2, 1, 3⟩, ⟨items, 0⟩, none, ⟨.test, 9, ⟨0, 0⟩⟩, Fin.elim0, {}⟩
    let q := (s.dropRandom 4 id).requestsQueue
    q.size = 1 ∧ q.tail = 3 ∧ ring 4 q.items 2 1 = (kept 3 id).map fun j => items ((2 + j) % 4) := by
  intro items s q
  have hhead : s.requestsQueue.head < 4 := by decide
  have hsize : s.requestsQueue.size = 3 := rfl
  obtain ⟨-, -, -, -, hring, -, -, hsize, htail, -, -⟩ :=
    dropRandom_half id hhead hsize (by decide) (by decide)
  exact ⟨hsize, htail, hring⟩

/-! ### A fair choice -/

/-- The pick sequences: the index picked in round `i` is one of the first `n - i`. -/
abbrev Choices (n k : ℕ) : Type := (i : Fin k) → Fin (n - i)

/-- Results of `rand()` that lead to the picks. -/
def Choices.results (r : Choices n k) (i : ℕ) : ℕ := if h : i < k then r ⟨i, h⟩ else 0

/-- The indexes marked in `k` rounds. -/
def marked (n k : ℕ) (rand : ℕ → ℕ) : Finset ℕ :=
  {j ∈ range n | (pick n k rand).randIndexes j = true}

theorem kept_toFinset (n : ℕ) (rand : ℕ → ℕ) : (kept n rand).toFinset = marked n (n / 2) rand := by
  ext j
  simp [kept, marked]

theorem pick_succ (n k : ℕ) (rand : ℕ → ℕ) :
    pick n (k + 1) rand = (pick n k rand).round n rand k := by
  rw [pick, List.range_succ, List.foldl_append]
  rfl

theorem pick_congr (h : ∀ i < k, rand i = rand' i) : pick n k rand = pick n k rand' := by
  induction k with
  | zero => rfl
  | succ k ih =>
      rw [pick_succ, pick_succ, ih fun i hi => h i (by omega)]
      unfold Picks.round
      rw [h k (by omega)]

theorem mem_marked (hk : k ≤ n) {j : ℕ} :
    j ∈ marked n k rand ↔ ∃ i, n - k ≤ i ∧ i < n ∧ (pick n k rand).indexes i = j := by
  have hp := pick_picked hk rand
  rw [marked, mem_filter, mem_range, hp.marked]
  constructor
  · exact fun h => h.2
  · rintro ⟨i, h₁, h₂, rfl⟩
    exact ⟨hp.lt i h₂, i, h₁, h₂, rfl⟩

theorem card_marked (hk : k ≤ n) (rand : ℕ → ℕ) : (marked n k rand).card = k := by
  refine Eq.trans ?_ (pick_count hk rand)
  simp [marked, Finset.filter, Finset.card, Finset.range_val, Multiset.range]

namespace Choices

variable (r : Choices n (k + 1))

/-- The picks of all rounds but the last. -/
def init : Choices n k := fun i => r i.castSucc

/-- The index marked in the last round. -/
def lastPick : ℕ := (pick n k r.init.results).indexes (r (Fin.last k))

theorem results_of_lt (r : Choices n k) {i : ℕ} (hi : i < k) : r.results i = r ⟨i, hi⟩ := dif_pos hi

theorem last_lt : (r (Fin.last k) : ℕ) < n - k := (r (Fin.last k)).isLt

/-- Every choice comes about: it is what `rand() % (n - i)` gives. -/
theorem results_mod (r : Choices n k) {i : ℕ} (hi : i < k) : r.results i % (n - i) = r ⟨i, hi⟩ := by
  rw [r.results_of_lt hi]
  exact Nat.mod_eq_of_lt (r ⟨i, hi⟩).isLt

theorem pick_init : pick n k r.results = pick n k r.init.results := by
  apply pick_congr
  intro i hi
  rw [r.results_of_lt (by omega), r.init.results_of_lt hi]
  rfl

/-- One more round marks one more index. -/
theorem marked_succ (hk : k < n) :
    marked n (k + 1) r.results = insert r.lastPick (marked n k r.init.results) := by
  have hp := pick_picked hk.le r.init.results
  have hr : r.results k % (n - k) = r (Fin.last k) := r.results_mod k.lt_succ_self
  ext j
  rw [marked, marked, mem_insert, mem_filter, mem_filter, pick_succ, r.pick_init]
  unfold Picks.round lastPick
  rw [hr]
  simp only [Function.update_apply, mem_range]
  constructor
  · rintro ⟨hj, h⟩
    split_ifs at h with he
    · exact .inl he
    · exact .inr ⟨hj, h⟩
  · rintro (rfl | ⟨hj, h⟩)
    · exact ⟨hp.lt _ (by omega), if_pos rfl⟩
    · refine ⟨hj, ?_⟩
      rw [h, ite_self]

/-- The index picked in the last round was not yet marked. -/
theorem lastPick_notMem (hk : k < n) : r.lastPick ∉ marked n k r.init.results := by
  have hp := pick_picked hk.le r.init.results
  have hx := r.last_lt
  rw [mem_marked hk.le]
  rintro ⟨i, h₁, h₂, he⟩
  have := hp.inj i h₂ _ (by omega) he
  omega

end Choices

/-- Every index not yet marked can be picked, in one way. -/
theorem exists_place (hk : k < n) {a : ℕ} (ha : a < n) (hm : a ∉ marked n k rand) :
    ∃ x < n - k, (pick n k rand).indexes x = a := by
  have hp := pick_picked hk.le rand
  have hinj : Set.InjOn (pick n k rand).indexes (range n) := fun i hi j hj =>
    hp.inj i (mem_range.mp hi) j (mem_range.mp hj)
  have hmaps : (range n).image (pick n k rand).indexes = range n := by
    apply eq_of_subset_of_card_le
    · intro j hj
      obtain ⟨i, hi, rfl⟩ := mem_image.mp hj
      exact mem_range.mpr (hp.lt i (mem_range.mp hi))
    · rw [card_image_of_injOn hinj]
  obtain ⟨x, hx, rfl⟩ := mem_image.mp (hmaps ▸ mem_range.mpr ha)
  refine ⟨x, ?_, rfl⟩
  by_contra hge
  exact hm ((mem_marked hk.le).mpr ⟨x, by omega, mem_range.mp hx, rfl⟩)

/-- **The choices that mark a given set are as many as its orders.**  The choices of `k + 1`
rounds that mark `S` and `a` last are those of `k` rounds that mark the rest of `S`. -/
theorem card_choices (hk : k ≤ n) {S : Finset ℕ} (hS : S ⊆ range n) (hcard : S.card = k) :
    (univ.filter fun r : Choices n k => marked n k r.results = S).card = k.factorial := by
  induction k generalizing S with
  | zero =>
      rw [card_eq_zero] at hcard
      subst hcard
      have hall : ∀ r : Choices n 0, marked n 0 r.results = ∅ := fun r =>
        card_eq_zero.mp (card_marked hk _)
      simp [hall]
  | succ k ih =>
      have hlast : ∀ r ∈ univ.filter fun r : Choices n (k + 1) => marked n (k + 1) r.results = S,
          r.lastPick ∈ S := by
        intro r hr
        rw [mem_filter, r.marked_succ hk] at hr
        exact hr.2 ▸ mem_insert_self _ _
      have hfiber : ∀ a ∈ S, ((univ.filter fun r : Choices n (k + 1) =>
          marked n (k + 1) r.results = S).filter fun r => r.lastPick = a).card = k.factorial := by
        intro a ha
        have haS : S.erase a ⊆ range n := (erase_subset a S).trans hS
        rw [← ih (by omega) haS (by rw [card_erase_of_mem ha]; omega)]
        apply card_bij fun r _ => r.init
        · intro r hr
          rw [mem_filter, mem_filter, r.marked_succ hk] at hr
          rw [mem_filter, ← hr.1.2, ← hr.2, erase_insert (r.lastPick_notMem hk)]
          exact ⟨mem_univ _, rfl⟩
        · intro r hr r' hr' he
          rw [mem_filter] at hr hr'
          have hp := pick_picked (show k ≤ n by omega) r.init.results
          have hx := r.last_lt
          have hx' := r'.last_lt
          have hpick : (pick n k r.init.results).indexes (r (Fin.last k)) =
              (pick n k r.init.results).indexes (r' (Fin.last k)) :=
            hr.2.trans (hr'.2.symm.trans (by unfold Choices.lastPick; rw [he]))
          have hend := Fin.ext (hp.inj _ (by omega) _ (by omega) hpick)
          funext i
          induction i using Fin.lastCases with
          | last => exact hend
          | cast i => exact congrFun he i
        · intro r hr
          rw [mem_filter] at hr
          have hm : a ∉ marked n k r.results := hr.2 ▸ notMem_erase a S
          obtain ⟨x, hx, hxa⟩ := exists_place hk (mem_range.mp (hS ha)) hm
          let r' : Choices n (k + 1) := Fin.snoc (α := fun i => Fin (n - i)) r ⟨x, hx⟩
          have hinit : r'.init = r := by
            funext i
            exact Fin.snoc_castSucc (α := fun i : Fin (k + 1) => Fin (n - i)) _ _ _
          have hpick : r'.lastPick = a := by
            unfold Choices.lastPick
            rw [hinit, show r' (Fin.last k) = ⟨x, hx⟩ from
              Fin.snoc_last (α := fun i : Fin (k + 1) => Fin (n - i)) _ _]
            exact hxa
          refine ⟨r', ?_, hinit⟩
          rw [mem_filter, mem_filter, r'.marked_succ hk, hinit, hpick, hr.2, insert_erase ha]
          exact ⟨⟨mem_univ _, rfl⟩, rfl⟩
      rw [card_eq_sum_card_fiberwise hlast, sum_const_nat hfiber, hcard, Nat.factorial_succ]

/-- Of the sets of `k` indexes as many hold one index as hold another. -/
theorem card_sets_holding {i j : ℕ} (hi : i < n) (hj : j < n) (k : ℕ) :
    ((powersetCard k (range n)).filter (i ∈ ·)).card =
      ((powersetCard k (range n)).filter (j ∈ ·)).card := by
  have hswap : ∀ a < n, Equiv.swap i j a < n := by
    intro a ha
    rw [Equiv.swap_apply_def]
    split_ifs <;> assumption
  have hmaps : ∀ a b, a < n → b < n → ∀ S ∈ (powersetCard k (range n)).filter (a ∈ ·),
      Equiv.swap i j a = b →
      S.map (Equiv.swap i j).toEmbedding ∈ (powersetCard k (range n)).filter (b ∈ ·) := by
    intro a b ha hb S hS he
    rw [mem_filter, mem_powersetCard] at hS
    rw [mem_filter, mem_powersetCard, card_map]
    refine ⟨⟨?_, hS.1.2⟩, he ▸ mem_map_of_mem _ hS.2⟩
    intro x hx
    obtain ⟨y, hy, rfl⟩ := mem_map.mp hx
    exact mem_range.mpr (hswap y (mem_range.mp (hS.1.1 hy)))
  have hinv : ∀ S : Finset ℕ,
      (S.map (Equiv.swap i j).toEmbedding).map (Equiv.swap i j).toEmbedding = S := by
    intro S
    ext x
    simp
  apply card_nbij' (·.map (Equiv.swap i j).toEmbedding) (·.map (Equiv.swap i j).toEmbedding)
  · exact fun S hS => hmaps i j hi hj S hS (Equiv.swap_apply_left i j)
  · exact fun S hS => hmaps j i hj hi S hS (Equiv.swap_apply_right i j)
  · exact fun S _ => hinv S
  · exact fun S _ => hinv S

theorem card_choices_holding (hk : k ≤ n) (j : ℕ) :
    (univ.filter fun r : Choices n k => j ∈ marked n k r.results).card =
      ((powersetCard k (range n)).filter (j ∈ ·)).card * k.factorial := by
  have hmaps : ∀ r ∈ univ.filter fun r : Choices n k => j ∈ marked n k r.results,
      marked n k r.results ∈ (powersetCard k (range n)).filter (j ∈ ·) := by
    intro r hr
    rw [mem_filter, mem_powersetCard]
    exact ⟨⟨filter_subset _ _, card_marked hk _⟩, (mem_filter.mp hr).2⟩
  rw [card_eq_sum_card_fiberwise hmaps]
  apply sum_const_nat
  intro S hS
  rw [mem_filter, mem_powersetCard] at hS
  rw [← card_choices hk hS.1.1 hS.1.2, filter_filter]
  congr 1
  apply filter_congr
  intro r _
  constructor
  · exact fun h => h.2
  · exact fun h => ⟨h ▸ hS.2, h⟩

/-- **The kept set is uniform.**  Every set of `n / 2` of the `n` waiting requests is the kept
set of `(n / 2)!` pick sequences, so each can be kept, and a request is kept by as many pick
sequences wherever it stands. -/
theorem kept_uniform (n : ℕ) :
    (∀ r : Choices n (n / 2), (kept n r.results).toFinset ∈ powersetCard (n / 2) (range n)) ∧
    (∀ S ∈ powersetCard (n / 2) (range n), (univ.filter fun r : Choices n (n / 2) =>
      (kept n r.results).toFinset = S).card = (n / 2).factorial) ∧
    (∀ S ∈ powersetCard (n / 2) (range n), ∃ r : Choices n (n / 2),
      (kept n r.results).toFinset = S) ∧
    ∀ i < n, ∀ j < n, (univ.filter fun r : Choices n (n / 2) => i ∈ kept n r.results).card =
      (univ.filter fun r : Choices n (n / 2) => j ∈ kept n r.results).card := by
  have hk := Nat.div_le_self n 2
  have hcount : ∀ S ∈ powersetCard (n / 2) (range n), (univ.filter fun r : Choices n (n / 2) =>
      (kept n r.results).toFinset = S).card = (n / 2).factorial := by
    intro S hS
    rw [mem_powersetCard] at hS
    simp only [kept_toFinset]
    exact card_choices hk hS.1 hS.2
  refine ⟨?_, hcount, ?_, ?_⟩
  · intro r
    rw [kept_toFinset, mem_powersetCard]
    exact ⟨filter_subset _ _, card_marked hk _⟩
  · intro S hS
    have hpos := (hcount S hS).symm ▸ (n / 2).factorial_pos
    obtain ⟨r, hr⟩ := card_pos.mp hpos
    exact ⟨r, (mem_filter.mp hr).2⟩
  · intro i hi j hj
    simp only [← List.mem_toFinset, kept_toFinset]
    rw [card_choices_holding hk, card_choices_holding hk, card_sets_holding hi hj]

end OsProjects.WebServer
