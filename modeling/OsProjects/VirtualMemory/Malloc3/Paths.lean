import OsProjects.VirtualMemory.Malloc3.Listed

/-! # The paths of `smalloc` and `srealloc`

Both functions look around before they change anything: `smalloc` searches the list,
`srealloc` finds the neighbours of the block and compares sizes.  On a heap that holds the
blocks `as ++ b :: cs` this choice is a function of the blocks (`fits`, `pathOf`), and the
rest of the call is the code of one path. -/

namespace OsProjects.Malloc3

open Prog

variable {L : Set ℕ} {s s' : State} {as bs cs order : List Block} {b : Block} {r size : ℕ}

/-! ### The search of `smalloc` -/

/-- The first free block of at least `size` bytes in the order of the list. -/
def found (order : List Block) (size : ℕ) : Option Block :=
  order.find? fun b => b.free && decide (size ≤ b.size)

theorem search_cases {fuel p : ℕ} {o : Option ℕ} (h : (search size (fuel + 1) p).run s = .ok (o, s')) :
    ((getField s.sys.mem .isFree p != 0) = true ∧ size ≤ getField s.sys.mem .size p ∧
        o = some p ∧ s = s') ∨
    (¬((getField s.sys.mem .isFree p != 0) = true ∧ size ≤ getField s.sys.mem .size p) ∧
      (getField s.sys.mem .next p ≠ 0 ∧
          (search size fuel (getField s.sys.mem .next p)).run s = .ok (o, s') ∨
        getField s.sys.mem .next p = 0 ∧ o = none ∧ s = s')) := by
  simp only [search, run_bind_eq_ok, run_ite_eq_ok, get_eq_ok, getFree_eq_ok, pure_eq_ok] at h
  obtain ⟨_, _, hv, free, _, ⟨-, rfl, rfl⟩, fits, _, hfits, h⟩ := h
  obtain rfl := validateCookie_eq_ok hv
  obtain ⟨hfree, _, _, ⟨-, rfl, rfl⟩, rfl, rfl⟩ | ⟨hfree, rfl, rfl⟩ := hfits
  · rw [decide_eq_true_eq] at h
    obtain ⟨hle, rfl, rfl⟩ | ⟨hle, _, _, ⟨-, rfl, rfl⟩, h⟩ := h
    · exact .inl ⟨hfree, hle, rfl, rfl⟩
    · refine .inr ⟨fun hc => hle hc.2, ?_⟩
      rcases h with h | ⟨hn, rfl, rfl⟩
      · exact .inl h
      · exact .inr ⟨not_not.mp hn, rfl, rfl⟩
  · obtain ⟨hf, -⟩ | ⟨-, _, _, ⟨-, rfl, rfl⟩, h⟩ := h
    · cases hf
    · refine .inr ⟨fun hc => hfree hc.1, ?_⟩
      rcases h with h | ⟨hn, rfl, rfl⟩
      · exact .inl h
      · exact .inr ⟨not_not.mp hn, rfl, rfl⟩

theorem search_eq {fuel : ℕ} {o : Option ℕ} (hh : Headers s.sys.mem (b :: bs))
    (h₀ : ∀ c ∈ b :: bs, c.addr ≠ 0) (hL : Linked (nxt s) (prv s) b.addr (bs.map Block.addr))
    (h : (search size fuel b.addr).run s = .ok (o, s')) :
    s = s' ∧ o = (found (b :: bs) size).map Block.addr := by
  induction fuel generalizing b bs with
  | zero => simp [search] at h
  | succ fuel ih =>
      have hb := hh b (by simp)
      have hsize : getField s.sys.mem .size b.addr = b.size := size_of_blockAt hb
      have hfree : (getField s.sys.mem .isFree b.addr != 0) = b.free := free_of_blockAt hb
      have hnext : getField s.sys.mem .next b.addr = nxt s b.addr := by
        rw [nxt, if_neg (h₀ b (by simp))]
      have h := search_cases h
      rw [hsize, hfree, hnext] at h
      obtain ⟨hf, hle, rfl, rfl⟩ | ⟨hn, h⟩ := h
      · exact ⟨rfl, by simp [found, hf, hle]⟩
      · have hno : ¬((b.free && decide (size ≤ b.size)) = true) := by simpa using hn
        cases bs with
        | nil =>
            have hz : nxt s b.addr = 0 := hL
            obtain ⟨hne, -⟩ | ⟨-, rfl, rfl⟩ := h
            · exact absurd hz hne
            · exact ⟨rfl, by simp [found, hno]⟩
        | cons c bs =>
            obtain ⟨hz, hc₀, -, hL'⟩ := hL
            obtain ⟨-, h⟩ | ⟨he, -⟩ := h
            · rw [hz] at h
              obtain ⟨rfl, rfl⟩ := ih (fun d hd => hh d (List.mem_cons_of_mem _ hd))
                (fun d hd => h₀ d (List.mem_cons_of_mem _ hd)) hL' h
              exact ⟨rfl, congrArg _ (Eq.symm (List.find?_cons_of_neg hno))⟩
            · exact absurd (hz.symm.trans he) hc₀

/-! ### The neighbours of a block -/

theorem prevLoop_eq {fuel v : ℕ} {ds : List Block} {d : Block}
    (ht : Tiled s (as ++ d :: (ds ++ b :: cs)))
    (h : (prevLoop b.addr fuel d.addr).run s = .ok (v, s')) :
    s = s' ∧ v = ((d :: ds).getLast (List.cons_ne_nil d ds)).addr := by
  induction ds generalizing as d fuel with
  | nil =>
      cases fuel with
      | zero => simp [prevLoop] at h
      | succ fuel =>
          have hd : d ∈ as ++ d :: ([] ++ b :: cs) := by simp
          have hle := ht.stop_le hd
          have hnext : b.addr = d.stop := Tiled.addr_next ht
          simp only [prevLoop, run_bind_eq_ok, get_eq_ok, run_ite_eq_ok, pure_eq_ok] at h
          obtain ⟨_, _, ⟨-, rfl, rfl⟩, ⟨-, rfl, rfl⟩ | ⟨hne, -⟩⟩ := h
          · exact ⟨rfl, rfl⟩
          · refine absurd ?_ hne
            rw [ht.size_eq hd, hnext]
            simp only [add64, Block.stop, sizeofMetadata]
            omega
  | cons e ds ih =>
      cases fuel with
      | zero => simp [prevLoop] at h
      | succ fuel =>
          have hd : d ∈ as ++ d :: (e :: ds ++ b :: cs) := by simp
          have hle := ht.stop_le hd
          have hnext : e.addr = d.stop := Tiled.addr_next ht
          have hbehind : add64 (add64 d.addr (getField s.sys.mem .size d.addr)) sizeofMetadata =
              e.addr := by
            rw [ht.size_eq hd, hnext]
            simp only [add64, Block.stop, sizeofMetadata]
            omega
          simp only [prevLoop, run_bind_eq_ok, get_eq_ok, run_ite_eq_ok, pure_eq_ok] at h
          obtain ⟨_, _, ⟨-, rfl, rfl⟩, ⟨he, -⟩ | ⟨-, h⟩⟩ := h
          · refine absurd (hbehind.symm.trans he) ?_
            have ht' : Tiled s ((as ++ d :: e :: ds) ++ ([b] ++ cs)) := by simpa using ht
            exact Tiled.addr_ne [b] ht' (by simp) (by simp)
          · rw [hbehind] at h
            have e' : as ++ d :: (e :: ds ++ b :: cs) = (as ++ [d]) ++ e :: (ds ++ b :: cs) := by simp
            rw [e'] at ht
            obtain ⟨rfl, rfl⟩ := ih ht h
            exact ⟨rfl, rfl⟩

/-! ### The choice of `srealloc` -/

/-- The paths of `srealloc` on a block of the heap, with the free neighbours they use. -/
inductive Path where
  | reuse
  | lower (p : Block)
  | lowerGrow (p : Block)
  | grow
  | upper (n : Block)
  | both (p n : Block)
  | bothGrow (p n : Block)
  | upperGrow (n : Block)
  | move
deriving DecidableEq, Repr

/-- The path for the block `b` between the blocks `as` and `cs`. -/
def pathOf (as : List Block) (b : Block) (cs : List Block) (size : ℕ) : Path :=
  if size ≤ b.size then .reuse
  else match as.getLast?.filter Block.free, cs with
    | some p, [] => if size ≤ b.size + p.size + sizeofMetadata then .lower p else .lowerGrow p
    | none, [] => .grow
    | some p, n :: cs =>
      if size ≤ b.size + p.size + sizeofMetadata then .lower p
      else if n.free = false then .move
      else if size ≤ b.size + n.size + sizeofMetadata then .upper n
      else if size ≤ p.size + b.size + n.size + 2 * sizeofMetadata then .both p n
      else if cs = [] then .bothGrow p n else .move
    | none, n :: cs =>
      if n.free = false then .move
      else if size ≤ b.size + n.size + sizeofMetadata then .upper n
      else if cs = [] then .upperGrow n else .move

/-- What each path finds: the neighbours and the sizes. -/
def Path.Chosen (as : List Block) (b : Block) (cs : List Block) (size : ℕ) : Path → Prop
  | reuse => size ≤ b.size
  | lower p => (∃ as', as = as' ++ [p]) ∧ p.free = true ∧ b.size < size ∧ size ≤ (p.absorb b).size
  | lowerGrow p => (∃ as', as = as' ++ [p]) ∧ cs = [] ∧ p.free = true ∧ (p.absorb b).size < size
  | grow => cs = [] ∧ b.size < size
  | upper n => (∃ cs', cs = n :: cs') ∧ n.free = true ∧ b.size < size ∧ size ≤ (b.absorb n).size
  | both p n => (∃ as', as = as' ++ [p]) ∧ (∃ cs', cs = n :: cs') ∧ p.free = true ∧
      n.free = true ∧ (p.absorb b).size < size ∧ size ≤ ((p.absorb b).absorb n).size
  | bothGrow p n => (∃ as', as = as' ++ [p]) ∧ cs = [n] ∧ p.free = true ∧ n.free = true ∧
      ((p.absorb b).absorb n).size < size
  | upperGrow n => cs = [n] ∧ n.free = true ∧ (∀ a ∈ as.getLast?, a.free = false) ∧
      (b.absorb n).size < size
  | move => b.size < size

theorem last_used_of_filter (h : as.getLast?.filter Block.free = none) :
    ∀ a ∈ as.getLast?, a.free = false := by
  intro a ha
  rw [Option.mem_def.mp ha, Option.filter_some] at h
  split at h
  next => cases h
  next hf => simpa using hf

theorem last_free_of_filter {p : Block} (h : as.getLast?.filter Block.free = some p) :
    (∃ as', as = as' ++ [p]) ∧ p.free = true := by
  obtain ⟨hp, hf⟩ := Option.filter_eq_some_iff.mp h
  exact ⟨List.getLast?_eq_some_iff.mp hp, hf⟩

theorem pathOf_chosen (as : List Block) (b : Block) (cs : List Block) (size : ℕ) :
    (pathOf as b cs size).Chosen as b cs size := by
  unfold pathOf
  split
  next hle => exact hle
  next hlt =>
    have hlt' : b.size < size := Nat.lt_of_not_le hlt
    split
    next p hp =>
      obtain ⟨has, hf⟩ := last_free_of_filter hp
      split
      next hle => exact ⟨has, hf, hlt', by simp only [Block.absorb, sizeofMetadata] at *; omega⟩
      next hn => exact ⟨has, rfl, hf, by simp only [Block.absorb, sizeofMetadata] at *; omega⟩
    next => exact ⟨rfl, hlt'⟩
    next p n cs hp =>
      obtain ⟨has, hf⟩ := last_free_of_filter hp
      split
      next hle => exact ⟨has, hf, hlt', by simp only [Block.absorb, sizeofMetadata] at *; omega⟩
      next hn =>
        split
        next => exact hlt'
        next hnf =>
          have hnf' : n.free = true := by simpa using hnf
          split
          next hle =>
            exact ⟨⟨cs, rfl⟩, hnf', hlt', by simp only [Block.absorb, sizeofMetadata] at *; omega⟩
          next =>
            split
            next hle =>
              refine ⟨has, ⟨cs, rfl⟩, hf, hnf', ?_, ?_⟩ <;>
                simp only [Block.absorb, sizeofMetadata] at * <;> omega
            next =>
              split
              next hcs =>
                refine ⟨has, by rw [hcs], hf, hnf', ?_⟩
                simp only [Block.absorb, sizeofMetadata] at *
                omega
              next => exact hlt'
    next n cs hp =>
      split
      next => exact hlt'
      next hnf =>
        have hnf' : n.free = true := by simpa using hnf
        split
        next hle =>
          exact ⟨⟨cs, rfl⟩, hnf', hlt', by simp only [Block.absorb, sizeofMetadata] at *; omega⟩
        next =>
          split
          next hcs =>
            refine ⟨by rw [hcs], hnf', last_used_of_filter hp, ?_⟩
            simp only [Block.absorb, sizeofMetadata] at *
            omega
          next => exact hlt'

/-- The code of a path. -/
def Path.code (as : List Block) (b : Block) (cs : List Block) (oldp size : ℕ) : Path → M ℕ
  | reuse => do
    split b.addr size
    pure oldp
  | lower p => reallocLower b.addr p.addr (firstAddr cs) oldp size
  | lowerGrow p => reallocLowerGrow b.addr p.addr oldp size
  | grow => reallocGrow size
  | upper _ => reallocUpper b.addr (lastAddr as) size
  | both p _ => reallocBoth b.addr p.addr oldp size
  | bothGrow p _ => reallocBothGrow b.addr p.addr oldp size
  | upperGrow _ => reallocUpperGrow b.addr size
  | move => reallocMove b.addr oldp size

/-- What `reallocNeighbours` reads of the lower neighbour. -/
theorem prev_read (ht : Tiled s (as ++ b :: cs)) :
    (as = [] ∧ as.getLast?.filter Block.free = none) ∨
    ∃ as' p, as = as' ++ [p] ∧ getField s.sys.mem .size (lastAddr as) = p.size ∧
      (getField s.sys.mem .isFree (lastAddr as) != 0) = p.free ∧
      as.getLast?.filter Block.free = if p.free then some p else none := by
  rcases List.eq_nil_or_concat as with rfl | ⟨as', p, rfl⟩
  · exact .inl ⟨rfl, rfl⟩
  · rw [List.concat_eq_append] at *
    have hp : p ∈ as' ++ [p] ++ b :: cs := by simp
    refine .inr ⟨as', p, rfl, ?_, ?_, ?_⟩
    · rw [lastAddr_concat]; exact ht.size_eq hp
    · rw [lastAddr_concat]; exact ht.free_eq hp
    · simp [Option.filter_some]

theorem reallocNeighbours_path {oldp : ℕ} (ht : Tiled s (as ++ b :: cs))
    (hw : s.heap.wilderness = lastAddr (as ++ b :: cs)) (hsize : b.size < size)
    (h : (reallocNeighbours b.addr (lastAddr as) (firstAddr cs) (decide (as = []))
      (decide (cs = [])) oldp size).run s = .ok (r, s')) :
    ((pathOf as b cs size).code as b cs oldp size).run s = .ok (r, s') := by
  have hb : b ∈ as ++ b :: cs := by simp
  have hbs := ht.size_eq hb
  have hble := ht.stop_le hb
  simp only [reallocNeighbours, run_bind_eq_ok, run_ite_eq_ok, get_eq_ok, getFree_eq_ok, pure_eq_ok,
    decide_eq_true_eq, getHeap_eq_ok] at h
  obtain ⟨_, _, ⟨-, rfl, rfl⟩, prevFree, s₁, hprev, prevSize, s₂, hprevSize, h⟩ := h
  -- what was read of the lower neighbour
  have hp : ∃ o : Option Block, as.getLast?.filter Block.free = o ∧ prevFree = o.isSome ∧
      prevSize = (o.map Block.size).getD 0 ∧ s = s₁ ∧ s = s₂ ∧
      ∀ p ∈ o, p ∈ as ++ b :: cs ∧ p.addr = lastAddr as := by
    rcases prev_read ht with ⟨rfl, hnone⟩ | ⟨as', p, rfl, hps, hpf, hfil⟩
    · obtain ⟨-, rfl, rfl⟩ | ⟨he, -⟩ := hprev
      · obtain ⟨hf, -⟩ | ⟨-, rfl, rfl⟩ := hprevSize
        · cases hf
        · exact ⟨none, hnone, rfl, rfl, rfl, rfl, by simp⟩
      · exact absurd rfl he
    · rw [hpf] at hprev
      obtain ⟨he, -⟩ | ⟨-, -, rfl, rfl⟩ := hprev
      · simp at he
      · refine ⟨_, hfil, ?_⟩
        obtain ⟨hf, -, rfl, rfl⟩ | ⟨hf, rfl, rfl⟩ := hprevSize
        · rw [lastAddr_concat] at hps
          simp [hf, hps]
        · simp [Bool.eq_false_iff.mpr hf]
  obtain ⟨o, ho, rfl, rfl, rfl, rfl, hmem⟩ := hp
  clear hprev hprevSize
  rw [hbs] at h
  have hsz : ¬size ≤ b.size := Nat.not_le.mpr hsize
  have hlower : ∀ p ∈ o, add64 (add64 b.size p.size) sizeofMetadata =
      b.size + p.size + sizeofMetadata := fun p hp => by
    have := ht.stop_le (hmem p hp).1
    simp only [add64, sizeofMetadata]
    omega
  cases cs with
  | nil =>
      cases o with
      | none =>
          simp only [pathOf, if_neg hsz, ho, Path.code]
          simpa using h
      | some p =>
          have hpa := (hmem p rfl).2
          by_cases hle : size ≤ b.size + p.size + sizeofMetadata
          · simp only [pathOf, if_neg hsz, ho, if_pos hle, Path.code]
            simpa [hlower p rfl, ← hpa, hle] using h
          · simp only [pathOf, if_neg hsz, ho, if_neg hle, Path.code]
            simpa [hlower p rfl, ← hpa, hle] using h
  | cons n cs =>
      have hn : n ∈ as ++ b :: n :: cs := by simp
      have hnle := ht.stop_le hn
      have hna : firstAddr (n :: cs) = n.addr := rfl
      have hupper : add64 (add64 b.size n.size) sizeofMetadata =
          b.size + n.size + sizeofMetadata := by
        simp only [add64, sizeofMetadata]
        omega
      have hboth : ∀ p ∈ o, add64 (add64 (add64 p.size b.size) n.size) (2 * sizeofMetadata) =
          p.size + b.size + n.size + 2 * sizeofMetadata := fun p hp => by
        have := ht.stop_le (hmem p hp).1
        simp only [add64, sizeofMetadata]
        omega
      have hwild : n.addr = s.heap.wilderness ↔ cs = [] := by
        rw [hw, lastAddr_append_cons_cons]
        cases cs with
        | nil => simp [lastAddr]
        | cons c cs =>
            have e : lastAddr (n :: c :: cs) = lastAddr (c :: cs) := lastAddr_append_cons_cons [] n c cs
            obtain ⟨d, hd, hda⟩ := exists_mem_lastAddr (List.cons_ne_nil c cs)
            have hne : d.addr ≠ n.addr := by
              have ht' : Tiled s ((as ++ [b]) ++ ([n] ++ c :: cs)) := by simpa using ht
              exact Tiled.addr_ne [n] ht' (List.mem_append_right _ hd) (by simp)
            rw [e, ← hda]
            exact ⟨fun he => absurd he.symm hne, fun he => absurd he (by simp)⟩
      have hns := ht.size_eq hn
      have hnf := ht.free_eq hn
      obtain ⟨⟨hp, hlp⟩, h⟩ | ⟨hlp, ⟨⟨-, hcs⟩, -⟩ | ⟨-, ⟨hcs, -⟩ | ⟨-, nextFree, _, ⟨-, rfl, rfl⟩,
        nextSize, s₃, hnext, h⟩⟩⟩ := h
      · obtain ⟨p, rfl⟩ := Option.isSome_iff_exists.mp hp
        simp only [Option.map_some, Option.getD_some, hlower p rfl] at hlp
        simpa only [pathOf, if_neg hsz, ho, if_pos hlp, Path.code, (hmem p rfl).2] using h
      · cases hcs
      · cases hcs
      rw [hna, hnf] at hnext h
      rw [hns] at hnext
      obtain ⟨hf, -, rfl, rfl⟩ | ⟨hf, rfl, rfl⟩ := hnext
      · rw [hupper] at h
        cases o with
        | none =>
            obtain ⟨⟨-, hu⟩, h⟩ | ⟨hu, ⟨⟨-, hb, -⟩, -⟩ | ⟨-, _, _, ⟨rfl, rfl⟩,
              ⟨⟨hw', -⟩, ⟨hb, -⟩ | ⟨-, h⟩⟩ | ⟨hw', h⟩⟩⟩ := h
            · simpa [pathOf, hsz, ho, hf, hu, Path.code] using h
            · simp at hb
            · simp at hb
            · have hu' : ¬size ≤ b.size + n.size + sizeofMetadata := fun e => hu ⟨hf, e⟩
              simpa [pathOf, hsz, ho, hf, hu', hwild.mp hw', Path.code] using h
            · have hu' : ¬size ≤ b.size + n.size + sizeofMetadata := fun e => hu ⟨hf, e⟩
              have hcs : cs ≠ [] := fun e => hw' ⟨hwild.mpr e, hf⟩
              simpa [pathOf, hsz, ho, hf, hu', hcs, Path.code] using h
        | some p =>
            have hpa := (hmem p rfl).2
            have hlp' : ¬size ≤ b.size + p.size + sizeofMetadata := fun e =>
              hlp ⟨rfl, by simpa only [Option.map_some, Option.getD_some, hlower p rfl] using e⟩
            simp only [Option.map_some, Option.getD_some, hboth p rfl, ← hpa] at h
            obtain ⟨⟨-, hu⟩, h⟩ | ⟨hu, ⟨⟨-, -, hb⟩, h⟩ | ⟨hb, _, _, ⟨rfl, rfl⟩,
              ⟨⟨hw', -⟩, ⟨-, h⟩ | ⟨hc, -⟩⟩ | ⟨hw', h⟩⟩⟩ := h
            · simpa [pathOf, hsz, ho, hlp', hf, hu, Path.code, ← hpa] using h
            · have hu' : ¬size ≤ b.size + n.size + sizeofMetadata := fun e => hu ⟨hf, e⟩
              simpa [pathOf, hsz, ho, hlp', hf, hu', hb, Path.code] using h
            · have hu' : ¬size ≤ b.size + n.size + sizeofMetadata := fun e => hu ⟨hf, e⟩
              have hb' : ¬size ≤ p.size + b.size + n.size + 2 * sizeofMetadata :=
                fun e => hb ⟨hf, rfl, e⟩
              simpa [pathOf, hsz, ho, hlp', hf, hu', hb', hwild.mp hw', Path.code] using h
            · exact absurd rfl hc
            · have hu' : ¬size ≤ b.size + n.size + sizeofMetadata := fun e => hu ⟨hf, e⟩
              have hb' : ¬size ≤ p.size + b.size + n.size + 2 * sizeofMetadata :=
                fun e => hb ⟨hf, rfl, e⟩
              have hcs : cs ≠ [] := fun e => hw' ⟨hwild.mpr e, hf⟩
              simpa [pathOf, hsz, ho, hlp', hf, hu', hb', hcs, Path.code] using h
      · have hf' : n.free = false := by simpa using hf
        obtain ⟨⟨hc, -⟩, -⟩ | ⟨-, ⟨⟨hc, -⟩, -⟩ | ⟨-, _, _, ⟨rfl, rfl⟩, ⟨⟨-, hc⟩, -⟩ | ⟨-, h⟩⟩⟩ := h
        · exact absurd hc hf
        · exact absurd hc hf
        · exact absurd hc hf
        · cases o with
          | none => simpa [pathOf, hsz, ho, hf', Path.code] using h
          | some p =>
              have hlp' : ¬size ≤ b.size + p.size + sizeofMetadata := fun e =>
                hlp ⟨rfl, by simpa only [Option.map_some, Option.getD_some, hlower p rfl] using e⟩
              simpa [pathOf, hsz, ho, hlp', hf', Path.code] using h

theorem payload_sub (ht : Tiled s bs) (hb : b ∈ bs) : sub64 b.payload sizeofMetadata = b.addr := by
  have := ht.stop_le hb
  rw [Block.payload, sub64_eq] <;> simp only [sizeofMetadata] <;> omega

/-- The last block is the one at the wilderness. -/
theorem addr_eq_wilderness (ht : Tiled s (as ++ b :: cs)) :
    b.addr = lastAddr (as ++ b :: cs) ↔ cs = [] := by
  cases cs with
  | nil => simp
  | cons c cs =>
      obtain ⟨d, hd, hda⟩ := exists_mem_lastAddr (List.cons_ne_nil c cs)
      have hne : d.addr ≠ b.addr :=
        Tiled.addr_ne [b] ht (List.mem_append_right as hd) (List.mem_singleton_self b)
      rw [lastAddr_append_cons_cons, ← hda]
      exact ⟨fun he => absurd he.symm hne, fun he => absurd he (by simp)⟩

theorem addr_eq_firsthead (ht : Tiled s (as ++ b :: cs)) : b.addr = s.heap.firsthead ↔ as = [] := by
  rw [ht.first]
  cases as with
  | nil => simp [firstAddr]
  | cons a as =>
      have hne : a.addr ≠ b.addr :=
        Tiled.addr_ne [b] ht (by simp) (List.mem_singleton_self b)
      simp [firstAddr, hne.symm]

/-- **`srealloc` on a block of the heap** runs the code of its path. -/
theorem srealloc_path (ht : Tiled s (as ++ b :: cs))
    (hw : s.heap.wilderness = lastAddr (as ++ b :: cs)) (hb : b.size < mmapThreshold)
    (hs₀ : size ≠ 0) (hs : size ≤ sizeLimit)
    (h : (srealloc b.payload size).run s = .ok (r, s')) :
    ((pathOf as b cs size).code as b cs b.payload size).run s = .ok (r, s') := by
  have hbm : b ∈ as ++ b :: cs := by simp
  have hble := ht.stop_le hbm
  have hp : b.payload ≠ 0 := by
    simp only [Block.payload, sizeofMetadata]
    omega
  simp only [srealloc, run_ite_eq_ok, run_bind_eq_ok, get_eq_ok, getHeap_eq_ok, pure_eq_ok,
    payload_sub ht hbm] at h
  obtain ⟨he, -⟩ | ⟨-, ⟨he, -⟩ | ⟨-, _, _, hv, _, _, ⟨-, rfl, rfl⟩, h⟩⟩ := h
  · exact absurd he hp
  · rcases he with he | he
    · exact absurd he hs₀
    · omega
  obtain rfl := validateCookie_eq_ok hv
  rw [ht.size_eq hbm] at h
  obtain ⟨he, -⟩ | ⟨-, ⟨hle, _, s₁, h₁, rfl, rfl⟩ | ⟨hlt, _, _, ⟨rfl, rfl⟩, _, _, hv, prev, s₂, hprev,
    _, s₃, hv', h⟩⟩ := h
  · omega
  · simp only [pathOf, if_pos hle, Path.code, run_bind_eq_ok, pure_eq_ok]
    exact ⟨(), s₁, h₁, trivial, rfl⟩
  obtain rfl := validateCookie_eq_ok hv
  have hwild : b.addr = s.heap.wilderness ↔ cs = [] := by rw [hw]; exact addr_eq_wilderness ht
  have hfirst := addr_eq_firsthead ht
  have hprev' : s = s₂ ∧ prev = lastAddr as := by
    simp only [decide_eq_true_eq, hfirst] at hprev
    obtain ⟨rfl, rfl, rfl⟩ | ⟨hne, hprev⟩ := hprev
    · exact ⟨rfl, rfl⟩
    · cases as with
      | nil => exact absurd rfl hne
      | cons a as =>
          have ht' : Tiled s ([] ++ a :: (as ++ b :: cs)) := ht
          have hf : s.heap.firsthead = a.addr := ht.first
          rw [hf] at hprev
          obtain ⟨h₁, h₂⟩ := prevLoop_eq ht' hprev
          refine ⟨h₁, h₂.trans ?_⟩
          simp [lastAddr, List.getLast?_eq_some_getLast (List.cons_ne_nil a as)]
  obtain ⟨rfl, rfl⟩ := hprev'
  obtain rfl := validateCookie_eq_ok hv'
  have hnext : (if b.addr = s.heap.wilderness then 0
      else add64 (add64 b.addr b.size) sizeofMetadata) = firstAddr cs := by
    cases cs with
    | nil => rw [if_pos (hwild.mpr rfl)]; rfl
    | cons n cs =>
        rw [if_neg fun e => absurd (hwild.mp e) (by simp)]
        have := ht.addr_next
        simp only [firstAddr, Block.stop, sizeofMetadata, add64] at this ⊢
        simp [this]
        omega
  simp only [decide_eq_true_eq, hnext] at h
  rw [decide_eq_decide.mpr hwild, decide_eq_decide.mpr hfirst] at h
  exact reallocNeighbours_path ht hw (Nat.lt_of_not_le hlt) h

theorem srealloc_cases {oldp : ℕ} (h : (srealloc oldp size).run s = .ok (r, s')) :
    let n := getField s.sys.mem .size (sub64 oldp sizeofMetadata)
    (oldp = 0 ∧ (smalloc size).run s = .ok (r, s')) ∨
    (oldp ≠ 0 ∧ (size = 0 ∨ sizeLimit < size) ∧ r = 0 ∧ s = s') ∨
    (oldp ≠ 0 ∧ size ≠ 0 ∧ size ≤ sizeLimit ∧
      (mmapThreshold ≤ n ∧ (mmapsrealloc oldp size).run s = .ok (r, s') ∨ n < mmapThreshold)) := by
  intro n
  simp only [srealloc, run_ite_eq_ok, run_bind_eq_ok, get_eq_ok, pure_eq_ok] at h
  obtain ⟨hp, h⟩ | ⟨hp, ⟨hbad, rfl, rfl⟩ | ⟨hok, _, _, hv, _, _, ⟨-, rfl, rfl⟩, h⟩⟩ := h
  · exact .inl ⟨hp, h⟩
  · exact .inr (.inl ⟨hp, hbad, rfl, rfl⟩)
  · obtain rfl := validateCookie_eq_ok hv
    rw [not_or, Nat.not_lt] at hok
    refine .inr (.inr ⟨hp, hok.1, hok.2, ?_⟩)
    obtain ⟨hT, h⟩ | ⟨hT, -⟩ := h
    · exact .inl ⟨hT, h⟩
    · exact .inr (Nat.lt_of_not_le hT)

theorem mmapsrealloc_cases {oldp : ℕ} (h : (mmapsrealloc oldp size).run s = .ok (r, s')) :
    let old := sub64 oldp sizeofMetadata
    (getField s.sys.mem .size old = size ∧ r = oldp ∧ s = s') ∨
    (getField s.sys.mem .size old ≠ size ∧ (r = 0 ∧ (smalloc size).run s = .ok (0, s') ∨
      r ≠ 0 ∧ ∃ s₁, (smalloc size).run s = .ok (r, s₁) ∧
        (sfree oldp).run (s₁.setMem (s₁.sys.mem.copy r oldp
          (min (getField s₁.sys.mem .size old) size))) = .ok ((), s'))) := by
  intro old
  have hmin : ∀ k : ℕ, (if k < size then k else size) = min k size := fun k => by
    rw [min_def]
    split <;> split <;> omega
  simp only [mmapsrealloc, run_ite_eq_ok, run_bind_eq_ok, get_eq_ok, pure_eq_ok, memmove_eq_ok,
    hmin] at h
  obtain ⟨_, _, hv, _, _, ⟨-, rfl, rfl⟩, h⟩ := h
  obtain rfl := validateCookie_eq_ok hv
  obtain ⟨he, rfl, rfl⟩ | ⟨hne, a, s₁, h₁, h⟩ := h
  · exact .inl ⟨he, rfl, rfl⟩
  · obtain ⟨rfl, rfl, rfl⟩ | ⟨ha, _, _, ⟨-, rfl, rfl⟩, _, _, ⟨-, rfl⟩, _, _, h, rfl, rfl⟩ := h
    · exact .inr ⟨hne, .inl ⟨rfl, h₁⟩⟩
    · exact .inr ⟨hne, .inr ⟨ha, s₁, h₁, h⟩⟩

theorem reallocMove_cases {old oldp : ℕ} (h : (reallocMove old oldp size).run s = .ok (r, s')) :
    r = 0 ∧ (smalloc size).run s = .ok (0, s') ∨
      r ≠ 0 ∧ ∃ s₁, (smalloc size).run s = .ok (r, s₁) ∧
        (sfree oldp).run (s₁.setMem (s₁.sys.mem.copy r oldp (getField s₁.sys.mem .size old))) =
          .ok ((), s') := by
  simp only [reallocMove, run_ite_eq_ok, run_bind_eq_ok, get_eq_ok, pure_eq_ok, memmove_eq_ok] at h
  obtain ⟨a, s₁, h₁, ⟨rfl, rfl, rfl⟩ | ⟨ha, _, _, ⟨-, rfl, rfl⟩, _, _, ⟨-, rfl⟩, _, _, h, rfl, rfl⟩⟩ := h
  · exact .inl ⟨rfl, h₁⟩
  · exact .inr ⟨ha, s₁, h₁, h⟩

/-! ### The choice of `smalloc` -/

theorem smalloc_cases (h : (smalloc size).run s = .ok (r, s')) :
    ((size = 0 ∨ sizeLimit < size) ∧ r = 0 ∧ s = s') ∨
    (size ≠ 0 ∧ size ≤ sizeLimit ∧
      ((mmapThreshold ≤ size ∧ (smallocMmap size).run s = .ok (r, s')) ∨
      (size < mmapThreshold ∧ s.heap.head = 0 ∧ (firstAllocation size).run s = .ok (r, s')) ∨
      (size < mmapThreshold ∧ s.heap.head ≠ 0 ∧ ∃ o s₁,
        (search size rounds s.heap.head).run s = .ok (o, s₁) ∧
        ((∃ p, o = some p ∧ (split p size).run s₁ = .ok ((), s') ∧ r = add64 p sizeofMetadata) ∨
          (o = none ∧ ((getField s₁.sys.mem .isFree s₁.heap.wilderness != 0) = true ∧
              (growFreeWilderness size).run s₁ = .ok (r, s') ∨
            (getField s₁.sys.mem .isFree s₁.heap.wilderness != 0) = false ∧
              (appendBlock size).run s₁ = .ok (r, s'))))))) := by
  simp only [smalloc, run_ite_eq_ok, run_bind_eq_ok, getHeap_eq_ok, pure_eq_ok] at h
  obtain ⟨hbad, rfl, rfl⟩ | ⟨hok, h⟩ := h
  · exact .inl ⟨hbad, rfl, rfl⟩
  rw [not_or, Nat.not_lt] at hok
  refine .inr ⟨hok.1, hok.2, ?_⟩
  obtain ⟨hT, h⟩ | ⟨hT, _, _, ⟨rfl, rfl⟩, ⟨hh, h⟩ | ⟨hh, _, _, ⟨rfl, rfl⟩, o, s₁, ho, h⟩⟩ := h
  · exact .inl ⟨hT, h⟩
  · exact .inr (.inl ⟨Nat.lt_of_not_le hT, hh, h⟩)
  · refine .inr (.inr ⟨Nat.lt_of_not_le hT, hh, o, s₁, ho, ?_⟩)
    cases o with
    | some p =>
        simp only [run_bind_eq_ok, pure_eq_ok] at h
        obtain ⟨_, s₂, h₂, rfl, rfl⟩ := h
        exact .inl ⟨p, rfl, h₂, rfl⟩
    | none =>
        simp only [run_bind_eq_ok, run_ite_eq_ok, getHeap_eq_ok, getFree_eq_ok] at h
        obtain ⟨_, _, ⟨rfl, rfl⟩, _, _, hv, _, _, ⟨rfl, rfl⟩, _, _, ⟨-, rfl, rfl⟩, h⟩ := h
        obtain rfl := validateCookie_eq_ok hv
        refine .inr ⟨rfl, ?_⟩
        rcases h with ⟨hf, h⟩ | ⟨hf, h⟩
        · exact .inl ⟨hf, h⟩
        · exact .inr ⟨by simpa using hf, h⟩

/-- On a complete list the search finds the first block that fits. -/
theorem search_order {o : Option ℕ} {fuel : ℕ} (hh : Headers s.sys.mem order)
    (h₀ : ∀ c ∈ order, c.addr ≠ 0) (hL : Linked (nxt s) (prv s) 0 (order.map Block.addr))
    (hne : s.heap.head ≠ 0) (h : (search size fuel s.heap.head).run s = .ok (o, s')) :
    s = s' ∧ o = (found order size).map Block.addr := by
  cases order with
  | nil => exact absurd hL hne
  | cons b order =>
      obtain ⟨hb, -, -, hL⟩ := hL
      have hb : s.heap.head = b.addr := hb
      rw [hb] at h
      exact search_eq hh h₀ hL h

end OsProjects.Malloc3
