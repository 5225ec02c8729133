import OsProjects.VirtualMemory.Malloc3.Serve

/-! # Resizing a block of the heap

The paths of `srealloc` on a block that has to grow.  Each frees the block, merges it with the
neighbours it may use (`Merged`), takes what it needs and moves the payload.  The path has an
`Outcome` whatever the list loses on the way. -/

namespace OsProjects.Malloc3

open Prog

variable {F H L S : Set ℕ} {s s' s₁ s₂ s₃ : State} {as bs bs' cs ds : List Block}
  {b c d n p q : Block} {r size k : ℕ} {m : Memory} {x : System} {ok ok' : Prop}

/-! ### Freeing and merging -/

/-- The block `b` with its flag set. -/
def Block.freed (b : Block) : Block := { b with free := true }

@[simp] theorem Block.freed_addr (b : Block) : b.freed.addr = b.addr := rfl
@[simp] theorem Block.freed_size (b : Block) : b.freed.size = b.size := rfl
@[simp] theorem Block.freed_free (b : Block) : b.freed.free = true := rfl
@[simp] theorem Block.freed_payload (b : Block) : b.freed.payload = b.payload := rfl
@[simp] theorem Block.freed_stop (b : Block) : b.freed.stop = b.stop := rfl
@[simp] theorem Block.absorb_freed (p b : Block) : p.absorb b.freed = p.absorb b := rfl

/-- The block `b` was freed and merged; its old header still tells its size. -/
structure Merged (ok : Prop) (L : Set ℕ) (s s' : State) (bs bs' : List Block) (b : Block) :
    Prop where
  turns : Turns ok (addrs bs) (addrs bs) L s s' bs bs'
  size : getField s'.sys.mem .size b.addr = b.size

theorem Merged.of_turns {bs₁ : List Block} (e : bs = as ++ b :: cs) (e₁ : bs₁ = as ++ b.freed :: cs)
    (hw : Whole s bs) (hb : b.free = false) (h₁ : (markFree b.addr).run s = .ok ((), s₁))
    (hH : H ⊆ addrs bs) (hbH : b.addr ∉ H)
    (h₂ : Whole s₁ bs₁ → Turns ok (addrs bs₁) H L s₁ s₂ bs₁ bs') : Merged ok L s s₂ bs bs' b := by
  subst e e₁
  have hbm : b.addr ∈ addrs (as ++ b :: cs) := mem_addrs (by simp)
  have ht₁ := markFree_turns hw.shape hb h₁
  have hw₁ : Whole s₁ (as ++ b.freed :: cs) := ht₁.whole trivial hw.listed
  have ht₂ := h₂ hw₁
  have haddrs : addrs (as ++ b.freed :: cs) = addrs (as ++ b :: cs) := addrs_setFree true
  refine ⟨((ht₁.mono subset_rfl (Set.singleton_subset_iff.mpr hbm)).trans
    (ht₂.mono haddrs.subset hH)).imp fun h => ⟨trivial, h⟩, ?_⟩
  rw [ht₂.step.getField_of_not_mem hw.tiled.spread haddrs.subset hH (by decide) hbm hbH]
  exact hw₁.tiled.size_eq (b := b.freed) (by simp)

theorem insertOk_setFree (v : Bool) :
    insertOk (as ++ { d with free := v } :: cs) k ↔ insertOk (as ++ d :: cs) k := by
  simp only [insertOk, List.length_append, List.length_cons, List.mem_append, List.mem_cons]
  constructor
  · rintro (h | ⟨c, hc | rfl | hc, h⟩)
    · exact .inl h
    · exact .inr ⟨c, .inl hc, h⟩
    · exact .inr ⟨d, .inr (.inl rfl), h⟩
    · exact .inr ⟨c, .inr (.inr hc), h⟩
  · rintro (h | ⟨c, hc | rfl | hc, h⟩)
    · exact .inl h
    · exact .inr ⟨c, .inl hc, h⟩
    · exact .inr ⟨_, .inr (.inl rfl), h⟩
    · exact .inr ⟨c, .inr (.inr hc), h⟩

theorem Tiled.addr_ne_of_nodup (h : Tiled s (as ++ b :: cs)) (hd : d ∈ as ++ cs) :
    d.addr ≠ b.addr := Tiled.addr_ne [b] (b := b) h (by simpa using hd) (by simp)

/-- Merging two blocks while the block behind them, if there is one, is kept out of it. -/
theorem mergeWithout_upper {u : Unit} (hw : Whole s (as ++ b :: c :: cs))
    (has : NoAdjacentFree (as ++ [b])) (hcs : NoAdjacentFree cs) (hb : b.free = true)
    (hc : c.free = true) (h : (mergeWithout (firstAddr cs)).run s = .ok (u, s')) :
    Turns (insertOk (as ++ cs) (b.absorb c).size) (addrs (as ++ b :: c :: cs))
      (insert b.addr (addrs cs)) (addrs (as ++ b.absorb c :: cs)) s s' (as ++ b :: c :: cs)
      (as ++ b.absorb c :: cs) := by
  cases cs with
  | nil =>
      exact (merge_one hw has hb hc (.singleton _) h).mono subset_rfl (by simp)
  | cons d cs =>
      have e₁ : as ++ b :: c :: d :: cs = (as ++ [b, c]) ++ d :: cs := by simp
      have e₂ : as ++ b.absorb c :: d :: cs = (as ++ [b.absorb c]) ++ d :: cs := by simp
      have hsub : addrs (as ++ b.absorb c :: d :: cs) ⊆ addrs (as ++ b :: c :: d :: cs) :=
        addrs_absorb as b c (d :: cs)
      rw [e₁] at hw
      rw [e₁, e₂] at hsub ⊢
      have hd : d.addr ∈ insert b.addr (addrs (d :: cs)) := .inr (mem_addrs List.mem_cons_self)
      refine mergeWithout_turns hw (fun s₁ s₂ hw₁ h₁ => ?_) hd hsub subset_rfl h
      have hw₁ : Whole s₁ (as ++ b :: c :: { d with free := false } :: cs) := by simpa using hw₁
      have hcs' : NoAdjacentFree (b.absorb c :: { d with free := false } :: cs) :=
        noAdjacentFree_cons.mpr ⟨fun e he => .of_right (by
          obtain rfl : { d with free := false } = e := by simpa using he
          rfl), noAdjacentFree_cons.mpr ⟨fun _ _ => .of_left rfl, (noAdjacentFree_cons.mp hcs).2⟩⟩
      have ht := merge_one hw₁ has hb hc hcs' h₁
      have e₃ : as ++ b :: c :: { d with free := false } :: cs =
        (as ++ [b, c]) ++ { d with free := false } :: cs := by simp
      have e₄ : as ++ b.absorb c :: { d with free := false } :: cs =
        (as ++ [b.absorb c]) ++ { d with free := false } :: cs := by simp
      have hF : addrs ((as ++ [b, c]) ++ { d with free := false } :: cs) =
        addrs ((as ++ [b, c]) ++ d :: cs) := addrs_setFree false
      have hL : addrs ((as ++ [b.absorb c]) ++ { d with free := false } :: cs) =
        addrs ((as ++ [b.absorb c]) ++ d :: cs) := addrs_setFree false
      rw [e₃, e₄, hF, hL] at ht
      exact (ht.mono subset_rfl (Set.singleton_subset_iff.mpr (Set.mem_insert _ _))).imp
        (insertOk_setFree false).mpr

/-- Merging two blocks while the block in front of them, if there is one, is kept out of it. -/
theorem mergeWithout_lower {u : Unit} (hw : Whole s (as ++ b :: c :: cs))
    (has : NoAdjacentFree as) (hcs : NoAdjacentFree (b.absorb c :: cs)) (hb : b.free = true)
    (hc : c.free = true) (h : (mergeWithout (lastAddr as)).run s = .ok (u, s')) :
    Turns (insertOk (as ++ cs) (b.absorb c).size) (addrs (as ++ b :: c :: cs))
      (insert b.addr (addrs as)) (addrs (as ++ b.absorb c :: cs)) s s' (as ++ b :: c :: cs)
      (as ++ b.absorb c :: cs) := by
  obtain rfl | ⟨as, d, rfl⟩ : as = [] ∨ ∃ as' d, as = as' ++ [d] := by
    induction as using List.reverseRecOn with
    | nil => exact .inl rfl
    | append_singleton as d => exact .inr ⟨as, d, rfl⟩
  · exact (merge_one hw (.singleton _) hb hc hcs h).mono subset_rfl (by simp)
  · rw [lastAddr_concat] at h
    have hsub : addrs (as ++ [d] ++ b.absorb c :: cs) ⊆ addrs (as ++ [d] ++ b :: c :: cs) :=
      addrs_absorb (as ++ [d]) b c cs
    have e₁ : as ++ [d] ++ b :: c :: cs = as ++ d :: b :: c :: cs := by simp
    have e₂ : as ++ [d] ++ b.absorb c :: cs = as ++ d :: b.absorb c :: cs := by simp
    have e₃ : (as ++ [d]) ++ cs = as ++ d :: cs := by simp
    have hd : d.addr ∈ insert b.addr (addrs (as ++ [d])) := .inr (mem_addrs (by simp))
    rw [e₁] at hw
    rw [e₁, e₂] at hsub ⊢
    rw [e₃]
    refine mergeWithout_turns hw (fun s₁ s₂ hw₁ h₁ => ?_) hd hsub subset_rfl h
    have e₄ : as ++ { d with free := false } :: b :: c :: cs =
      (as ++ [{ d with free := false }]) ++ b :: c :: cs := by simp
    have hpa : NoAdjacentFree ((as ++ [{ d with free := false }]) ++ [b]) := by
      rw [List.append_assoc]
      exact noAdjacentFree_middle rfl has.left (.singleton _)
    rw [e₄] at hw₁
    have ht := merge_one hw₁ hpa hb hc hcs h₁
    have e₅ : (as ++ [{ d with free := false }]) ++ b.absorb c :: cs =
      as ++ { d with free := false } :: b.absorb c :: cs := by simp
    have e₆ : (as ++ [{ d with free := false }]) ++ cs = as ++ { d with free := false } :: cs := by simp
    have hF : addrs (as ++ { d with free := false } :: b :: c :: cs) =
      addrs (as ++ d :: b :: c :: cs) := addrs_setFree false
    have hL : addrs (as ++ { d with free := false } :: b.absorb c :: cs) =
      addrs (as ++ d :: b.absorb c :: cs) := addrs_setFree false
    rw [← e₄, e₅, e₆, hF, hL] at ht
    exact (ht.mono subset_rfl (Set.singleton_subset_iff.mpr (Set.mem_insert _ _))).imp
      (insertOk_setFree false).mpr

theorem NoAdjacentFree.concat_free (h : NoAdjacentFree (as ++ p :: b :: cs)) :
    NoAdjacentFree (as ++ [p]) ∧ NoAdjacentFree cs := by
  rw [List.append_cons] at h
  exact ⟨h.left, (noAdjacentFree_cons.mp h.right).2⟩

/-- The lower neighbour absorbs the block, while the upper one is kept out. -/
theorem lower_merged {u : Unit} (hw : Whole s (as ++ p :: b :: cs))
    (hn : NoAdjacentFree (as ++ p :: b :: cs)) (hp : p.free = true) (hb : b.free = false)
    (h₁ : (markFree b.addr).run s = .ok ((), s₁))
    (h₂ : (mergeWithout (firstAddr cs)).run s₁ = .ok (u, s₂)) :
    Merged (insertOk (as ++ cs) (p.absorb b).size) (addrs (as ++ p.absorb b :: cs)) s s₂
      (as ++ p :: b :: cs) (as ++ p.absorb b :: cs) b := by
  have ht : Tiled s ((as ++ [p]) ++ b :: cs) := by
    rw [← List.append_cons]
    exact hw.tiled
  refine .of_turns (H := insert p.addr (addrs cs)) (List.append_cons as p (b :: cs))
    (List.append_cons as p (b.freed :: cs)) hw hb h₁ ?_ ?_ fun hw₁ =>
      mergeWithout_upper hw₁ hn.concat_free.1 hn.concat_free.2 hp rfl h₂
  · rintro _ (rfl | ⟨d, hd, rfl⟩)
    · exact mem_addrs (by simp)
    · exact mem_addrs (by simp [hd])
  · rintro (h | ⟨d, hd, h⟩)
    · exact ht.addr_ne_of_nodup (d := p) (by simp) h.symm
    · exact ht.addr_ne_of_nodup (d := d) (by simp [hd]) h

/-- The block absorbs the upper neighbour, while the lower one is kept out. -/
theorem upper_merged {u : Unit} (hw : Whole s (as ++ b :: n :: cs))
    (hn : NoAdjacentFree (as ++ b :: n :: cs)) (hb : b.free = false) (hnf : n.free = true)
    (h₁ : (markFree b.addr).run s = .ok ((), s₁))
    (h₂ : (mergeWithout (lastAddr as)).run s₁ = .ok (u, s₂)) :
    Turns (insertOk (as ++ cs) (b.freed.absorb n).size) (addrs (as ++ b :: n :: cs))
      (addrs (as ++ b :: n :: cs)) (addrs (as ++ b.freed.absorb n :: cs)) s s₂
      (as ++ b :: n :: cs) (as ++ b.freed.absorb n :: cs) := by
  have ht₁ := markFree_turns hw.shape hb h₁
  have hw₁ : Whole s₁ (as ++ b.freed :: n :: cs) := ht₁.whole trivial hw.listed
  have hcs : NoAdjacentFree (n :: cs) := (noAdjacentFree_cons.mp hn.right).2
  have hcs' : NoAdjacentFree (b.freed.absorb n :: cs) := by
    refine noAdjacentFree_cons.mpr ⟨fun c hc => ?_, (noAdjacentFree_cons.mp hcs).2⟩
    exact fun h => (noAdjacentFree_cons.mp hcs).1 c hc ⟨hnf, h.2⟩
  have ht₂ := mergeWithout_lower hw₁ hn.left hcs' rfl hnf h₂
  have haddrs : addrs (as ++ b.freed :: n :: cs) = addrs (as ++ b :: n :: cs) := addrs_setFree true
  rw [haddrs] at ht₂
  refine ((ht₁.mono subset_rfl ?_).trans (ht₂.mono subset_rfl ?_)).imp fun h => ⟨trivial, h⟩
  · exact Set.singleton_subset_iff.mpr (mem_addrs (by simp))
  · rintro _ (rfl | ⟨d, hd, rfl⟩)
    · exact mem_addrs (b := b) (by simp)
    · exact mem_addrs (by simp [hd])

/-- The last block but one absorbs the last one. -/
theorem upperGrow_merged {u : Unit} (hw : Whole s (as ++ [b, n]))
    (hn : NoAdjacentFree (as ++ [b, n])) (hb : b.free = false) (hnf : n.free = true)
    (hl : ∀ a ∈ as.getLast?, a.free = false) (h₁ : (markFree b.addr).run s = .ok ((), s₁))
    (h₂ : merge.run s₁ = .ok (u, s₂)) :
    Turns (insertOk as (b.freed.absorb n).size) (addrs (as ++ [b, n])) (addrs (as ++ [b, n]))
      (addrs (as ++ [b.freed.absorb n])) s s₂ (as ++ [b, n]) (as ++ [b.freed.absorb n]) := by
  have ht₁ := markFree_turns hw.shape hb h₁
  have hw₁ : Whole s₁ (as ++ b.freed :: n :: []) := ht₁.whole trivial hw.listed
  have hpa : NoAdjacentFree (as ++ [b.freed]) :=
    noAdjacentFree_append.mpr ⟨hn.left, .singleton _, fun a ha _ _ => .of_left (hl a ha)⟩
  have ht₂ := merge_one hw₁ hpa rfl hnf (.singleton _) h₂
  have haddrs : addrs (as ++ b.freed :: [n]) = addrs (as ++ b :: [n]) := addrs_setFree true
  have hb' : {b.addr} ⊆ addrs (as ++ [b, n]) := Set.singleton_subset_iff.mpr (mem_addrs (by simp))
  rw [haddrs, List.append_nil] at ht₂
  exact ((ht₁.mono subset_rfl hb').trans (ht₂.mono subset_rfl hb')).imp fun h => ⟨trivial, h⟩

/-! ### Outcomes in sequence -/

namespace Outcome

theorem refl (hl : Laid s bs) (hls : Listed s bs) (hbase : s.sys.base ≤ s.heap.firsthead) :
    Outcome True s s bs bs :=
  ⟨hl, .refl hl.tiled.brk_le, hbase, fun c hc => by rwa [sub_self, add_zero], fun _ => hls⟩

/-- A store into the payload of a block. -/
theorem setPayload (h : Outcome ok s s' bs bs') (hc : c ∈ bs') (hp : m.page = s'.sys.mem.page)
    (hm : ∀ y, y < c.payload ∨ c.stop ≤ y → m.byte y = s'.sys.mem.byte y) :
    Outcome ok s (s'.setMem m) bs bs' := by
  have ht := h.laid.tiled
  have htile := ht.tiles (List.ne_nil_of_mem hc)
  have hhead : ∀ q ∈ addrs bs', ∀ y, q ≤ y → y < q + 40 → m.byte y = s'.sys.mem.byte y := by
    intro q hq y h₁ h₂
    have := htile.header_apart hc hq
    exact hm y (by omega)
  have hlinks : SameLinks (addrs bs') s' (s'.setMem m) :=
    .of_byte ht.spread rfl fun q hq y h₁ h₂ => hhead q hq y (by omega) h₂
  have hbnd := ht.bounds hc
  have hbase := h.base
  have hg : Grown s.sys.base s' (s'.setMem m) := by
    refine .of_brk rfl rfl rfl rfl ht.brk_le hp fun y hy => hm y ?_
    unfold Block.payload
    omega
  refine ⟨⟨⟨ht.first, ht.pos, ht.tiles, fun d hd => ?_, ht.brk_le, ?_⟩, h.laid.wilderness⟩,
    h.grown.trans hg, h.base, h.counts, fun hok => (h.listed hok).sameLinks hlinks subset_rfl⟩
  · exact (blockAt_congr fun y h₁ h₂ => hhead _ (mem_addrs hd) y h₁ (by omega)).trans
      (ht.headers d hd)
  · rw [State.setMem_mem, hp]
    exact ht.null

/-- The wilderness grows in the end. -/
theorem stretch (h : Outcome ok s s' bs (as ++ [b])) (hst : Stretched L s' s₁ x as b c)
    (hx : System.Extended s'.sys x k)
    (hL : ∀ q ∈ L, s'.heap.firsthead ≤ q ∧ q + 40 ≤ s'.sys.brk)
    (hc : CountStep s'.heap s₁.heap
      (Malloc3.counts (as ++ [c]) - Malloc3.counts (as ++ [b]))) :
    Outcome (ok ∧ insertOk as c.size) s s₁ bs (as ++ [c]) := by
  have hb : ∀ q ∈ ({b.addr} : Set ℕ), s'.heap.firsthead ≤ q ∧ q + 40 ≤ s'.sys.brk := fun q hq =>
    h.laid.tiled.header_bounds (Set.mem_singleton_iff.mp hq ▸ mem_addrs (by simp))
  have hfirst : s₁.heap.firsthead = s'.heap.firsthead := hst.step.firsthead
  exact ⟨hst.laid, h.grown.trans ((hst.step.grown hx hL hb).mono h.base), by
    rw [hfirst]; exact h.base, (h.counts.trans hc).of_eq (by rw [add_comm, sub_add_sub_cancel]),
    fun hok => hst.listed hok.2 (h.listed hok.1)⟩

end Outcome

/-! ### The paths -/

/-- What a path of `srealloc` does for the block `b`: it hands out `g.1` and leaves the blocks
`g.2`.  The payload has moved if `keep`. -/
structure Resized (ok keep : Prop) (s s' : State) (bs : List Block) (b : Block) (size r : ℕ)
    (g : Block × List Block) : Prop where
  payload : r = g.1.payload
  outcome : Outcome ok s s' bs g.2
  data : keep → ∀ i, i < min b.size size →
    s'.sys.mem.byte (g.1.payload + i) = s.sys.mem.byte (b.payload + i)

theorem add64_payload (ht : Tiled s bs) (hb : b ∈ bs) : add64 b.addr sizeofMetadata = b.payload := by
  have := ht.stop_le hb
  rw [add64_eq (by simp only [sizeofMetadata]; omega), Block.payload]

/-- The wilderness grows from `b.size` to `size` bytes once `sbrk` has granted the rest. -/
theorem sbrk_needed (hl : Laid s (as ++ [b])) (hlt : b.size < size) (hs : size ≤ sizeLimit) :
    sub64 size (getField s.sys.mem .size s.heap.wilderness) = size - b.size ∧
      ((s.sys.sbrk (size - b.size)).1 = failed ∧
          System.Refused s.sys (s.sys.sbrk (size - b.size)).2 ∨
        (s.sys.sbrk (size - b.size)).1 ≠ failed ∧
          System.Extended s.sys (s.sys.sbrk (size - b.size)).2 (size - b.size)) := by
  simp only [sizeLimit] at hs
  have hwild : s.heap.wilderness = b.addr := hl.wilderness.trans (lastAddr_concat as b)
  rw [hwild, hl.tiled.size_eq (by simp), sub64_eq hlt.le (by omega)]
  obtain h | ⟨-, h⟩ := System.sbrk_cases s.sys (n := size - b.size) (by omega) hl.tiled.brk_le
  · exact ⟨rfl, .inl h⟩
  · exact ⟨rfl, .inr h⟩

theorem reallocGrow_cases (h : (reallocGrow size).run s = .ok (r, s')) :
    let needed := sub64 size (getField s.sys.mem .size s.heap.wilderness)
    (s.sys.sbrk needed).1 = failed ∧ r = 0 ∧ s' = { s with sys := (s.sys.sbrk needed).2 } ∨
      (s.sys.sbrk needed).1 ≠ failed ∧ r = add64 s.heap.wilderness sizeofMetadata ∧
        (growWilderness needed).run { s with sys := (s.sys.sbrk needed).2 } = .ok ((), s') := by
  simp only [reallocGrow, wildernessNeeds, run_bind_eq_ok, run_ite_eq_ok, getHeap_eq_ok, get_eq_ok,
    sbrk_eq_ok, pure_eq_ok] at h
  obtain ⟨_, _, ⟨_, _, ⟨rfl, rfl⟩, _, _, ⟨-, rfl, rfl⟩, rfl, rfl⟩, _, _, ⟨rfl, rfl⟩, h⟩ := h
  obtain ⟨hf, rfl, rfl⟩ | ⟨hf, _, _, ⟨rfl, rfl⟩, _, _, h, rfl, rfl⟩ := h
  · exact .inl ⟨hf, rfl, rfl⟩
  · exact .inr ⟨hf, rfl, h⟩

/-- The payloads of the blocks that `growWilderness` finds stay as they are. -/
theorem Stretched.data (h : Stretched L s s' x as b c) (hx : System.Extended s.sys x k) {y : ℕ}
    (hL : ∀ q ∈ L, q + 40 ≤ y ∨ y < q) (hb : b.addr ∈ L) :
    s'.sys.mem.byte y = s.sys.mem.byte y := by
  refine (h.step.byte y (fun q hq => ?_) fun q hq => ?_).trans (congrFun hx.byte y)
  · have := hL q hq
    omega
  · have := hL q (Set.mem_singleton_iff.mp hq ▸ hb)
    omega

/-- **Case c.** -/
theorem reallocGrow_resized (hw : Whole s (as ++ [b])) (hbase : s.sys.base ≤ s.heap.firsthead)
    (hb : b.free = false) (hlt : b.size < size) (hs : size ≤ sizeLimit) (hr : r ≠ 0)
    (h : (reallocGrow size).run s = .ok (r, s')) :
    Resized (insertOk as size) True s s' (as ++ [b]) b size r
      (⟨b.addr, size, false⟩, as ++ [⟨b.addr, size, false⟩]) := by
  have hbm : b ∈ as ++ [b] := by simp
  have hwild : s.heap.wilderness = b.addr := hw.wilderness.trans (lastAddr_concat as b)
  obtain ⟨hneed, hsbrk⟩ := sbrk_needed hw.shape.laid hlt hs
  obtain ⟨-, hr₀, -⟩ | ⟨hf, hrv, h⟩ := reallocGrow_cases h
  · exact absurd hr₀ hr
  rw [hneed] at hf h
  obtain ⟨hf', -⟩ | ⟨-, hx⟩ := hsbrk
  · exact absurd hf' hf
  have hq : ({ b with size := b.size + (size - b.size) } : Block) = ⟨b.addr, size, false⟩ := by
    rw [hb, Nat.add_sub_cancel' hlt.le]
  have hst := growWilderness_stretched hw.shape hb hx h
  rw [hq] at hst
  refine ⟨?_, ((Outcome.refl hw.shape.laid hw.listed hbase).stretch hst.1 hx
    (fun q hq => hw.tiled.header_bounds hq) hst.2).imp fun h => ⟨trivial, h⟩, fun _ i hi => ?_⟩
  · rw [hrv, hwild, add64_payload hw.tiled hbm]
    rfl
  · refine hst.1.data hx (fun q hq => ?_) (mem_addrs hbm)
    have := (hw.tiled.tiles (by simp)).header_apart hbm hq
    simp only [Block.payload, Block.stop, sizeofMetadata] at this ⊢
    omega

theorem reallocUpperGrow_cases {old : ℕ} (h : (reallocUpperGrow old size).run s = .ok (r, s')) :
    ∃ s₁ s₂ s₃, (markFree old).run s = .ok ((), s₁) ∧ merge.run s₁ = .ok ((), s₂) ∧
      (markUsed old).run s₂ = .ok ((), s₃) ∧
      let needed := sub64 size (getField s₃.sys.mem .size s₃.heap.wilderness)
      ((s₃.sys.sbrk needed).1 = failed ∧ r = 0 ∧ s' = { s₃ with sys := (s₃.sys.sbrk needed).2 } ∨
        (s₃.sys.sbrk needed).1 ≠ failed ∧ r = add64 old sizeofMetadata ∧
          (growWilderness needed).run { s₃ with sys := (s₃.sys.sbrk needed).2 } = .ok ((), s')) := by
  simp only [reallocUpperGrow, wildernessNeeds, run_bind_eq_ok, run_ite_eq_ok, getHeap_eq_ok,
    get_eq_ok, sbrk_eq_ok, pure_eq_ok] at h
  obtain ⟨_, s₁, h₁, _, s₂, h₂, _, s₃, h₃, h⟩ := h
  obtain ⟨_, _, ⟨_, _, ⟨rfl, rfl⟩, _, _, ⟨-, rfl, rfl⟩, rfl, rfl⟩, _, _, ⟨rfl, rfl⟩, h⟩ := h
  refine ⟨s₁, s₂, s₃, h₁, h₂, h₃, ?_⟩
  obtain ⟨hf, rfl, rfl⟩ | ⟨hf, _, _, h, rfl, rfl⟩ := h
  · exact .inl ⟨hf, rfl, rfl⟩
  · exact .inr ⟨hf, rfl, h⟩

/-- The block `b` with its flag cleared. -/
def Block.inUse (b : Block) : Block := { b with free := false }

@[simp] theorem Block.inUse_addr (b : Block) : b.inUse.addr = b.addr := rfl
@[simp] theorem Block.inUse_size (b : Block) : b.inUse.size = b.size := rfl
@[simp] theorem Block.inUse_free (b : Block) : b.inUse.free = false := rfl

theorem Block.inUse_grow (b : Block) (h : b.size ≤ size) :
    ({ b.inUse with size := b.inUse.size + (size - b.inUse.size) } : Block) =
      ⟨b.addr, size, false⟩ := by
  rw [Block.inUse_size, Nat.add_sub_cancel' h]
  rfl

/-- The blocks that the wilderness takes in before it grows. -/
theorem upperGrow_turns (hw : Whole s (as ++ [b, n])) (hn : NoAdjacentFree (as ++ [b, n]))
    (hb : b.free = false) (hnf : n.free = true) (hl : ∀ a ∈ as.getLast?, a.free = false)
    (h₁ : (markFree b.addr).run s = .ok ((), s₁)) (h₂ : merge.run s₁ = .ok ((), s₂))
    (h₃ : (markUsed b.addr).run s₂ = .ok ((), s₃)) :
    Turns (insertOk as (b.freed.absorb n).size) (addrs (as ++ [b, n])) (addrs (as ++ [b, n]))
      (addrs (as ++ [b.freed.absorb n])) s s₃ (as ++ [b, n]) (as ++ [(b.freed.absorb n).inUse]) := by
  have ht := upperGrow_merged hw hn hb hnf hl h₁ h₂
  have hsub : addrs (as ++ [b.freed.absorb n]) ⊆ addrs (as ++ [b, n]) := by
    rw [addrs_append, addrs_append, addrs_singleton]
    refine Set.union_subset_union_right _ (Set.singleton_subset_iff.mpr ?_)
    exact mem_addrs (b := b) List.mem_cons_self
  have ht₃ := markUsed_turns ht.shape rfl h₃
  refine (ht.trans (ht₃.mono hsub ?_)).imp fun h => ⟨h, trivial⟩
  exact Set.singleton_subset_iff.mpr (mem_addrs (b := b) (by simp))

/-- A step that writes headers of `bs` or `bs'` keeps what lies between them. -/
theorem HeapStep.byte_of_apart (h : HeapStep F H s s') {y : ℕ} (hF : ∀ q ∈ F, q + 40 ≤ y ∨ y < q)
    (hH : ∀ q ∈ H, q + 40 ≤ y ∨ y < q) : s'.sys.mem.byte y = s.sys.mem.byte y :=
  h.byte y (fun q hq => by have := hF q hq; omega) fun q hq => by have := hH q hq; omega

theorem Tiles.byte_apart {e i : ℕ} {l : List Block} {a : ℕ} (h : Tiles a l e) (hb : b ∈ l)
    (hi : i < b.size) {q : ℕ} (hq : q ∈ addrs l) : q + 40 ≤ b.payload + i ∨ b.payload + i < q := by
  have := h.header_apart hb hq
  simp only [Block.payload, Block.stop, sizeofMetadata] at this ⊢
  omega

/-- **Case f.ii.** -/
theorem reallocUpperGrow_resized (hw : Whole s (as ++ [b, n])) (hn : NoAdjacentFree (as ++ [b, n]))
    (hbase : s.sys.base ≤ s.heap.firsthead) (hb : b.free = false) (hnf : n.free = true)
    (hl : ∀ a ∈ as.getLast?, a.free = false) (hlt : b.size + n.size + sizeofMetadata < size)
    (hs : size ≤ sizeLimit) (hr : r ≠ 0) (h : (reallocUpperGrow b.addr size).run s = .ok (r, s')) :
    Resized (insertOk as (b.freed.absorb n).size ∧ insertOk as size) True s s' (as ++ [b, n]) b size r
      (⟨b.addr, size, false⟩, as ++ [⟨b.addr, size, false⟩]) := by
  have hbm : b ∈ as ++ [b, n] := by simp
  obtain ⟨s₁, s₂, s₃, h₁, h₂, h₃, ⟨-, hr₀, -⟩ | ⟨hf, hrv, h⟩⟩ := reallocUpperGrow_cases h
  · exact absurd hr₀ hr
  have ht := upperGrow_turns hw hn hb hnf hl h₁ h₂ h₃
  have hsz : (b.freed.absorb n).inUse.size < size := by
    simp only [Block.inUse_size, Block.absorb, Block.freed_size]
    omega
  obtain ⟨hneed, hsbrk⟩ := sbrk_needed ht.shape.laid hsz hs
  rw [hneed] at hf h
  obtain ⟨hf', -⟩ | ⟨-, hx⟩ := hsbrk
  · exact absurd hf' hf
  have hst := growWilderness_stretched ht.shape rfl hx h
  have hq := (b.freed.absorb n).inUse_grow hsz.le
  rw [hq] at hst
  have htile := hw.tiled.tiles (by simp)
  have hL : ∀ q ∈ addrs (as ++ [b.freed.absorb n]), q ∈ addrs (as ++ [b, n]) := by
    rintro _ ⟨c, hc, rfl⟩
    obtain hc | hc := List.mem_append.mp hc
    · exact mem_addrs (by simp [hc])
    · rw [List.mem_singleton.mp hc]
      exact mem_addrs (b := b) (by simp)
  have ho := ht.outcome hw hbase fun q hq => hw.tiled.header_bounds (hq.elim id id)
  refine ⟨?_, ho.stretch hst.1 hx (fun q hq => ?_) hst.2, fun _ i hi => ?_⟩
  · rw [hrv, add64_payload hw.tiled hbm]
    rfl
  · rw [ht.step.firsthead, ht.step.brk]
    exact hw.tiled.header_bounds (hL q hq)
  · have hap : ∀ q ∈ addrs (as ++ [b, n]), q + 40 ≤ b.payload + i ∨ b.payload + i < q := fun q hq =>
      htile.byte_apart hbm (by omega) hq
    exact (hst.1.data hx (fun q hq => hap q (hL q hq))
      (mem_addrs (b := b.freed.absorb n) (by simp))).trans
      (ht.step.byte_of_apart hap hap)

theorem reallocUpper_cases {old prev : ℕ} (h : (reallocUpper old prev size).run s = .ok (r, s')) :
    r = add64 old sizeofMetadata ∧ ∃ s₁ s₂, (markFree old).run s = .ok ((), s₁) ∧
      (mergeWithout prev).run s₁ = .ok ((), s₂) ∧ (split old size).run s₂ = .ok ((), s') := by
  simp only [reallocUpper, run_bind_eq_ok, pure_eq_ok] at h
  obtain ⟨_, s₁, h₁, _, s₂, h₂, _, s₃, h₃, rfl, rfl⟩ := h
  exact ⟨rfl, s₁, s₂, h₁, h₂, h₃⟩

/-- **Case d.** -/
theorem reallocUpper_resized (hw : Whole s (as ++ b :: n :: cs))
    (hn : NoAdjacentFree (as ++ b :: n :: cs)) (hbase : s.sys.base ≤ s.heap.firsthead)
    (hb : b.free = false) (hnf : n.free = true) (hlt : b.size < size) (hs : size ≤ sizeLimit)
    (h : (reallocUpper b.addr (lastAddr as) size).run s = .ok (r, s')) :
    Resized (insertOk (as ++ cs) (b.freed.absorb n).size ∧
        splitOk (as ++ cs) (b.freed.absorb n) size) True s s' (as ++ b :: n :: cs) b size r
      ((b.freed.absorb n).taken size, as ++ (splitBlock (b.freed.absorb n) size ++ cs)) := by
  have hbm : b ∈ as ++ b :: n :: cs := by simp
  obtain ⟨rfl, s₁, s₂, h₁, h₂, h₃⟩ := reallocUpper_cases h
  have ht := upper_merged hw hn hb hnf h₁ h₂
  generalize hU : b.freed.absorb n = U at ht ⊢
  have hUa : U.addr = b.addr := by rw [← hU]; rfl
  have hUs : b.size < U.size := by
    rw [← hU]
    simp only [Block.absorb, Block.freed_size, sizeofMetadata]
    omega
  rw [← hUa] at h₃
  have ht₃ := split_turns ht.shape (.inr hs) (ht.shape.tiled.split_spread (.inr hs)) h₃
  rw [← addrs_split] at ht₃
  have hne := split_ne_nil as U size cs
  -- all headers are those of the blocks before and after
  have hsub : addrs (splitBlock U size) ⊆ addrs (as ++ (splitBlock U size ++ cs)) := by
    rw [addrs_split]
    exact Set.subset_union_right
  have hall : ∀ {T}, T ⊆ addrs (as ++ (splitBlock U size ++ cs)) →
      T ⊆ addrs (as ++ b :: n :: cs) ∪ addrs (as ++ (splitBlock U size ++ cs)) :=
    fun h => h.trans Set.subset_union_right
  have ht' := (ht.mono Set.subset_union_left Set.subset_union_left).trans
    (ht₃.mono (hall subset_rfl) (hall hsub))
  have hin := hw.tiled.header_bounds_or ht'.shape.tiled ht'.step.firsthead ht'.step.brk
  refine ⟨?_, ht'.outcome hw hbase fun q hq => hin q (hq.elim id id), fun _ i hi => ?_⟩
  · rw [add64_payload hw.tiled hbm, Block.taken_payload, Block.payload, Block.payload, hUa]
  · rw [Block.taken_payload, Block.payload, hUa, ← Block.payload]
    have hap : ∀ q ∈ addrs (as ++ b :: n :: cs) ∪ addrs (as ++ (splitBlock U size ++ cs)),
        q + 40 ≤ b.payload + i ∨ b.payload + i < q := by
      rintro q (hq | hq)
      · exact (hw.tiled.tiles (by simp)).byte_apart hbm (by omega) hq
      · have hUm := taken_mem as U size cs
        have hi' : i < (U.taken size).size := by
          unfold Block.taken
          split
          · show i < size
            omega
          · show i < U.size
            omega
        have := (ht₃.shape.tiled.tiles hne).byte_apart hUm hi' hq
        rwa [Block.taken_payload, Block.payload, hUa, ← Block.payload] at this
    exact ht'.step.byte_of_apart hap hap

theorem reallocLower_cases {old prev next oldp : ℕ}
    (h : (reallocLower old prev next oldp size).run s = .ok (r, s')) :
    r = add64 prev sizeofMetadata ∧ ∃ s₁ s₂ s₃ s₄, (markFree old).run s = .ok ((), s₁) ∧
      (mergeWithout next).run s₁ = .ok ((), s₂) ∧ (split prev size).run s₂ = .ok ((), s₃) ∧
      merge.run s₃ = .ok ((), s₄) ∧ s' = s₄.setMem (s₄.sys.mem.copy (add64 prev sizeofMetadata) oldp
        (getField s₄.sys.mem .size old)) := by
  simp only [reallocLower, run_bind_eq_ok, get_eq_ok, memmove_eq_ok, pure_eq_ok] at h
  obtain ⟨_, s₁, h₁, _, s₂, h₂, _, s₃, h₃, _, s₄, h₄, _, _, ⟨-, rfl, rfl⟩, _, _, ⟨-, rfl⟩, rfl, rfl⟩ := h
  exact ⟨rfl, s₁, s₂, s₃, s₄, h₁, h₂, h₃, h₄, rfl⟩

/-- The copy of `b.size` bytes to the payload of `q`. -/
theorem Outcome.copy (h : Outcome ok s s' bs bs') (hq : q ∈ bs') (hsz : b.size ≤ q.size) :
    Outcome ok s (s'.setMem (s'.sys.mem.copy q.payload b.payload b.size)) bs bs' := by
  refine h.setPayload hq rfl fun y hy => Memory.copy_byte_of_not_mem _ ?_
  simp only [Block.payload, Block.stop, sizeofMetadata] at hy ⊢
  omega

theorem copy_byte {m : Memory} {dst src len i : ℕ} (hi : i < len) :
    (m.copy dst src len).byte (dst + i) = m.byte (src + i) := by
  show (if _ then _ else _) = _
  rw [if_pos (by omega), Nat.add_sub_cancel_left]

/-- The header that `split` writes into the block `m` ends before `a` or starts behind `e`. -/
def SplitAvoids (m : Block) (size a e : ℕ) : Prop :=
  canSplit m.size size = true → m.addr + size + 80 ≤ a ∨ e ≤ m.addr + size + 40

instance (m : Block) (size a e : ℕ) : Decidable (SplitAvoids m size a e) := by
  unfold SplitAvoids; infer_instance

/-- The headers after a split lie apart from what they lay apart from before, if the new one
does. -/
theorem header_apart_of_avoids {P : Block} {a e : ℕ}
    (h : ∀ q ∈ addrs (as ++ P :: cs), q + 40 ≤ a ∨ e ≤ q) (hav : SplitAvoids P size a e) :
    ∀ q ∈ addrs (as ++ (splitBlock P size ++ cs)), q + 40 ≤ a ∨ e ≤ q := by
  intro q hq
  rw [addrs_split] at hq
  obtain hq | hq := hq
  · exact h q hq
  cases hc : canSplit P.size size with
  | false =>
      rw [splitBlock_of_not hc] at hq
      obtain ⟨c, hm, rfl⟩ := hq
      exact h _ ⟨P, by simp, by rw [List.mem_singleton.mp hm]⟩
  | true =>
      rw [splitBlock_of_canSplit hc, addrs_front_back] at hq
      obtain rfl | rfl := hq
      · exact h _ (mem_addrs (by simp))
      · have := hav hc
        simp only [Block.back, sizeofMetadata]
        omega

/-- The headers of the other blocks lie outside of a block. -/
theorem Tiled.header_outside (ht : Tiled s (as ++ b :: cs)) (hd : d ∈ as ++ cs) :
    d.addr + 40 ≤ b.addr ∨ b.stop ≤ d.addr := by
  have hm : d ∈ as ++ b :: cs := by
    obtain hd | hd := List.mem_append.mp hd <;> simp [hd]
  obtain rfl | h | h := (ht.tiles (by simp)).eq_or_apart hm (by simp : b ∈ as ++ b :: cs)
  · exact absurd rfl (ht.addr_ne_of_nodup hd)
  · simp only [Block.stop, sizeofMetadata] at h
    omega
  · exact .inr h

/-- **Case b.**  The block moves down into its lower neighbour. -/
theorem reallocLower_resized (hw : Whole s (as ++ p :: b :: cs))
    (hn : NoAdjacentFree (as ++ p :: b :: cs)) (hbase : s.sys.base ≤ s.heap.firsthead)
    (hp : p.free = true) (hb : b.free = false) (hlt : b.size < size) (hs : size ≤ sizeLimit)
    (hle : size ≤ (p.absorb b).size)
    (hav : SplitAvoids (p.absorb b) size (b.addr + 8) (b.addr + 16))
    (h : (reallocLower b.addr p.addr (firstAddr cs) b.payload size).run s = .ok (r, s')) :
    Resized (insertOk (as ++ cs) (p.absorb b).size ∧ splitOk (as ++ cs) (p.absorb b) size ∧
        mergeOk (as ++ (splitBlock (p.absorb b) size ++ cs)))
      (SplitAvoids (p.absorb b) size b.payload b.stop) s s' (as ++ p :: b :: cs) b size r
      ((p.absorb b).taken size, coalesce (as ++ (splitBlock (p.absorb b) size ++ cs))) := by
  have hpm : p ∈ as ++ p :: b :: cs := by simp
  have hbm : b ∈ as ++ p :: b :: cs := by simp
  have htile := hw.tiled.tiles (List.ne_nil_of_mem hbm)
  obtain ⟨hrv, s₁, s₂, s₃, s₄, h₁, h₂, h₃, h₄, rfl⟩ := reallocLower_cases h
  have hm := lower_merged hw hn hp hb h₁ h₂
  have hlow : ∀ q ∈ addrs (as ++ p.absorb b :: cs), q + 40 ≤ b.addr ∨ b.stop ≤ q := by
    have ht : Tiled s ((as ++ [p]) ++ b :: cs) := by
      rw [← List.append_cons]
      exact hw.tiled
    rintro _ ⟨d, hd, rfl⟩
    obtain hd | hd := List.mem_append.mp hd
    · exact ht.header_outside (by simp [hd])
    obtain rfl | hd := List.mem_cons.mp hd
    · exact ht.header_outside (d := p) (by simp)
    · exact ht.header_outside (by simp [hd])
  generalize hP : p.absorb b = P at hm hlow hle hav ⊢
  have hPa : P.addr = p.addr := by rw [← hP]; rfl
  rw [← hPa] at h₃
  have hsh := hm.turns.shape
  have ht₃ := split_turns hsh (.inr hs) (hsh.tiled.split_spread (.inr hs)) h₃
  rw [← addrs_split] at ht₃
  generalize hX : as ++ (splitBlock P size ++ cs) = X at ht₃ ⊢
  have hsub : addrs (splitBlock P size) ⊆ addrs X := by
    rw [← hX, addrs_split]
    exact Set.subset_union_right
  have ht₄ := merge_turns ht₃.shape h₄
  have ht₃₄ := (ht₃.mono subset_rfl hsub).trans (ht₄.mono subset_rfl (addrs_coalesce X))
  -- the old header still tells the size
  have hsize : getField s₄.sys.mem .size b.addr = b.size := by
    have hap : ∀ q ∈ addrs X, q + 40 ≤ b.addr + 8 ∨ b.addr + 16 ≤ q := by
      rw [← hX]
      refine header_apart_of_avoids (fun q hq => ?_) hav
      have := hlow q hq
      simp only [Block.stop, sizeofMetadata] at this
      omega
    refine (ht₃₄.step.getField_eq (fun q hq => ?_) fun q hq => ?_).trans hm.size
    · have := hap q hq
      simp only [Field.offset, Field.width]
      omega
    · have := hap q hq
      simp only [Field.offset, Field.width]
      omega
  have ht := (hm.turns.mono Set.subset_union_left Set.subset_union_left).trans
    (ht₃₄.mono (Set.subset_union_right (s := addrs (as ++ p :: b :: cs))) Set.subset_union_right)
  have hin := hw.tiled.header_bounds_or ht₃.shape.tiled (ht₃.step.firsthead.trans hm.turns.step.firsthead)
    (ht₃.step.brk.trans hm.turns.step.brk)
  have ho := ht.outcome hw hbase fun q hq => hin q (hq.elim id id)
  have htm : P.taken size ∈ coalesce X := by
    refine mem_coalesce (P.taken_free size) ?_
    rw [← hX]
    exact taken_mem as P size cs
  have hpay : (P.taken size).payload = p.payload := by
    rw [Block.taken_payload, Block.payload, hPa, Block.payload]
  have hdst : add64 p.addr sizeofMetadata = (P.taken size).payload :=
    (add64_payload hw.tiled hpm).trans hpay.symm
  rw [hdst, hsize]
  refine ⟨hrv.trans hdst, ho.copy htm (hlt.le.trans (Block.le_taken hle)), fun hk i hi => ?_⟩
  refine (copy_byte (by omega)).trans (ht.step.byte_of_apart ?_ ?_)
  all_goals
    rintro q (hq | hq)
    · exact htile.byte_apart hbm (by omega) hq
    · rw [← hX] at hq
      have := header_apart_of_avoids (fun q hq => by
        have := hlow q hq
        unfold Block.payload
        omega) hk q hq
      simp only [Block.payload, Block.stop, sizeofMetadata] at this ⊢
      omega

theorem reallocLowerGrow_cases {old prev oldp : ℕ}
    (h : (reallocLowerGrow old prev oldp size).run s = .ok (r, s')) :
    ∃ s₁ s₂ s₃, (markFree old).run s = .ok ((), s₁) ∧ merge.run s₁ = .ok ((), s₂) ∧
      (split prev size).run s₂ = .ok ((), s₃) ∧
      let needed := sub64 size (getField s₃.sys.mem .size s₃.heap.wilderness)
      let x := (s₃.sys.sbrk needed).2
      let m := x.mem.copy (add64 prev sizeofMetadata) oldp (getField x.mem .size old)
      ((s₃.sys.sbrk needed).1 = failed ∧ r = 0 ∧ s' = { s₃ with sys := x } ∨
        (s₃.sys.sbrk needed).1 ≠ failed ∧ r = add64 prev sizeofMetadata ∧
          (growWilderness needed).run { s₃ with sys := { x with mem := m } } = .ok ((), s')) := by
  simp only [reallocLowerGrow, wildernessNeeds, run_bind_eq_ok, run_ite_eq_ok, getHeap_eq_ok,
    get_eq_ok, sbrk_eq_ok, memmove_eq_ok, pure_eq_ok] at h
  obtain ⟨_, s₁, h₁, _, s₂, h₂, _, s₃, h₃, h⟩ := h
  obtain ⟨_, _, ⟨_, _, ⟨rfl, rfl⟩, _, _, ⟨-, rfl, rfl⟩, rfl, rfl⟩, _, _, ⟨rfl, rfl⟩, h⟩ := h
  refine ⟨s₁, s₂, s₃, h₁, h₂, h₃, ?_⟩
  obtain ⟨hf, rfl, rfl⟩ | ⟨hf, _, _, ⟨-, rfl, rfl⟩, _, _, ⟨-, rfl⟩, _, _, h, rfl, rfl⟩ := h
  · exact .inl ⟨hf, rfl, rfl⟩
  · exact .inr ⟨hf, rfl, h⟩

theorem canSplit_of_lt {k : ℕ} (hlt : k < size) (hs : size ≤ sizeLimit) : canSplit k size = false := by
  cases h : canSplit k size with
  | false => rfl
  | true =>
      have := canSplit_le (.inr hs) h
      omega

/-- The lower neighbour of the wilderness takes the wilderness in before it grows. -/
theorem lowerGrow_turns (hw : Whole s (as ++ [p, b])) (hn : NoAdjacentFree (as ++ [p, b]))
    (hp : p.free = true) (hb : b.free = false) (hlt : (p.absorb b).size < size)
    (hs : size ≤ sizeLimit) (h₁ : (markFree b.addr).run s = .ok ((), s₁))
    (h₂ : merge.run s₁ = .ok ((), s₂)) (h₃ : (split p.addr size).run s₂ = .ok ((), s₃)) :
    Merged (insertOk as (p.absorb b).size) (addrs (as ++ [(p.absorb b).inUse])) s s₃ (as ++ [p, b])
      (as ++ [(p.absorb b).inUse]) b := by
  have hm := lower_merged hw hn hp hb h₁ h₂
  generalize hP : p.absorb b = P at hm hlt ⊢
  have hPa : P.addr = p.addr := by rw [← hP]; rfl
  rw [← hPa] at h₃
  have hsh := hm.turns.shape
  have ht₃ := split_turns hsh (.inr hs) (hsh.tiled.split_spread (.inr hs)) h₃
  have hc := canSplit_of_lt hlt hs
  have hsp : splitBlock P size = [P.inUse] := splitBlock_of_not hc
  have hok : splitOk (as ++ []) P size := fun h => by
    rw [hc] at h
    cases h
  have hL : addrs (as ++ [P]) ∪ addrs [P.inUse] = addrs (as ++ [P.inUse]) := by
    rw [addrs_append, addrs_append, addrs_singleton, addrs_singleton, Block.inUse_addr,
      Set.union_assoc, Set.union_self]
  have hPin : addrs [P.inUse] = {p.addr} := by rw [addrs_singleton, Block.inUse_addr, hPa]
  have hsub : addrs (as ++ [P.inUse]) ⊆ addrs (as ++ [p, b]) := by
    rw [addrs_append, hPin, addrs_append]
    exact Set.union_subset_union_right _ (Set.singleton_subset_iff.mpr (mem_addrs (by simp)))
  rw [hsp, hL, List.singleton_append] at ht₃
  have hp' : addrs [P.inUse] ⊆ addrs (as ++ [p, b]) := by
    rw [hPin]
    exact Set.singleton_subset_iff.mpr (mem_addrs (by simp))
  have hbp : b.addr ∉ addrs [P.inUse] := by
    rw [hPin]
    have ht : Tiled s ((as ++ [p]) ++ b :: []) := by simpa using hw.tiled
    exact fun h => ht.addr_ne_of_nodup (d := p) (by simp) (Set.mem_singleton_iff.mp h).symm
  refine ⟨(hm.turns.trans (ht₃.mono hsub hp')).imp fun h => ⟨by simpa using h, hok⟩, ?_⟩
  rw [ht₃.step.getField_of_not_mem hw.tiled.spread hsub hp' (by decide) (mem_addrs (by simp)) hbp]
  exact hm.size

theorem Extended.copy {y z : System} {n d a l : ℕ} (h : System.Extended y z n) :
    System.Extended { y with mem := y.mem.copy d a l } { z with mem := z.mem.copy d a l } n where
  brk := h.brk
  base := h.base
  le := h.le
  byte := by
    funext i
    show (if _ then _ else _) = if _ then _ else _
    rw [h.byte]
  page := h.page
  fresh := h.fresh

/-- A store that leaves the headers of `L` alone. -/
theorem Shape.setMem (h : Shape L s bs) (hp : m.page = s.sys.mem.page)
    (hm : ∀ q ∈ L, ∀ y, q ≤ y → y < q + 40 → m.byte y = s.sys.mem.byte y) :
    Shape L (s.setMem m) bs := by
  have hlinks : SameLinks L s (s.setMem m) :=
    .of_byte h.spread rfl fun q hq y h₁ h₂ => hm q hq y (by omega) h₂
  refine ⟨h.spread, h.sub, hlinks.closed h.closed, ⟨h.tiled.first, h.tiled.pos, h.tiled.tiles,
    fun d hd => ?_, h.tiled.brk_le, ?_⟩, h.wilderness⟩
  · exact (blockAt_congr fun y h₁ h₂ => hm _ (h.sub (mem_addrs hd)) y h₁ (by omega)).trans
      (h.tiled.headers d hd)
  · rw [State.setMem_mem, hp]
    exact h.tiled.null

/-- **Case b, if the block is the wilderness.** -/
theorem reallocLowerGrow_resized (hw : Whole s (as ++ [p, b])) (hn : NoAdjacentFree (as ++ [p, b]))
    (hbase : s.sys.base ≤ s.heap.firsthead) (hp : p.free = true) (hb : b.free = false)
    (hlt : (p.absorb b).size < size) (hs : size ≤ sizeLimit) (hr : r ≠ 0)
    (h : (reallocLowerGrow b.addr p.addr b.payload size).run s = .ok (r, s')) :
    Resized (insertOk as (p.absorb b).size ∧ insertOk as size) True s s' (as ++ [p, b]) b size r
      (⟨p.addr, size, false⟩, as ++ [⟨p.addr, size, false⟩]) := by
  have hpm : p ∈ as ++ [p, b] := by simp
  have hbm : b ∈ as ++ [p, b] := by simp
  have htile := hw.tiled.tiles (List.ne_nil_of_mem hbm)
  obtain ⟨s₁, s₂, s₃, h₁, h₂, h₃, ⟨-, hr₀, -⟩ | ⟨hf, hrv, h⟩⟩ := reallocLowerGrow_cases h
  · exact absurd hr₀ hr
  have hm := lowerGrow_turns hw hn hp hb hlt hs h₁ h₂ h₃
  have hsz : b.size ≤ (p.absorb b).size := by
    simp only [Block.absorb]
    omega
  generalize hP : p.absorb b = P at hm hlt hsz
  have hPa : P.addr = p.addr := by rw [← hP]; rfl
  have hsh := hm.turns.shape
  have hPm : P.inUse ∈ as ++ [P.inUse] := by simp
  obtain ⟨hneed, hsbrk⟩ := sbrk_needed hsh.laid (b := P.inUse) hlt hs
  rw [hneed] at hf h
  obtain ⟨hf', -⟩ | ⟨-, hx⟩ := hsbrk
  · exact absurd hf' hf
  generalize (s₃.sys.sbrk (size - P.inUse.size)).2 = x at hx h
  -- `sbrk` before the copy is `sbrk` after it
  have hsize : getField x.mem .size b.addr = b.size :=
    (getField_congr fun y _ _ => congrFun hx.byte y).trans hm.size
  have hpay : P.inUse.payload = p.payload := by rw [Block.payload, Block.inUse_addr, hPa, Block.payload]
  have hdst : add64 p.addr sizeofMetadata = P.inUse.payload :=
    (add64_payload hw.tiled hpm).trans hpay.symm
  rw [hdst, hsize] at h
  have hx' := Extended.copy (d := P.inUse.payload) (a := b.payload) (l := b.size) hx
  have hin := hw.tiled.header_bounds_or hsh.tiled hm.turns.step.firsthead hm.turns.step.brk
  have ho := (hm.turns.outcome hw hbase fun q hq => hin q (.inl (hq.elim id id))).copy hPm
    (b := b) hsz
  have htile' := hsh.tiled.tiles (by simp)
  have hsh' := hsh.setMem (m := s₃.sys.mem.copy P.inUse.payload b.payload b.size) rfl
    fun q hq y h₁ h₂ => Memory.copy_byte_of_not_mem _ (by
      have := htile'.header_apart hPm hq
      simp only [Block.payload, Block.stop, Block.inUse_size, sizeofMetadata] at this ⊢
      omega)
  have hst := growWilderness_stretched hsh' rfl hx' h
  have hq := P.inUse_grow hlt.le
  rw [hq, hPa] at hst
  refine ⟨?_, ho.stretch hst.1 hx' (fun q hq => ?_) hst.2, fun _ i hi => ?_⟩
  · rw [hrv, add64_payload hw.tiled hpm]
    rfl
  · exact hsh.tiled.header_bounds hq
  · refine (hst.1.data hx' (y := p.payload + i) (fun q hq => ?_) (mem_addrs hPm)).trans ?_
    · rw [← hpay]
      refine htile'.byte_apart hPm ?_ hq
      rw [Block.inUse_size]
      omega
    · rw [← hpay]
      refine (copy_byte (by omega)).trans (hm.turns.step.byte_of_apart ?_ ?_)
      all_goals exact fun q hq => htile.byte_apart hbm (by omega) hq

end OsProjects.Malloc3
