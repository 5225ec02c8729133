import OsProjects.VirtualMemory.Malloc3.Merge

/-! # The list that has all blocks

`Listed s bs` says that the size-ordered list has each of the blocks `bs` once and is well
linked.  `HeapListInsert` keeps this under one condition, `insertOk`: at most one other block
is in the list, or one of them is no larger than the new block.  Otherwise it loses blocks
(`listInsert`).  The results of this module are those of `Merge` for lists that lose nothing. -/

namespace OsProjects.Malloc3

open Prog

variable {S L H : Set ℕ} {s s' : State} {as bs cs : List Block} {b c : Block}

/-! ### Where the insertion finds a place -/

theorem place_eq (sz : ℕ → ℕ) {x y : ℕ} (h : sz y ≤ sz x) (l : List ℕ) :
    ∃ k₁ k₂, place sz x y l = k₁ ++ x :: k₂ ∧ y :: l = k₁ ++ k₂ ∧ (∀ z ∈ k₁, sz z ≤ sz x) ∧
      ∀ z ∈ k₂, z ∈ l ∨ sz z = sz x := by
  by_cases hc : sz x = sz y ∧ ¬y < x
  · refine ⟨[], y :: l, place_before hc.1 hc.2 l, rfl, by simp, fun z hz => ?_⟩
    rcases List.mem_cons.mp hz with rfl | hz
    · exact .inr hc.1.symm
    · exact .inl hz
  · refine ⟨[y], l, ?_, rfl, by simpa using h, fun z hz => .inl hz⟩
    exact place_behind (fun e => not_not.mp fun h' => hc ⟨e, h'⟩) l

/-- In a sorted list with a node that is no larger, the insertion finds the right place. -/
theorem insertGo_eq {sz : ℕ → ℕ} {x : ℕ} {l : List ℕ} (hl : l.Pairwise fun p q => sz p ≤ sz q)
    (hx : ∃ y ∈ l, sz y ≤ sz x) :
    ∃ k₁ k₂, insertGo sz x l = some (k₁ ++ x :: k₂) ∧ l = k₁ ++ k₂ ∧ (∀ z ∈ k₁, sz z ≤ sz x) ∧
      ∀ z ∈ k₂, sz x ≤ sz z := by
  induction l with
  | nil => simp at hx
  | cons y l ih =>
      obtain ⟨hy, hl'⟩ := List.pairwise_cons.mp hl
      have hyx : sz y ≤ sz x := by
        obtain ⟨z, hz, hzx⟩ := hx
        rcases List.mem_cons.mp hz with rfl | hz
        · exact hzx
        · exact (hy z hz).trans hzx
      cases l with
      | nil =>
          obtain ⟨k₁, k₂, h₁, h₂, h₃, h₄⟩ := place_eq sz hyx []
          refine ⟨k₁, k₂, by rw [insertGo, if_pos hyx, h₁], h₂, h₃, fun z hz => ?_⟩
          exact ((h₄ z hz).resolve_left (by simp)).ge
      | cons z l =>
          rw [insertGo]
          by_cases hzx : sz x < sz z
          · obtain ⟨k₁, k₂, h₁, h₂, h₃, h₄⟩ := place_eq sz hyx (z :: l)
            refine ⟨k₁, k₂, by rw [if_pos ⟨hyx, hzx⟩, h₁], h₂, h₃, fun w hw => ?_⟩
            rcases h₄ w hw with hw | hw
            · rcases List.mem_cons.mp hw with rfl | hw
              · exact hzx.le
              · exact hzx.le.trans ((List.pairwise_cons.mp hl').1 w hw)
            · exact hw.ge
          · obtain ⟨k₁, k₂, h₁, h₂, h₃, h₄⟩ := ih hl' ⟨z, by simp, Nat.le_of_not_lt hzx⟩
            refine ⟨y :: k₁, k₂, ?_, by rw [h₂]; rfl, ?_, h₄⟩
            · rw [if_neg fun h => hzx h.2, h₁]; rfl
            · simpa using ⟨hyx, h₃⟩

/-- A new node between two parts of an ordered list keeps the order. -/
theorem pairwise_insert {R : ℕ → ℕ → Prop} {x : ℕ} {k₁ k₂ : List ℕ} (h : (k₁ ++ k₂).Pairwise R)
    (h₁ : ∀ y ∈ k₁, R y x) (h₂ : ∀ y ∈ k₂, R x y) : (k₁ ++ x :: k₂).Pairwise R := by
  obtain ⟨hk₁, hk₂, h₁₂⟩ := List.pairwise_append.mp h
  refine List.pairwise_append.mpr ⟨hk₁, List.pairwise_cons.mpr ⟨h₂, hk₂⟩, fun p hp q hq => ?_⟩
  obtain rfl | hq := List.mem_cons.mp hq
  · exact h₁ p hp
  · exact h₁₂ p hp q hq

/-- **The insertion loses nothing** if there is at most one other node, or one that is no
larger. -/
theorem listInsert_eq {sz : ℕ → ℕ} {x : ℕ} {l : List ℕ} (hl : l.Pairwise fun p q => sz p ≤ sz q)
    (hx : l.length ≤ 1 ∨ ∃ y ∈ l, sz y ≤ sz x) :
    (listInsert sz x l).Perm (x :: l) ∧
      (listInsert sz x l).Pairwise fun p q => sz p ≤ sz q := by
  by_cases hy : ∃ y ∈ l, sz y ≤ sz x
  · obtain ⟨k₁, k₂, h₁, rfl, h₃, h₄⟩ := insertGo_eq hl hy
    have hne : k₁ ++ k₂ ≠ [] := by
      obtain ⟨y, hy, -⟩ := hy
      exact List.ne_nil_of_mem hy
    rw [listInsert, if_neg hne, h₁]
    exact ⟨List.perm_middle, pairwise_insert hl h₃ h₄⟩
  · -- at most one node, and it is larger
    have hlen := hx.resolve_right hy
    cases l with
    | nil => simp [listInsert]
    | cons y l =>
        obtain rfl : l = [] := List.eq_nil_of_length_eq_zero (by simpa using hlen)
        have hlt : ¬sz y ≤ sz x := fun h => hy ⟨y, by simp, h⟩
        have e : listInsert sz x [y] = [x, y] := by simp [listInsert, insertGo, hlt]
        rw [e]
        exact ⟨.refl _, by simpa using Nat.le_of_not_le hlt⟩

/-! ### Complete lists -/

/-- Inserting a block of `n` bytes next to the blocks `bs` loses none of them. -/
def insertOk (bs : List Block) (n : ℕ) : Prop := bs.length ≤ 1 ∨ ∃ c ∈ bs, c.size ≤ n

instance (bs : List Block) (n : ℕ) : Decidable (insertOk bs n) := by
  unfold insertOk; infer_instance

theorem insertOk_perm {n : ℕ} (h : bs.Perm cs) : insertOk bs n ↔ insertOk cs n := by
  simp only [insertOk, h.length_eq, h.mem_iff]

/-- The list has each of the blocks `bs` once, in the order of their sizes, and is well
linked. -/
def Listed (s : State) (bs : List Block) : Prop :=
  ∃ order : List Block, order.Perm bs ∧ (order.Pairwise fun b c => b.size ≤ c.size) ∧
    Linked (nxt s) (prv s) 0 (order.map Block.addr) ∧ FirstPrev s (order.map Block.addr)

namespace Listed

theorem perm (h : Listed s bs) (hp : bs.Perm cs) : Listed s cs := by
  obtain ⟨l, h₁, h₂⟩ := h
  exact ⟨l, h₁.trans hp, h₂⟩

theorem sameLinks (h : Listed s bs) (hs : SameLinks S s s') (hb : addrs bs ⊆ S) :
    Listed s' bs := by
  obtain ⟨l, hp, hsort, hL, hF⟩ := h
  have hl : ∀ p ∈ l.map Block.addr, p ∈ S := by
    intro p hm
    obtain ⟨b, hb', rfl⟩ := List.mem_map.mp hm
    exact hb (mem_addrs (hp.mem_iff.mp hb'))
  refine ⟨l, hp, hsort, hL.congr (fun p hm => hs.nx p ?_) fun p hm => hs.pv p (hl p hm), ?_⟩
  · exact (List.mem_cons.mp hm).imp id (hl p)
  · intro p hm
    rw [hs.pv p (hl p (List.mem_of_mem_head? hm))]
    exact hF p hm

/-- All links of a complete list stay among its blocks. -/
theorem closed (h : Listed s bs) (hd : (bs.map Block.addr).Nodup) (h₀ : 0 ∉ addrs bs) :
    Closed (addrs bs) s := by
  obtain ⟨l, hp, -, hL, hF⟩ := h
  have hmem : ∀ p, p ∈ l.map Block.addr ↔ p ∈ addrs bs := by
    intro p
    simp only [List.mem_map, hp.mem_iff, addrs, Set.mem_ofPred_eq]
  have hnd : (l.map Block.addr).Nodup := ((hp.map Block.addr).nodup_iff).mpr hd
  have hhead : ∀ l₂ : List ℕ, (∀ p ∈ l₂, p ∈ l.map Block.addr) → LinkIn (addrs bs) (l₂.headD 0) := by
    intro l₂ hl₂
    by_cases he : l₂.headD 0 = 0
    · exact .inl he
    · exact .inr ((hmem _).mp (hl₂ _ (headD_mem he)))
  refine ⟨fun p hp => ?_, fun p hp => ?_⟩
  · rcases hp with rfl | hp
    · have : nxt s 0 = (l.map Block.addr).headD 0 := by
        cases hl : l.map Block.addr with
        | nil => rw [hl] at hL; exact hL
        | cons a l' => rw [hl] at hL; exact hL.1
      rw [this]
      exact hhead _ fun _ => id
    · obtain ⟨l₁, l₂, hl⟩ := List.append_of_mem ((hmem p).mpr hp)
      rw [hl] at hL
      rw [hL.nx_eq]
      exact hhead _ fun q hq => by rw [hl]; simp [hq]
  · obtain ⟨l₁, l₂, hl⟩ := List.append_of_mem ((hmem p).mpr hp)
    cases l₁ with
    | nil => exact .inl (hF p (by rw [hl]; simp))
    | cons a l₁ =>
        rw [hl] at hL
        have hm : (a :: l₁).getLastD 0 ∈ a :: l₁ := by
          rw [List.getLastD_cons]; exact List.getLastD_mem_cons
        have hin : (a :: l₁).getLastD 0 ∈ addrs bs :=
          (hmem _).mp (by rw [hl]; exact List.mem_append_left _ hm)
        rw [hL.pv_eq fun e => h₀ (e ▸ hin)]
        exact .inr hin

/-- **`HeapListRemove`** takes the block out. -/
theorem remove (h : Listed s (as ++ b :: cs)) (hS : Spread S) (hsub : addrs (as ++ b :: cs) ⊆ S)
    (hd : ((as ++ b :: cs).map Block.addr).Nodup) (hnull : s.sys.mem.page 0 = false)
    (hr : (heapListRemove b.addr).run s = .ok ((), s')) :
    LinkStep S s s' ∧ Listed s' (as ++ cs) := by
  obtain ⟨l, hp, hsort, hL, hF⟩ := h
  obtain ⟨l₁, l₂, rfl⟩ := List.append_of_mem (hp.mem_iff.mpr (by simp : b ∈ as ++ b :: cs))
  have hl : ∀ p ∈ (l₁ ++ b :: l₂).map Block.addr, p ∈ S := by
    intro p hm
    obtain ⟨d, hd, rfl⟩ := List.mem_map.mp hm
    exact hsub (mem_addrs (hp.mem_iff.mp hd))
  have hnd := ((hp.map Block.addr).nodup_iff).mpr hd
  rw [List.map_append, List.map_cons] at hl hnd hL hF
  obtain ⟨hs, hL', hF'⟩ := heapListRemove_linked hS hnull hl hnd hL hF hr
  refine ⟨hs, l₁ ++ l₂, ?_, hsort.sublist (by simp), by rwa [List.map_append],
    by rwa [List.map_append]⟩
  exact (List.perm_cons b).mp ((List.perm_middle.symm.trans hp).trans List.perm_middle)

/-- **`HeapListInsert`** under `insertOk` loses nothing. -/
theorem insert (h : Listed s bs) (hS : Spread S) (hsub : addrs (b :: bs) ⊆ S)
    (hd : ((b :: bs).map Block.addr).Nodup) (hh : Headers s.sys.mem (b :: bs))
    (hok : insertOk bs b.size) (hr : (heapListInsert b.addr).run s = .ok ((), s')) :
    LinkStep S s s' ∧ Listed s' (b :: bs) := by
  obtain ⟨l, hp, hsort, hL, hF⟩ := h
  have hb : b.addr ∈ S := hsub (mem_addrs (by simp))
  have hmem : ∀ c ∈ l, c ∈ bs := fun c => hp.mem_iff.mp
  have hl : ∀ p ∈ l.map Block.addr, p ∈ S := by
    intro p hm
    obtain ⟨d, hd, rfl⟩ := List.mem_map.mp hm
    exact hsub (mem_addrs (by simp [hmem d hd]))
  have hnd : ((b :: l).map Block.addr).Nodup := (((hp.cons b).map Block.addr).nodup_iff).mpr hd
  rw [List.map_cons, List.nodup_cons] at hnd
  have hsz : ∀ c ∈ b :: bs, getField s.sys.mem .size c.addr = c.size := fun c hc =>
    size_of_blockAt (hh c hc)
  obtain ⟨hs, hL', hF'⟩ := heapListInsert_linked hS hb hl hnd.2 hnd.1 hL hF hr
  have hsort' : (l.map Block.addr).Pairwise fun p q =>
      getField s.sys.mem .size p ≤ getField s.sys.mem .size q := by
    rw [List.pairwise_map]
    refine hsort.imp_of_mem fun {c d} hc hd h => ?_
    rw [hsz c (by simp [hmem c hc]), hsz d (by simp [hmem d hd])]
    exact h
  have hok' : (l.map Block.addr).length ≤ 1 ∨ ∃ y ∈ l.map Block.addr,
      getField s.sys.mem .size y ≤ getField s.sys.mem .size b.addr := by
    rw [List.length_map]
    refine ((insertOk_perm hp).mpr hok).imp id ?_
    rintro ⟨c, hc, hle⟩
    refine ⟨c.addr, List.mem_map_of_mem hc, ?_⟩
    rw [hsz c (by simp [hmem c hc]), hsz b (by simp)]
    exact hle
  obtain ⟨hperm, hsorted⟩ := listInsert_eq hsort' hok'
  -- the blocks in the new order are those that the headers describe
  have hmap : ∀ k : List ℕ, (k.map (blockAt s.sys.mem)).map Block.addr = k := fun k => by
    rw [List.map_map]
    exact List.map_id k
  have hback : ((b :: l).map Block.addr).map (blockAt s.sys.mem) = b :: l := by
    rw [List.map_map]
    refine (List.map_congr_left fun c hc => ?_).trans (List.map_id _)
    exact hh c (by rcases List.mem_cons.mp hc with rfl | hc <;> simp [*])
  refine ⟨hs, (listInsert (getField s.sys.mem .size) b.addr (l.map Block.addr)).map
    (blockAt s.sys.mem), ?_, ?_, by rwa [hmap], by rwa [hmap]⟩
  · have := hperm.map (blockAt s.sys.mem)
    rw [← List.map_cons, hback] at this
    exact this.trans (hp.cons b)
  · rw [List.pairwise_map]
    exact hsorted

end Listed

/-! ### Heaps that have lost nothing -/

/-- The blocks `bs` tile the heap, the wilderness is the last of them, and the list is
complete. -/
structure Whole (s : State) (bs : List Block) : Prop where
  tiled : Tiled s bs
  wilderness : s.heap.wilderness = lastAddr bs
  listed : Listed s bs

theorem Whole.shape (h : Whole s bs) : Shape (addrs bs) s bs where
  spread := h.tiled.spread
  sub := subset_rfl
  closed := h.listed.closed h.tiled.nodup fun h₀ => h.tiled.spread.pos 0 h₀ rfl
  tiled := h.tiled
  wilderness := h.wilderness

/-- `absorb` on a complete list. -/
theorem absorb_listed (hS : Spread S) (hsub : addrs (as ++ b :: c :: cs) ⊆ S)
    (ht : Tiled s (as ++ b :: c :: cs)) (hl : Listed s (as ++ b :: c :: cs))
    (hok : insertOk (as ++ cs) (b.absorb c).size)
    (h : (absorb b.addr c.addr).run s = .ok ((), s')) : Listed s' (as ++ b.absorb c :: cs) := by
  obtain ⟨s₂, s₃, h₂, h₃, h₄⟩ := absorb_cases h
  have hb : b.addr ∈ S := hsub ⟨b, by simp, rfl⟩
  have hnd := ht.nodup
  have ht₁ := absorbed_tiled hS hsub ht
  have hsub₁ : addrs (as ++ b.absorb c :: cs) ⊆ S := (addrs_absorb as b c cs).trans hsub
  have hl₁ := hl.sameLinks (absorbed_sameLinks hS hb c.addr) hsub
  obtain ⟨k₂, hl₂⟩ := hl₁.remove hS hsub hnd ht₁.null h₂
  have hsub₂ : addrs (as ++ c :: cs) ⊆ S := (addrs_mono fun d hd => mem_addrs (by
    rcases List.mem_append.mp hd with hd | hd
    · simp [hd]
    · rcases List.mem_cons.mp hd with rfl | hd <;> simp [*])).trans hsub
  have hnd₂ : ((as ++ c :: cs).map Block.addr).Nodup := hnd.sublist (by simp)
  obtain ⟨k₃, hl₃⟩ := hl₂.remove hS hsub₂ hnd₂ (by rw [k₂.page]; exact ht₁.null) h₃
  have ht₃ := (ht₁.linkStep k₂ hS hsub₁).linkStep k₃ hS hsub₁
  have hp : (b.absorb c :: (as ++ cs)).Perm (as ++ b.absorb c :: cs) := List.perm_middle.symm
  obtain ⟨-, hl₄⟩ := hl₃.insert (b := b.absorb c) hS
    ((addrs_mono fun d hd => mem_addrs (hp.mem_iff.mp hd)).trans hsub₁)
    (((hp.map Block.addr).nodup_iff).mpr ht₁.nodup)
    (fun d hd => ht₃.headers d (hp.mem_iff.mp hd)) hok h₄
  exact hl₄.perm hp

/-- No insertion of `smerge` from `b` on loses a block. -/
def mergeFromOk (as : List Block) (b : Block) : List Block → Prop
  | [] => True
  | c :: cs =>
    if b.free && c.free then insertOk (as ++ cs) (b.absorb c).size ∧ mergeFromOk as (b.absorb c) cs
    else mergeFromOk (as ++ [b]) c cs

/-- No insertion of `merge` loses a block. -/
def mergeOk : List Block → Prop
  | [] => True
  | b :: cs => mergeFromOk [] b cs

instance decidableMergeFromOk : (as : List Block) → (b : Block) → (cs : List Block) →
    Decidable (mergeFromOk as b cs)
  | _, _, [] => .isTrue trivial
  | as, b, c :: cs =>
    have := decidableMergeFromOk as (b.absorb c) cs
    have := decidableMergeFromOk (as ++ [b]) c cs
    inferInstanceAs (Decidable (if b.free && c.free then _ else _))

instance : (bs : List Block) → Decidable (mergeOk bs)
  | [] => .isTrue trivial
  | b :: cs => decidableMergeFromOk [] b cs

theorem smerge_listed {fuel : ℕ} (hsh : Shape L s (as ++ b :: cs)) (hl : Listed s (as ++ b :: cs))
    (hok : mergeFromOk as b cs) (h : (smerge s.sys.brk fuel b.addr).run s = .ok ((), s')) :
    Listed s' (as ++ coalesceFrom b cs) := by
  induction fuel generalizing s as b cs with
  | zero => simp [smerge] at h
  | succ fuel ih =>
      obtain ⟨rfl, rfl⟩ | ⟨c, cs, rfl, hf, h⟩ | ⟨c, cs, s₁, s₂, rfl, hb, hc, h₁, hsys, hhead, hm, h⟩ :=
        smerge_round hsh h
      · exact hl
      · rw [mergeFromOk, if_neg (by simp [hf])] at hok
        have e : as ++ b :: c :: cs = (as ++ [b]) ++ c :: cs := by simp
        have e' : as ++ b :: coalesceFrom c cs = (as ++ [b]) ++ coalesceFrom c cs := by simp
        rw [coalesceFrom, if_neg (by simp [hf]), e']
        rw [e] at hsh hl
        exact ih hsh hl hok h
      · rw [mergeFromOk, if_pos (by simp [hb, hc])] at hok
        rw [coalesceFrom, if_pos (by simp [hb, hc])]
        have hl₁ := absorb_listed hsh.spread hsh.sub hsh.tiled hl hok.1 h₁
        have hl₂ : Listed s₂ (as ++ b.absorb c :: cs) :=
          hl₁.sameLinks (.of_byte hsh.spread hhead fun _ _ _ _ _ => by rw [hsys]) hm.shape.sub
        obtain ⟨rfl, rfl⟩ | h := h
        · exact hl₂
        · exact ih hm.shape hl₂ hok.2 h

theorem merge_listed (hsh : Shape L s bs) (hl : Listed s bs) (hok : mergeOk bs)
    (h : merge.run s = .ok ((), s')) : Listed s' (coalesce bs) := by
  cases bs with
  | nil =>
      obtain rfl := merge_nil hsh h
      exact hl
  | cons b cs =>
      have hl' : Listed s ([] ++ b :: cs) := hl
      exact smerge_listed hsh hl' hok (merge_cons hsh h)

/-- No insertion of `split` loses a block; `bs` are the other blocks. -/
def splitOk (bs : List Block) (b : Block) (n : ℕ) : Prop :=
  canSplit b.size n = true → insertOk bs n ∧ insertOk (b.front n :: bs) (b.back n).size

instance (bs : List Block) (b : Block) (n : ℕ) : Decidable (splitOk bs b n) := by
  unfold splitOk; infer_instance

/-- Only the flag of a block changes. -/
theorem Listed.setFree (v : Bool) (h : Listed s (as ++ b :: cs)) :
    Listed s (as ++ { b with free := v } :: cs) := by
  obtain ⟨l, hp, hsort, hL, hF⟩ := h
  obtain ⟨l₁, l₂, rfl⟩ := List.append_of_mem (hp.mem_iff.mpr (by simp : b ∈ as ++ b :: cs))
  refine ⟨l₁ ++ { b with free := v } :: l₂, ?_, ?_, by simpa using hL, by simpa using hF⟩
  · have := (List.perm_cons b).mp ((List.perm_middle.symm.trans hp).trans List.perm_middle)
    exact List.perm_middle.trans ((this.cons _).trans List.perm_middle.symm)
  · simpa [List.pairwise_append, List.pairwise_cons] using hsort

/-- **`split`** on a complete list. -/
theorem split_listed {n : ℕ} (hw : Whole s (as ++ b :: cs)) (hn : n ≤ b.size ∨ n ≤ sizeLimit)
    (hok : splitOk (as ++ cs) b n) (hS : Spread (addrs (as ++ b :: cs) ∪ addrs (splitBlock b n)))
    (h : (split b.addr n).run s = .ok ((), s')) : Listed s' (as ++ (splitBlock b n ++ cs)) := by
  have hb : b ∈ as ++ b :: cs := by simp
  have hcases := split_cases rfl h
  rw [hw.tiled.size_eq hb, hw.tiled.free_eq hb] at hcases
  obtain ⟨hc, s₂, s₃, h₂, h₃, h₄⟩ | ⟨hc, ⟨-, h⟩ | ⟨hf, rfl⟩⟩ := hcases
  · have hfit : n + sizeofMetadata ≤ b.size := by
      have := canSplit_le hn hc
      omega
    obtain ⟨hok₁, hok₂⟩ := hok hc
    rw [splitBlock_of_canSplit hc] at hS ⊢
    rw [back_addr_eq hw.tiled hfit] at h₂ h₄
    have hsub : addrs (as ++ b :: cs) ⊆ addrs (as ++ b :: cs) ∪ addrs [b.front n, b.back n] :=
      Set.subset_union_left
    generalize hU : addrs (as ++ b :: cs) ∪ addrs [b.front n, b.back n] = U at hS hsub
    have hpU : b.addr ∈ U := hsub (mem_addrs hb)
    have hqU : (b.back n).addr ∈ U := hU ▸ .inr ⟨b.back n, by simp, rfl⟩
    have ht := divided_tiled hw.tiled hS hsub hqU hfit
    have hsub' : addrs (as ++ ([b.front n, b.back n] ++ cs)) ⊆ U := by
      rw [← hU]
      rintro _ ⟨d, hd, rfl⟩
      rcases List.mem_append.mp hd with hd | hd
      · exact .inl ⟨d, by simp [hd], rfl⟩
      · rcases List.mem_append.mp hd with hd | hd
        · exact .inr ⟨d, hd, rfl⟩
        · exact .inl ⟨d, by simp [hd], rfl⟩
    have hlinks : SameLinks U s (divided s b.addr (b.back n).addr n) :=
      divided_sameLinks hS hpU hqU
    have hl := hw.listed.sameLinks hlinks hsub
    obtain ⟨k₂, hl₂⟩ := hl.remove hS hsub hw.tiled.nodup ht.null h₂
    have ht₂ := ht.linkStep k₂ hS hsub'
    -- the first block returns to the list, then the remainder joins it
    have hp₁ : (b.back n :: b.front n :: (as ++ cs)).Perm (as ++ ([b.front n, b.back n] ++ cs)) := by
      refine (List.Perm.swap _ _ _).trans ?_
      exact (List.perm_append_comm_assoc [b.front n, b.back n] as cs)
    have hnd : ((b.back n :: b.front n :: (as ++ cs)).map Block.addr).Nodup :=
      ((hp₁.map Block.addr).nodup_iff).mpr ht.nodup
    have hsub₁ : addrs (b.back n :: b.front n :: (as ++ cs)) ⊆ U :=
      (addrs_mono fun d hd => mem_addrs (hp₁.mem_iff.mp hd)).trans hsub'
    have hmem : ∀ d ∈ b.front n :: (as ++ cs), d ∈ b.back n :: b.front n :: (as ++ cs) :=
      fun d hd => List.mem_cons_of_mem _ hd
    obtain ⟨k₃, hl₃⟩ := hl₂.insert (b := b.front n) hS
      ((addrs_mono fun d hd => mem_addrs (hmem d hd)).trans hsub₁) (List.nodup_cons.mp hnd).2
      (fun d hd => ht₂.headers d (hp₁.mem_iff.mp (hmem d hd))) hok₁ h₃
    have ht₃ := ht₂.linkStep k₃ hS hsub'
    obtain ⟨-, hl₄⟩ := hl₃.insert hS hsub₁ hnd
      (fun d hd => ht₃.headers d (hp₁.mem_iff.mp hd)) hok₂ h₄
    exact hl₄.perm hp₁
  · rw [splitBlock_of_not hc]
    obtain ⟨s₁, h₁, rfl⟩ := markUsed_cases h
    obtain ⟨-, rfl⟩ := setFree_eq_ok.mp h₁
    have hS' := hw.tiled.spread
    have hlinks : SameLinks (addrs (as ++ b :: cs)) s
        (s.setMem (setField s.sys.mem .isFree b.addr false.toNat)) :=
      SameLinks.setField hS' (by decide) (mem_addrs hb) _
    exact (((hw.listed.sameLinks hlinks subset_rfl).sameLinks
      (SameLinks.mapHeap rfl) subset_rfl)).setFree false
  · rw [splitBlock_of_not hc]
    exact hw.listed.setFree false

/-! ### Steps between such heaps -/

/-- Nothing outside the heap changes, and no page does. -/
structure Quiet (s s' : State) : Prop where
  sys : s'.sys = { s.sys with mem := s'.sys.mem }
  page : s'.sys.mem.page = s.sys.mem.page
  cookie : s'.mainCookie = s.mainCookie
  firsthead : s'.heap.firsthead = s.heap.firsthead
  mmhead : s'.heap.mmhead = s.heap.mmhead
  byte : ∀ y, y < s.heap.firsthead ∨ s.sys.brk ≤ y → s'.sys.mem.byte y = s.sys.mem.byte y

theorem Quiet.brk (h : Quiet s s') : s'.sys.brk = s.sys.brk := by rw [h.sys]

theorem Tiled.header_bounds (h : Tiled s bs) {p : ℕ} (hp : p ∈ addrs bs) :
    s.heap.firsthead ≤ p ∧ p + 40 ≤ s.sys.brk := by
  obtain ⟨b, hb, rfl⟩ := hp
  have := h.bounds hb
  simp only [Block.stop, sizeofMetadata] at this
  omega

/-- A step that touches headers of the heap only. -/
theorem HeapStep.quiet (h : HeapStep L H s s')
    (hL : ∀ p ∈ L, s.heap.firsthead ≤ p ∧ p + 40 ≤ s.sys.brk)
    (hH : ∀ p ∈ H, s.heap.firsthead ≤ p ∧ p + 40 ≤ s.sys.brk) : Quiet s s' := by
  refine ⟨h.sys, h.page, h.cookie, h.firsthead, h.mmhead, fun y hy => h.byte y ?_ ?_⟩
  · intro p hp
    have := hL p hp
    omega
  · intro p hp
    have := hH p hp
    omega

/-- A step that turns the blocks `as` into `bs`, with a complete list and exact counters. -/
structure Moves (s s' : State) (as bs : List Block) : Prop where
  quiet : Quiet s s'
  whole : Whole s' bs
  counts : CountStep s.heap s'.heap (counts bs - counts as)

theorem Becomes.moves (h : Becomes L H s s' as bs) (hl : Listed s' bs)
    (hL : ∀ p ∈ L, s.heap.firsthead ≤ p ∧ p + 40 ≤ s.sys.brk)
    (hH : ∀ p ∈ H, s.heap.firsthead ≤ p ∧ p + 40 ≤ s.sys.brk) : Moves s s' as bs :=
  ⟨h.step.quiet hL hH, ⟨h.shape.tiled, h.shape.wilderness, hl⟩, h.counts⟩

theorem setFree_whole {v : Bool} (hw : Whole s (as ++ b :: cs))
    (h : (setFree b.addr v).run s = .ok ((), s')) : Whole s' (as ++ { b with free := v } :: cs) := by
  obtain ⟨-, hsh, -⟩ := setFree_shape hw.shape h
  refine ⟨hsh.tiled, hsh.wilderness, ?_⟩
  obtain ⟨-, rfl⟩ := setFree_eq_ok.mp h
  have hlinks : SameLinks (addrs (as ++ b :: cs)) s
      (s.setMem (setField s.sys.mem .isFree b.addr v.toNat)) :=
    SameLinks.setField hw.tiled.spread (by decide) (mem_addrs (by simp)) _
  exact (hw.listed.sameLinks hlinks subset_rfl).setFree v

/-- The list after a change of the counters. -/
theorem Listed.mapHeap (h : Listed s bs) {f : MemoryList → MemoryList}
    (hf : (f s.heap).head = s.heap.head) : Listed (s.mapHeap f) bs := by
  obtain ⟨l, hp, hsort, hL, hF⟩ := h
  refine ⟨l, hp, hsort, hL.congr (fun p _ => by simp [nxt, hf]) fun p _ => rfl, hF⟩

theorem markFree_moves (hw : Whole s (as ++ b :: cs)) (hb : b.free = false)
    (h : (markFree b.addr).run s = .ok ((), s')) :
    Moves s s' (as ++ b :: cs) (as ++ { b with free := true } :: cs) := by
  have hm := markFree_becomes hw.shape hb h
  obtain ⟨s₁, h₁, rfl⟩ := markFree_cases h
  refine hm.moves ((setFree_whole hw h₁).listed.mapHeap rfl) (fun p => hw.tiled.header_bounds) ?_
  rintro p rfl
  exact hw.tiled.header_bounds (mem_addrs (by simp))

theorem markUsed_moves (hw : Whole s (as ++ b :: cs)) (hb : b.free = true)
    (h : (markUsed b.addr).run s = .ok ((), s')) :
    Moves s s' (as ++ b :: cs) (as ++ { b with free := false } :: cs) := by
  have hm := markUsed_becomes hw.shape hb h
  obtain ⟨s₁, h₁, rfl⟩ := markUsed_cases h
  refine hm.moves ((setFree_whole hw h₁).listed.mapHeap rfl) (fun p => hw.tiled.header_bounds) ?_
  rintro p rfl
  exact hw.tiled.header_bounds (mem_addrs (by simp))

@[simp] theorem memmove_eq_ok {d p n : ℕ} {u : Unit} : (memmove d p n).run s = .ok (u, s') ↔
    (s.sys.mem.accessible p n = true ∧ s.sys.mem.accessible d n = true) ∧
      s.setMem (s.sys.mem.copy d p n) = s' := by
  show (if _ then _ else _) = _ ↔ _
  split <;> simp_all [Prod.ext_iff]

end OsProjects.Malloc3
