import OsProjects.VirtualMemory.Malloc3.Returns
import OsProjects.VirtualMemory.Malloc3.WellFormed

/-! # Ties in the size-ordered list

Blocks of one size are meant to be in the order of their addresses.  The loop of
`HeapListInsert` looks only at the last node of a group of equal sizes, so a new block that
lies below two or more of the group ends up between them.  On a sorted list the result is
sorted exactly if at most one block of the new block's size lies above it
(`heapListInsert_sorted_iff`). -/

namespace OsProjects.Malloc3

open Prog

variable {s s' : State} {order order' : List Block} {b c new : Block} {m : Memory}
  {sz : ℕ → ℕ} {x y : ℕ} {l k₁ k₂ : List ℕ}

/-! ### The order of sizes and addresses -/

/-- `b` is smaller than `c`, or has the same size and a lower address. -/
def Block.Before (b c : Block) : Prop := b.size < c.size ∨ b.size = c.size ∧ b.addr < c.addr

instance (b c : Block) : Decidable (b.Before c) := by
  unfold Block.Before; infer_instance

/-- The same order on addresses, for the sizes `sz`. -/
def Precedes (sz : ℕ → ℕ) (x y : ℕ) : Prop := sz x < sz y ∨ sz x = sz y ∧ x < y

theorem Precedes.le (h : Precedes sz x y) : sz x ≤ sz y := by
  obtain h | ⟨h, -⟩ := h
  · exact h.le
  · exact h.le

theorem Precedes.trans {z : ℕ} (h : Precedes sz x y) (h' : Precedes sz y z) : Precedes sz x z := by
  unfold Precedes at *
  omega

theorem pairwise_before_iff (hh : Headers m order) : order.Pairwise Block.Before ↔
    (order.map Block.addr).Pairwise (Precedes (getField m .size)) := by
  rw [List.pairwise_map]
  refine List.Pairwise.iff_of_mem fun {b c} hb hc => ?_
  unfold Block.Before Precedes
  rw [size_of_blockAt (hh b hb), size_of_blockAt (hh c hc)]

/-- No address occurs twice in a sorted list. -/
theorem nodup_of_precedes (h : l.Pairwise (Precedes sz)) : l.Nodup :=
  h.imp fun {x y} hxy => by
    rintro rfl
    unfold Precedes at hxy
    omega

/-! ### Where ties go -/

/-- At most one node of `l` has the size of `x` and a higher address. -/
def OneAbove (sz : ℕ → ℕ) (x : ℕ) (l : List ℕ) : Prop :=
  ∀ y ∈ l, ∀ z ∈ l, sz y = sz x → sz z = sz x → x < y → x < z → y = z

/-- What the insertion finds in a sorted list: the place where `x` belongs, or, if the last
node `y` that is no larger is a tie with a higher address, the place in front of `y`. -/
theorem insertGo_ties (hl : l.Pairwise (Precedes sz)) (hxl : x ∉ l) (hx : ∃ y ∈ l, sz y ≤ sz x) :
    (∃ k₁ k₂, insertGo sz x l = some (k₁ ++ x :: k₂) ∧ l = k₁ ++ k₂ ∧
        (∀ z ∈ k₁, Precedes sz z x) ∧ ∀ z ∈ k₂, sz x < sz z) ∨
      ∃ k₁ y k₂, insertGo sz x l = some (k₁ ++ x :: y :: k₂) ∧ l = k₁ ++ y :: k₂ ∧
        sz y = sz x ∧ x < y ∧ ∀ z ∈ k₂, sz x < sz z := by
  induction l with
  | nil => simp at hx
  | cons y l ih =>
      obtain ⟨hy, hl'⟩ := List.pairwise_cons.mp hl
      rw [List.mem_cons, not_or] at hxl
      obtain ⟨hxy, hxl'⟩ := hxl
      have hyx : sz y ≤ sz x := by
        obtain ⟨z, hz, hzx⟩ := hx
        obtain rfl | hz := List.mem_cons.mp hz
        · exact hzx
        · exact (hy z hz).le.trans hzx
      -- `y` is the last node that is no larger than `x`
      have hlast : insertGo sz x (y :: l) = some (place sz x y l) → (∀ z ∈ l, sz x < sz z) →
          (∃ k₁ k₂, insertGo sz x (y :: l) = some (k₁ ++ x :: k₂) ∧ y :: l = k₁ ++ k₂ ∧
            (∀ z ∈ k₁, Precedes sz z x) ∧ ∀ z ∈ k₂, sz x < sz z) ∨
          ∃ k₁ w k₂, insertGo sz x (y :: l) = some (k₁ ++ x :: w :: k₂) ∧ y :: l = k₁ ++ w :: k₂ ∧
            sz w = sz x ∧ x < w ∧ ∀ z ∈ k₂, sz x < sz z := by
        intro he hlarge
        by_cases hc : sz x = sz y ∧ ¬y < x
        · rw [place_before hc.1 hc.2] at he
          exact .inr ⟨[], y, l, he, rfl, hc.1.symm, by omega, hlarge⟩
        · have hlt : sz x = sz y → y < x := fun e => not_not.mp fun h => hc ⟨e, h⟩
          rw [place_behind hlt] at he
          refine .inl ⟨[y], l, he, rfl, ?_, hlarge⟩
          intro z hz
          rw [List.mem_singleton.mp hz]
          unfold Precedes
          omega
      cases l with
      | nil => exact hlast (by rw [insertGo, if_pos hyx]) (by simp)
      | cons z l =>
          by_cases hzx : sz x < sz z
          · refine hlast (by rw [insertGo, if_pos ⟨hyx, hzx⟩]) fun w hw => ?_
            obtain rfl | hw := List.mem_cons.mp hw
            · exact hzx
            · exact hzx.trans_le ((List.pairwise_cons.mp hl').1 w hw).le
          · have hzx' : sz z ≤ sz x := Nat.le_of_not_lt hzx
            have hgo : insertGo sz x (y :: z :: l) = (insertGo sz x (z :: l)).map (y :: ·) := by
              rw [insertGo, if_neg fun h => hzx h.2]
            rw [hgo]
            obtain ⟨k₁, k₂, h₁, h₂, h₃, h₄⟩ | ⟨k₁, w, k₂, h₁, h₂, h₃⟩ :=
              ih hl' hxl' ⟨z, by simp, hzx'⟩
            · refine .inl ⟨y :: k₁, k₂, by rw [h₁]; rfl, by rw [h₂]; rfl, ?_, h₄⟩
              -- `z` is in front of `x` as well, since it is not behind `x`
              have hz : z ∈ k₁ := by
                have hz' : z ∈ k₁ ++ k₂ := h₂ ▸ List.mem_cons_self
                exact (List.mem_append.mp hz').resolve_right fun h => hzx (h₄ z h)
              intro v hv
              obtain rfl | hv := List.mem_cons.mp hv
              · exact (hy z List.mem_cons_self).trans (h₃ z hz)
              · exact h₃ v hv
            · exact .inr ⟨y :: k₁, w, k₂, by rw [h₁]; rfl, by rw [h₂]; rfl, h₃⟩

/-- The new node stands right behind a node `y` of its size that lies above it. -/
theorem pairwise_behind_tie_iff {y : ℕ} {k₁ k₂ : List ℕ}
    (hl : (k₁ ++ y :: k₂).Pairwise (Precedes sz)) (hxl : x ∉ k₁ ++ y :: k₂) (hy : sz y = sz x)
    (hxy : x < y) (hk₂ : ∀ z ∈ k₂, sz x < sz z) :
    (k₁ ++ x :: y :: k₂).Pairwise (Precedes sz) ↔ OneAbove sz x (k₁ ++ y :: k₂) := by
  constructor
  · -- the nodes in front of `x` lie below it, and those behind `y` are larger
    intro hs
    have hbelow := (List.pairwise_append.mp hs).2.2
    have hother : ∀ z ∈ k₁ ++ y :: k₂, sz z = sz x → x < z → z = y := by
      intro z hz hzx hlt
      obtain hz | hz := List.mem_append.mp hz
      · have := hbelow z hz x List.mem_cons_self
        unfold Precedes at this
        omega
      · obtain rfl | hz := List.mem_cons.mp hz
        · rfl
        · have := hk₂ z hz
          omega
    intro v hv w hw hvx hwx hlv hlw
    rw [hother v hv hvx hlv, hother w hw hwx hlw]
  · intro hone
    refine pairwise_insert hl (fun z hz => ?_) fun z hz => ?_
    · have hzy := (List.pairwise_append.mp hl).2.2 z hz y List.mem_cons_self
      by_contra hc
      have hne : z ≠ x := fun e => hxl (e ▸ List.mem_append_left _ hz)
      unfold Precedes at hzy hc
      have := hone z (List.mem_append_left _ hz) y (by simp) (by omega) hy (by omega) hxy
      omega
    · obtain rfl | hz := List.mem_cons.mp hz
      · exact .inr ⟨hy.symm, hxy⟩
      · exact .inl (hk₂ z hz)

/-- **The order after an insertion.** -/
theorem listInsert_sorted_iff (hl : l.Pairwise (Precedes sz)) (hxl : x ∉ l)
    (hx : l.length ≤ 1 ∨ ∃ y ∈ l, sz y ≤ sz x) :
    (listInsert sz x l).Pairwise (Precedes sz) ↔ OneAbove sz x l := by
  by_cases hy : ∃ y ∈ l, sz y ≤ sz x
  · have hne : l ≠ [] := by
      obtain ⟨y, hy, -⟩ := hy
      exact List.ne_nil_of_mem hy
    rw [listInsert, if_neg hne]
    obtain ⟨k₁, k₂, h₁, rfl, h₃, h₄⟩ | ⟨k₁, y, k₂, h₁, rfl, h₃, h₄, h₅⟩ := insertGo_ties hl hxl hy
    · have habove : ∀ y ∈ k₁ ++ k₂, sz y = sz x → ¬x < y := by
        intro y hy hyx hlt
        obtain hy | hy := List.mem_append.mp hy
        · have := h₃ y hy
          unfold Precedes at this
          omega
        · have := h₄ y hy
          omega
      rw [h₁, Option.getD_some]
      refine iff_of_true ?_ fun y hy _ _ hyx _ hlt _ => absurd hlt (habove y hy hyx)
      exact pairwise_insert hl h₃ fun z hz => .inl (h₄ z hz)
    · rw [h₁, Option.getD_some]
      exact pairwise_behind_tie_iff hl hxl h₃ h₄ h₅
  · -- at most one node, and it is larger
    have hlarge : ∀ y ∈ l, sz x < sz y := fun y hyl => Nat.lt_of_not_le fun h => hy ⟨y, hyl, h⟩
    have hlen := hx.resolve_right hy
    refine iff_of_true ?_ fun y hyl _ _ hyx => absurd hyx (hlarge y hyl).ne'
    cases l with
    | nil => simp [listInsert]
    | cons y l =>
        obtain rfl : l = [] := List.eq_nil_of_length_eq_zero (by simpa using hlen)
        have hlt : sz x < sz y := hlarge y (by simp)
        have e : listInsert sz x [y] = [x, y] := by simp [listInsert, insertGo, hlt.not_ge]
        rw [e]
        simpa using .inl hlt

/-! ### The insertion in memory -/

/-- The list from `Heap.head` has the blocks `order`, is linked backwards as well, and is
strictly sorted by size and address. -/
structure SortedList (s : State) (order : List Block) : Prop where
  blocks : ListBlocks s order
  back : BackLinks s.sys.mem 0 order
  sorted : order.Pairwise Block.Before

/-- What the headers say about a list of addresses. -/
theorem map_blockAt (hh : Headers m order) : (order.map Block.addr).map (blockAt m) = order := by
  rw [List.map_map]
  exact (List.map_congr_left fun b hb => hh b hb).trans (List.map_id _)

/-- The blocks of a list of headers of `order` after links were written. -/
theorem map_blockAt_linked (hS : Spread (addrs order))
    (hs : LinkStep (addrs order) s s') (hl : ∀ p ∈ l, p ∈ addrs order)
    (hL : Linked (nxt s') (prv s') 0 l) (hF : FirstPrev s' l) :
    (l.map (blockAt s.sys.mem)).map Block.addr = l ∧ ListBlocks s' (l.map (blockAt s.sys.mem)) ∧
      BackLinks s'.sys.mem 0 (l.map (blockAt s.sys.mem)) := by
  have hmap : (l.map (blockAt s.sys.mem)).map Block.addr = l := by
    rw [List.map_map]
    exact List.map_id l
  have hh' : Headers s'.sys.mem (l.map (blockAt s.sys.mem)) := by
    intro b hb
    obtain ⟨p, hp, rfl⟩ := List.mem_map.mp hb
    exact hs.blockAt_eq hS (hl p hp)
  exact ⟨hmap, order_iff.mpr ⟨hh', by rwa [hmap], by rwa [hmap]⟩⟩

/-- At most one block of the list has the size of `new` and a higher address. -/
def OneTieAbove (new : Block) (order : List Block) : Prop :=
  ∀ b ∈ order, ∀ c ∈ order, b.size = new.size → c.size = new.size →
    new.addr < b.addr → new.addr < c.addr → b = c

theorem oneAbove_iff (hh : Headers m (new :: order)) :
    OneAbove (getField m .size) new.addr (order.map Block.addr) ↔ OneTieAbove new order := by
  have hsz : ∀ b ∈ new :: order, getField m .size b.addr = b.size := fun b hb =>
    size_of_blockAt (hh b hb)
  unfold OneAbove OneTieAbove
  constructor
  · intro h b hb c hc hbn hcn hlb hlc
    have he := h b.addr (List.mem_map_of_mem hb) c.addr (List.mem_map_of_mem hc)
      (by rw [hsz b (by simp [hb]), hsz new (by simp), hbn])
      (by rw [hsz c (by simp [hc]), hsz new (by simp), hcn]) hlb hlc
    rw [← hh b (by simp [hb]), ← hh c (by simp [hc]), he]
  · intro h y hy z hz hyn hzn hly hlz
    obtain ⟨b, hb, rfl⟩ := List.mem_map.mp hy
    obtain ⟨c, hc, rfl⟩ := List.mem_map.mp hz
    rw [hsz b (by simp [hb]), hsz new (by simp)] at hyn
    rw [hsz c (by simp [hc]), hsz new (by simp)] at hzn
    rw [h b hb c hc hyn hzn hly hlz]

/-- The list and the new block before the insertion: the list is short or starts with a block
that is no larger than the new one, and all headers are mapped, apart and intact. -/
structure Insertable (s : State) (order : List Block) (new : Block) : Prop where
  list : SortedList s order
  fresh : new.addr ∉ order.map Block.addr
  header : blockAt s.sys.mem new.addr = new
  spread : Spread (addrs (new :: order))
  ready : Ready (addrs (new :: order)) s
  head : order.length ≤ 1 ∨ ∀ b ∈ order.head?, b.size ≤ new.size

/-- **Ties of `HeapListInsert`.**  A new block is inserted into a sorted list that is short or
starts with a block that is no larger.  The insertion returns, and it leaves a sorted list of the
old blocks and the new one if and only if at most one block of the same size lies above the new
one. -/
theorem heapListInsert_sorted_iff (h : Insertable s order new) :
    ∃ s', (heapListInsert new.addr).run s = .ok ((), s') ∧
      ((∃ order', SortedList s' order' ∧ order'.Perm (new :: order)) ↔ OneTieAbove new order) := by
  obtain ⟨hl, hnew, hat, hS, hR, hhead⟩ := h
  obtain ⟨hh, hL, hF⟩ := order_iff.mp ⟨hl.blocks, hl.back⟩
  have hh' : Headers s.sys.mem (new :: order) := by
    intro b hb
    obtain rfl | hb := List.mem_cons.mp hb
    · exact hat
    · exact hh b hb
  have hx : new.addr ∈ addrs (new :: order) := mem_addrs (by simp)
  have hmem : ∀ p ∈ order.map Block.addr, p ∈ addrs (new :: order) := by
    intro p hp
    obtain ⟨b, hb, rfl⟩ := List.mem_map.mp hp
    exact mem_addrs (by simp [hb])
  have hsort := (pairwise_before_iff hh).mp hl.sorted
  have hd := nodup_of_precedes hsort
  obtain ⟨⟨⟨⟩, s'⟩, hrun⟩ := heapListInsert_returns hS hR hx hmem hd hL
  obtain ⟨hs, hL', hF'⟩ := heapListInsert_linked hS hx hmem hd hnew hL hF hrun
  have hfits : (order.map Block.addr).length ≤ 1 ∨ ∃ y ∈ order.map Block.addr,
      getField s.sys.mem .size y ≤ getField s.sys.mem .size new.addr := by
    cases order with
    | nil => exact .inl (Nat.zero_le 1)
    | cons b l =>
        rw [List.length_map]
        refine hhead.imp id fun h => ⟨b.addr, by simp, ?_⟩
        rw [size_of_blockAt (hh' b (by simp)), size_of_blockAt hat]
        exact h b rfl
  have hweak := hsort.imp fun {p q} h => Precedes.le h
  obtain ⟨hperm, -⟩ := listInsert_eq hweak hfits
  have hiff := listInsert_sorted_iff hsort hnew hfits
  rw [oneAbove_iff hh'] at hiff
  rw [← hiff]
  generalize listInsert (getField s.sys.mem .size) new.addr (order.map Block.addr) = l at *
  -- the blocks of the new list are those that the headers describe
  have hp : (l.map (blockAt s.sys.mem)).Perm (new :: order) := by
    have := hperm.map (blockAt s.sys.mem)
    rwa [← List.map_cons, map_blockAt hh'] at this
  have hh₁ : Headers s.sys.mem (l.map (blockAt s.sys.mem)) := fun b hb => hh' b (hp.mem_iff.mp hb)
  have hsub : ∀ p ∈ l, p ∈ addrs (new :: order) := fun p hpl =>
    (List.mem_cons.mp (hperm.mem_iff.mp hpl)).elim (fun e => e ▸ hx) (hmem p)
  obtain ⟨hmap, hlist⟩ := map_blockAt_linked hS hs hsub hL' hF'
  refine ⟨s', hrun, ?_, fun h => ⟨l.map (blockAt s.sys.mem), ⟨hlist.1, hlist.2, ?_⟩, hp⟩⟩
  · rintro ⟨order', hl', -⟩
    obtain rfl := ChainWalk.unique hl'.blocks hlist.1
    have := (pairwise_before_iff hh₁).mp hl'.sorted
    rwa [hmap] at this
  · rw [pairwise_before_iff hh₁, hmap]
    exact h

/-! ### Two insertions -/

instance (new : Block) (order : List Block) : Decidable (OneTieAbove new order) := by
  unfold OneTieAbove; infer_instance

instance (s : State) (order : List Block) : Decidable (SortedList s order) :=
  decidable_of_iff (ListBlocks s order ∧ BackLinks s.sys.mem 0 order ∧
    order.Pairwise Block.Before) ⟨fun h => ⟨h.1, h.2.1, h.2.2⟩, fun h => ⟨h.blocks, h.back, h.sorted⟩⟩

instance (bs : List Block) : Decidable (Spread (addrs bs)) :=
  decidable_of_iff ((∀ b ∈ bs, b.addr ≠ 0 ∧ b.addr < 2 ^ 64) ∧
      ∀ b ∈ bs, ∀ c ∈ bs, b.addr = c.addr ∨ b.addr + sizeofMetadata ≤ c.addr ∨
        c.addr + sizeofMetadata ≤ b.addr) (by
    constructor
    · rintro ⟨h₁, h₂⟩
      refine ⟨?_, ?_, ?_⟩
      · rintro _ ⟨b, hb, rfl⟩
        exact (h₁ b hb).1
      · rintro _ ⟨b, hb, rfl⟩
        exact (h₁ b hb).2
      · rintro _ ⟨b, hb, rfl⟩ _ ⟨c, hc, rfl⟩
        exact h₂ b hb c hc
    · intro h
      exact ⟨fun b hb => ⟨h.pos _ (mem_addrs hb), h.lt _ (mem_addrs hb)⟩,
        fun b hb c hc => h.apart _ (mem_addrs hb) _ (mem_addrs hc)⟩)

instance (bs : List Block) (s : State) : Decidable (Ready (addrs bs) s) :=
  decidable_of_iff (∀ b ∈ bs, s.sys.mem.accessible b.addr sizeofMetadata = true ∧
      getField s.sys.mem .cookie b.addr = s.mainCookie.toNat) (by
    constructor
    · intro h
      refine ⟨?_, ?_⟩
      · rintro _ ⟨b, hb, rfl⟩
        exact (h b hb).1
      · rintro _ ⟨b, hb, rfl⟩
        exact (h b hb).2
    · intro h b hb
      exact ⟨h.accessible _ (mem_addrs hb), h.cookie _ (mem_addrs hb)⟩)

instance (s : State) (order : List Block) (new : Block) : Decidable (Insertable s order new) :=
  decidable_of_iff (SortedList s order ∧ new.addr ∉ order.map Block.addr ∧
    blockAt s.sys.mem new.addr = new ∧ Spread (addrs (new :: order)) ∧
    Ready (addrs (new :: order)) s ∧ (order.length ≤ 1 ∨ ∀ b ∈ order.head?, b.size ≤ new.size))
    ⟨fun ⟨h₁, h₂, h₃, h₄, h₅, h₆⟩ => ⟨h₁, h₂, h₃, h₄, h₅, h₆⟩,
      fun ⟨h₁, h₂, h₃, h₄, h₅, h₆⟩ => ⟨h₁, h₂, h₃, h₄, h₅, h₆⟩⟩

/-- Three blocks of 100 bytes, the one at `p` not in the list. -/
def threeWithout (p : ℕ) : M Unit := do
  let _ ← smalloc 100
  let _ ← smalloc 100
  let _ ← smalloc 100
  heapListRemove p

/-- The middle one of three equal blocks returns to the list. -/
theorem heapListInsert_sorted_middle :
    ∃ s s' order', (heapListInsert 65676).run s = .ok ((), s') ∧ SortedList s' order' ∧
      order'.Perm [⟨65676, 100, false⟩, ⟨65536, 100, false⟩, ⟨65816, 100, false⟩] := by
  obtain ⟨-, s, -, hs⟩ := exists_of_check (p := threeWithout 65676) (s := World.start.state)
    (f := fun _ s => decide (Insertable s [⟨65536, 100, false⟩, ⟨65816, 100, false⟩]
      ⟨65676, 100, false⟩)) (by decide +kernel)
  obtain ⟨s', hrun, hiff⟩ := heapListInsert_sorted_iff (of_decide_eq_true hs)
  obtain ⟨order', hl, hp⟩ := hiff.mpr (by decide)
  exact ⟨s, s', order', hrun, hl, hp⟩

/-- The lowest one of three equal blocks returns to the list and is put between the others. -/
theorem heapListInsert_unsorted :
    ∃ s s', Insertable s [⟨65676, 100, false⟩, ⟨65816, 100, false⟩] ⟨65536, 100, false⟩ ∧
      (heapListInsert 65536).run s = .ok ((), s') ∧
      ListBlocks s' [⟨65676, 100, false⟩, ⟨65536, 100, false⟩, ⟨65816, 100, false⟩] ∧
      ¬∃ order', SortedList s' order' := by
  obtain ⟨-, s, -, hs⟩ := exists_of_check (p := threeWithout 65536) (s := World.start.state)
    (f := fun _ s => decide (Insertable s [⟨65676, 100, false⟩, ⟨65816, 100, false⟩]
      ⟨65536, 100, false⟩) && (heapListInsert 65536).check s fun _ s' => decide
        (ListBlocks s' [⟨65676, 100, false⟩, ⟨65536, 100, false⟩, ⟨65816, 100, false⟩]))
    (by decide +kernel)
  obtain ⟨hins, ⟨⟩, s', hrun, hl⟩ := exists_of_and_check hs
  replace hl := of_decide_eq_true hl
  refine ⟨s, s', hins, hrun, hl, ?_⟩
  rintro ⟨order', hl'⟩
  obtain rfl := ChainWalk.unique hl'.blocks hl
  exact absurd hl'.sorted (by decide)

end OsProjects.Malloc3
