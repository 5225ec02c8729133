import OsProjects.VirtualMemory.Malloc3.Resize

/-! # Merging with both neighbours

Cases e and f.i of `srealloc` make one block of three.  The first of the two merges may drop the
upper neighbour from the list, and the second one then takes a block out of a chain that
`Heap.head` does not lead to.  No link that the list still has leads to that block afterwards
(`absorb_twice_closed`), so the stale header does no harm. -/

namespace OsProjects.Malloc3

open Prog

variable {F H L S : Set ℕ} {s s' s'' s₁ s₂ s₃ u : State} {as bs bs' bs'' cs : List Block}
  {b c n p : Block} {r size x q : ℕ} {l l₁ l₂ : List ℕ} {ok ok' : Prop}

/-! ### A list that was dropped -/

/-- A block that is smaller than all others finds no place. -/
theorem insertGo_none {sz : ℕ → ℕ} (h : ∀ y ∈ l, sz x < sz y) : insertGo sz x l = none := by
  induction l with
  | nil => rfl
  | cons y l ih =>
      have hy : ¬sz y ≤ sz x := Nat.not_le.mpr (h y List.mem_cons_self)
      cases l with
      | nil => exact if_neg hy
      | cons z l =>
          rw [insertGo, if_neg fun hc => hy hc.1, ih fun w hw => h w (List.mem_cons_of_mem _ hw)]
          rfl

theorem heapListInsert_dropped (hS : Spread S) (hx : x ∈ S) (hl : ∀ q ∈ l, q ∈ S) (hd : l.Nodup)
    (hxl : x ∉ l) (hL : Linked (nxt s) (prv s) 0 l) (hne : l ≠ [])
    (hlt : ∀ y ∈ l, getField s.sys.mem .size x < getField s.sys.mem .size y)
    (h : (heapListInsert x).run s = .ok ((), s')) :
    LinkStep S s s' ∧ Inserted S s s' x 0 (l.getLastD 0) := by
  simp only [heapListInsert, run_bind_eq_ok, run_ite_eq_ok, getHeap_eq_ok, setHeap_eq_ok,
    set_eq_ok] at h
  cases l with
  | nil => exact absurd rfl hne
  | cons c l =>
      obtain rfl : s.heap.head = c := hL.1
      obtain ⟨_, _, ⟨rfl, rfl⟩, ⟨-, _, _, hv, h⟩ | ⟨he, -⟩⟩ := h
      · obtain rfl := validateCookie_eq_ok hv
        have hl₀ : ∀ q ∈ [] ++ s.heap.head :: l, q ∈ S := hl
        obtain ⟨hs, ⟨k₁, k₂, hk, -⟩ | ⟨-, hI⟩⟩ := heapListInsertLoop_place hS hx hl₀ hd hxl hL h
        · rw [insertGo_none hlt] at hk
          cases hk
        · exact ⟨hs, by rwa [List.getLastD_cons]⟩
      · exact absurd hL.2.1 he

/-- The block `x` in front of the last node `l.getLastD 0` leaves the list; the nodes of `l` are
still linked as they were in `u`. -/
theorem remove_behind_drop (hS : Spread S) (hx : x ∈ S) (hl : ∀ q ∈ l, q ∈ S) (hxl : x ∉ l)
    (hne : l ≠ []) (hI : Inserted S u s x 0 (l.getLastD 0)) (hnull : s.sys.mem.page 0 = false)
    (h : (heapListRemove x).run s = .ok ((), s')) :
    LinkStep S s s' ∧ nxt s' 0 = l.getLastD 0 ∧ prv s' (l.getLastD 0) = 0 ∧
      (∀ q ∈ l, nxt s' q = nxt u q) ∧ ∀ q ∈ l, q ≠ l.getLastD 0 → prv s' q = prv u q := by
  have hlast : l.getLastD 0 ∈ l := getLastD_mem_of_ne_nil hne
  have hhead : x = s.heap.head := hI.nx_pred.symm
  have hsucc : LinkIn S (nxt s x) := .inr (hI.nx_new ▸ hl _ hlast)
  obtain ⟨hs, hU⟩ := heapListRemove_unlinked hS hx hnull hsucc (.inl hI.pv_new) h
  rw [if_pos hhead, hI.nx_new] at hU
  refine ⟨hs, hU.nx_pred, hU.pv_succ (hS.pos _ (hl _ hlast)), fun q hq => ?_, fun q hq hql => ?_⟩
  · have hq₀ := hS.pos q (hl q hq)
    exact (hU.nx q (.inr (hl q hq)) hq₀).trans
      (hI.nx q (.inr (hl q hq)) hq₀ fun e => hxl (e ▸ hq))
  · exact (hU.pv q (hl q hq) hql).trans (hI.pv q (hl q hq) hql fun e => hxl (e ▸ hq))

/-- The links of a dropped list after one of its nodes was taken out. -/
theorem closed_of_unlinked (hl : ∀ q ∈ l₁ ++ x :: l₂, q ∈ S) (h₀ : 0 ∉ S)
    (hd : (l₁ ++ x :: l₂).Nodup) (hL : Linked (nxt u) (prv u) 0 (l₁ ++ x :: l₂))
    (hF : FirstPrev u (l₁ ++ x :: l₂)) (hne : l₂ ≠ [])
    (hhead : nxt s 0 = (l₁ ++ x :: l₂).getLastD 0) (hlast : prv s ((l₁ ++ x :: l₂).getLastD 0) = 0)
    (hnx : ∀ q ∈ l₁ ++ x :: l₂, nxt s q = nxt u q)
    (hpv : ∀ q ∈ l₁ ++ x :: l₂, q ≠ (l₁ ++ x :: l₂).getLastD 0 → prv s q = prv u q)
    (hU : Unlinked S s s' (l₁.getLastD 0) (l₂.headD 0)) {T : Set ℕ}
    (hT : ∀ q, q ∈ T ↔ q ∈ l₁ ++ l₂) : Closed T s' := by
  have hout : ∀ q, q ∈ T ↔ q ∈ l₁ ++ x :: l₂ ∧ q ≠ x := fun q => (hT q).trans (mem_around_iff hd)
  have hd₀ : (0 :: (l₁ ++ x :: l₂)).Nodup := List.nodup_cons.mpr ⟨fun h => h₀ (hl 0 h), hd⟩
  have hc : l₂.headD 0 ∈ l₂ := by
    cases l₂ with
    | nil => exact absurd rfl hne
    | cons c l₂ => exact List.mem_cons_self
  have hcT : l₂.headD 0 ∈ T := (hT _).mpr (List.mem_append_right _ hc)
  have hx₀ : x ≠ 0 := fun e => h₀ (hl 0 (by simp [e]))
  have hz : (l₁ ++ x :: l₂).getLastD 0 ∈ T := by
    refine (hT _).mpr (List.mem_append_right _ ?_)
    rw [List.append_cons, List.getLastD_eq_getLast?, List.getLast?_append_of_ne_nil _ hne,
      ← List.getLastD_eq_getLast?]
    exact getLastD_mem_of_ne_nil hne
  constructor
  · intro q hq
    by_cases he : q = l₁.getLastD 0
    · rw [he, hU.nx_pred]
      exact .inr hcT
    obtain hq₀ | hq := hq
    · rw [hq₀] at he ⊢
      rw [hU.nx 0 (.inl rfl) he, hhead]
      exact .inr hz
    · have hq' := ((hout q).mp hq).1
      rw [hU.nx q (.inr (hl q hq')) he, hnx q hq']
      refine (hL.nx_mem (List.mem_cons_of_mem _ hq')).imp id fun hm => (hout _).mpr ⟨hm, fun e => ?_⟩
      exact he (hL.eq_of_nx hd₀ (List.mem_cons_of_mem _ hq') e)
  · intro q hq
    have hq' := ((hout q).mp hq).1
    by_cases he : q = l₂.headD 0
    · rw [he, hU.pv_succ fun e => h₀ (e ▸ hl _ (((hout _).mp hcT).1))]
      by_cases hp : l₁.getLastD 0 = 0
      · exact .inl hp
      · exact .inr ((hT _).mpr (List.mem_append_left _ (getLastD_mem hp)))
    rw [hU.pv q (hl q hq') he]
    by_cases hqz : q = (l₁ ++ x :: l₂).getLastD 0
    · rw [hqz]
      exact .inl hlast
    rw [hpv q hq' hqz]
    obtain hfirst | hm := hL.pv_mem hq'
    · exact .inl (hF q hfirst)
    · refine .inr ((hout _).mpr ⟨hm, fun e => he (hL.eq_of_pv hd hq' e fun d hd' => ?_)⟩)
      rw [show prv u d = 0 from hF d hd']
      exact Ne.symm hx₀

/-- A node that the list has lost is taken out: no link of the other nodes that are still in
reach leads to it. -/
theorem remove_dropped (hS : Spread S) (hl : ∀ q ∈ l₁ ++ x :: l₂, q ∈ S)
    (hd : (l₁ ++ x :: l₂).Nodup) (hL : Linked (nxt u) (prv u) 0 (l₁ ++ x :: l₂))
    (hF : FirstPrev u (l₁ ++ x :: l₂)) (hhead : nxt s 0 = (l₁ ++ x :: l₂).getLastD 0)
    (hlast : prv s ((l₁ ++ x :: l₂).getLastD 0) = 0)
    (hnx : ∀ q ∈ l₁ ++ x :: l₂, nxt s q = nxt u q)
    (hpv : ∀ q ∈ l₁ ++ x :: l₂, q ≠ (l₁ ++ x :: l₂).getLastD 0 → prv s q = prv u q)
    (hnull : s.sys.mem.page 0 = false) (h : (heapListRemove x).run s = .ok ((), s')) :
    LinkStep S s s' ∧ ∃ T : Set ℕ, (∀ q ∈ T, q ∈ l₁ ++ l₂) ∧ Closed T s' := by
  have hx : x ∈ l₁ ++ x :: l₂ := by simp
  have hnx' : nxt s x = l₂.headD 0 := (hnx x hx).trans hL.nx_eq
  by_cases hne : l₂ = []
  · -- the last node is the whole list
    subst hne
    rw [List.getLastD_concat] at hhead hlast
    obtain ⟨hs, hU⟩ := heapListRemove_unlinked hS (hl x hx) hnull (.inl hnx') (.inl hlast) h
    have hx' : x = s.heap.head := hhead.symm
    rw [if_pos hx'] at hU
    refine ⟨hs, ∅, fun q hq => hq.elim, fun q hq => ?_, fun q hq => hq.elim⟩
    obtain rfl | hq := hq
    · exact .inl (hU.nx_pred.trans hnx')
    · exact hq.elim
  · have h₀ : 0 ∉ S := fun h => hS.pos 0 h rfl
    have hxz : x ≠ (l₁ ++ x :: l₂).getLastD 0 := by
      rw [List.append_cons, List.getLastD_eq_getLast?, List.getLast?_append_of_ne_nil _ hne,
        ← List.getLastD_eq_getLast?]
      intro e
      refine (List.nodup_cons.mp (List.nodup_append.mp hd).2.1).1 ?_
      rw [e]
      exact getLastD_mem_of_ne_nil hne
    have hxh : ¬x = s.heap.head := fun e => hxz (e.trans hhead)
    have hpx : prv s x = l₁.getLastD 0 := by
      refine (hpv x hx hxz).trans ?_
      by_cases he : l₁ = []
      · subst he
        exact hF x rfl
      · exact hL.pv_eq (hS.pos _ (hl _ (List.mem_append_left _ (getLastD_mem_of_ne_nil he))))
    have hpS : LinkIn S (prv s x) := by
      rw [hpx]
      by_cases he : l₁.getLastD 0 = 0
      · exact .inl he
      · exact .inr (hl _ (List.mem_append_left _ (getLastD_mem he)))
    have hnS : LinkIn S (nxt s x) := by
      rw [hnx']
      by_cases he : l₂.headD 0 = 0
      · exact .inl he
      · exact .inr (hl _ (List.mem_append_right _ (List.mem_cons_of_mem _ (headD_mem he))))
    obtain ⟨hs, hU⟩ := heapListRemove_unlinked hS (hl x hx) hnull hnS hpS h
    rw [if_neg hxh, hpx, hnx'] at hU
    exact ⟨hs, {q | q ∈ l₁ ++ l₂}, fun q hq => hq,
      closed_of_unlinked hl h₀ hd hL hF hne hhead hlast hnx hpv hU fun q => Iff.rfl⟩

/-! ### Two blocks absorbed in turn -/

theorem Inserted.sameLinks {pred succ : ℕ} (h : Inserted S u s x pred succ) (hs : SameLinks S s s')
    (hx : x ∈ S) (hp : LinkIn S pred) (hq : LinkIn S succ) : Inserted S u s' x pred succ where
  nx b hb h₁ h₂ := (hs.nx b hb).trans (h.nx b hb h₁ h₂)
  nx_pred := (hs.nx pred hp).trans h.nx_pred
  nx_new := (hs.nx x (.inr hx)).trans h.nx_new
  pv b hb h₁ h₂ := (hs.pv b hb).trans (h.pv b hb h₁ h₂)
  pv_new := (hs.pv x hx).trans h.pv_new
  pv_succ hne := (hs.pv succ (hq.resolve_left hne)).trans (h.pv_succ hne)

/-- `absorb` that drops the list: the other blocks are linked as they were, and only the last of
them is still in the list. -/
theorem absorb_dropped (hw : Whole s (as ++ b :: c :: cs))
    (hok : ¬insertOk (as ++ cs) (b.absorb c).size)
    (h : (absorb b.addr c.addr).run s = .ok ((), s')) :
    ∃ u l, List.Perm l ((as ++ cs).map Block.addr) ∧ Linked (nxt u) (prv u) 0 l ∧ FirstPrev u l ∧
      l ≠ [] ∧ Inserted (addrs (as ++ b :: c :: cs)) u s' b.addr 0 (l.getLastD 0) ∧
      s'.sys.mem.page 0 = false := by
  obtain ⟨s₂, s₃, h₂, h₃, h₄⟩ := absorb_cases h
  have hS := hw.tiled.spread
  have hb : b.addr ∈ addrs (as ++ b :: c :: cs) := mem_addrs (by simp)
  have hnd := hw.tiled.nodup
  have ht₁ := absorbed_tiled hS subset_rfl hw.tiled
  have hl₁ := hw.listed.sameLinks (absorbed_sameLinks hS hb c.addr) subset_rfl
  obtain ⟨k₂, hl₂⟩ := hl₁.remove hS subset_rfl hnd ht₁.null h₂
  have hsub₂ : addrs (as ++ c :: cs) ⊆ addrs (as ++ b :: c :: cs) := addrs_mono fun d hd => mem_addrs (by
    obtain hd | hd := List.mem_append.mp hd
    · simp [hd]
    · obtain rfl | hd := List.mem_cons.mp hd <;> simp [*])
  have hnd₂ : ((as ++ c :: cs).map Block.addr).Nodup := hnd.sublist (by simp)
  have hnull₂ : s₂.sys.mem.page 0 = false := by
    rw [k₂.page]
    exact ht₁.null
  obtain ⟨k₃, order, hp, -, hL, hF⟩ := hl₂.remove hS hsub₂ hnd₂ hnull₂ h₃
  have hnull₃ : s₃.sys.mem.page 0 = false := by
    rw [k₃.page]
    exact hnull₂
  have ht₃ := (ht₁.linkStep k₂ hS (addrs_absorb as b c cs)).linkStep k₃ hS (addrs_absorb as b c cs)
  have hperm := hp.map Block.addr
  have hmem : ∀ q ∈ order.map Block.addr, ∃ d ∈ as ++ cs, d.addr = q := fun q hq => by
    obtain ⟨d, hd, rfl⟩ := List.mem_map.mp hq
    exact ⟨d, hp.mem_iff.mp hd, rfl⟩
  rw [insertOk, not_or, Nat.not_le] at hok
  have hne : order.map Block.addr ≠ [] := by
    intro he
    have := hp.length_eq
    rw [List.map_eq_nil_iff.mp he] at this
    rw [← this] at hok
    exact absurd hok.1 (by simp)
  have hsub : ∀ d ∈ as ++ cs, d ∈ as ++ b.absorb c :: cs := fun d hd => by
    obtain hd | hd := List.mem_append.mp hd <;> simp [hd]
  have hin : ∀ q ∈ order.map Block.addr, q ∈ addrs (as ++ b :: c :: cs) := fun q hq => by
    obtain ⟨d, hd, rfl⟩ := hmem q hq
    exact addrs_absorb as b c cs (mem_addrs (hsub d hd))
  have hbl : b.addr ∉ order.map Block.addr := fun hq => by
    obtain ⟨d, hd, hdb⟩ := hmem _ hq
    have hd' : d ∈ as ++ c :: cs := by
      obtain hd | hd := List.mem_append.mp hd <;> simp [hd]
    exact hw.tiled.addr_ne_of_nodup hd' hdb
  have hlt : ∀ q ∈ order.map Block.addr,
      getField s₃.sys.mem .size b.addr < getField s₃.sys.mem .size q := fun q hq => by
    obtain ⟨d, hd, rfl⟩ := hmem q hq
    have hbs : getField s₃.sys.mem .size (b.absorb c).addr = (b.absorb c).size :=
      ht₃.size_eq (by simp)
    rw [ht₃.size_eq (hsub d hd)]
    exact hbs.trans_lt (Nat.lt_of_not_le fun hle => hok.2 ⟨d, hd, hle⟩)
  obtain ⟨k₄, hI⟩ := heapListInsert_dropped hS hb hin
    (hperm.nodup_iff.mpr (hnd.sublist (by simp))) hbl hL hne hlt h₄
  refine ⟨s₃, order.map Block.addr, hperm, hL, hF, hne, hI, ?_⟩
  rw [k₄.page]
  exact hnull₃

/-- The block behind is absorbed from a list that was dropped. -/
theorem absorb_closed_of_dropped {bs : List Block} (hS : Spread S) (hp : b.addr ∈ S)
    (hsub : addrs bs ⊆ S) (hd : (bs.map Block.addr).Nodup) (hn : n ∈ bs) (hb : b.addr ∉ addrs bs)
    (hl : List.Perm l (bs.map Block.addr)) (hL : Linked (nxt u) (prv u) 0 l) (hF : FirstPrev u l)
    (hne : l ≠ []) (hI : Inserted S u s b.addr 0 (l.getLastD 0))
    (hnull : s.sys.mem.page 0 = false) (h : (absorb b.addr n.addr).run s = .ok ((), s')) :
    ∃ T : Set ℕ, (∀ q ∈ T, q = b.addr ∨ q ∈ addrs bs ∧ q ≠ n.addr) ∧ b.addr ∈ T ∧ Closed T s' := by
  obtain ⟨s₂, s₃, h₂, h₃, h₄⟩ := absorb_cases h
  have hlS : ∀ q ∈ l, q ∈ addrs bs := fun q hq => by
    obtain ⟨d, hd, rfl⟩ := List.mem_map.mp (hl.mem_iff.mp hq)
    exact mem_addrs hd
  have hlinks := absorbed_sameLinks (s := s) hS hp n.addr
  have hI' : Inserted S u (absorbed s b.addr n.addr) b.addr 0 (l.getLastD 0) := 
    hI.sameLinks hlinks hp (.inl rfl) (.inr (hsub (hlS _ (getLastD_mem_of_ne_nil hne))))
  have hnull₁ : (absorbed s b.addr n.addr).sys.mem.page 0 = false := hnull
  obtain ⟨k₂, hhead, hlast, hnx, hpv⟩ := remove_behind_drop hS hp (fun q hq => hsub (hlS q hq))
    (fun hq => hb (hlS _ hq)) hne hI' hnull₁ h₂
  obtain ⟨l₁, l₂, rfl⟩ := List.append_of_mem (hl.mem_iff.mpr (List.mem_map_of_mem hn))
  have hnull₂ : s₂.sys.mem.page 0 = false := by
    rw [k₂.page]
    exact hnull₁
  have hnd := hl.nodup_iff.mpr hd
  obtain ⟨k₃, T, hT, hC⟩ := remove_dropped hS (fun q hq => hsub (hlS q hq)) hnd hL hF hhead hlast hnx
    hpv hnull₂ h₃
  have hTS : ∀ q ∈ T, q ∈ addrs bs ∧ q ≠ n.addr := fun q hq => by
    obtain ⟨hq, hne⟩ := (mem_around_iff hnd).mp (hT q hq)
    exact ⟨hlS q hq, hne⟩
  have hS' : Spread (insert b.addr T) := hS.mono (Set.insert_subset hp fun q hq => hsub (hTS q hq).1)
  obtain ⟨-, hC'⟩ := heapListInsert_closed hS' (by rw [k₃.page]; exact hnull₂) hC h₄
  exact ⟨insert b.addr T, fun q hq => hq.imp id (hTS q), Set.mem_insert _ _, hC'⟩

/-- **Two blocks absorbed in turn**: no link that is still in reach leads to either of them. -/
theorem absorb_twice_closed (hw : Whole s (as ++ b :: c :: n :: cs))
    (h₁ : (absorb b.addr c.addr).run s = .ok ((), s₁)) (hsys : s₂.sys = s₁.sys)
    (hhead : s₂.heap.head = s₁.heap.head)
    (hw₂ : insertOk (as ++ n :: cs) (b.absorb c).size → Whole s₂ (as ++ b.absorb c :: n :: cs))
    (h₂ : (absorb b.addr n.addr).run s₂ = .ok ((), s₃)) :
    ∃ T, T ⊆ addrs (as ++ (b.absorb c).absorb n :: cs) ∧ b.addr ∈ T ∧ Closed T s₃ := by
  by_cases hok : insertOk (as ++ n :: cs) (b.absorb c).size
  · exact ⟨_, subset_rfl, ⟨(b.absorb c).absorb n, by simp, rfl⟩,
      absorb_closed (b := b.absorb c) (hw₂ hok) h₂⟩
  obtain ⟨u, l, hl, hL, hF, hne, hI, hnull⟩ := absorb_dropped hw hok h₁
  have hS := hw.tiled.spread
  have hbm : b.addr ∈ addrs (as ++ b :: c :: n :: cs) := mem_addrs (by simp)
  have hsub : addrs (as ++ n :: cs) ⊆ addrs (as ++ b :: c :: n :: cs) := addrs_mono fun d hd =>
    mem_addrs (by
      obtain hd | hd := List.mem_append.mp hd
      · simp [hd]
      · obtain rfl | hd := List.mem_cons.mp hd <;> simp [*])
  have hlast : LinkIn (addrs (as ++ b :: c :: n :: cs)) (l.getLastD 0) := by
    obtain ⟨d, hd, he⟩ := List.mem_map.mp (hl.mem_iff.mp (getLastD_mem_of_ne_nil (a := 0) hne))
    exact .inr (he ▸ hsub (mem_addrs hd))
  have hlinks : SameLinks (addrs (as ++ b :: c :: n :: cs)) s₁ s₂ :=
    .of_byte hS hhead fun _ _ _ _ _ => by rw [hsys]
  have hb : b.addr ∉ addrs (as ++ n :: cs) := by
    rintro ⟨d, hd, he⟩
    have hd' : d ∈ as ++ c :: n :: cs := by
      obtain hd | hd := List.mem_append.mp hd <;> simp_all
    exact hw.tiled.addr_ne_of_nodup hd' he
  have hnull₂ : s₂.sys.mem.page 0 = false := by
    rw [hsys]
    exact hnull
  obtain ⟨T, hT, hbT, hC⟩ := absorb_closed_of_dropped hS hbm hsub
    (hw.tiled.nodup.sublist (by simp)) (List.mem_append_right _ List.mem_cons_self) hb hl hL hF hne
    (hI.sameLinks hlinks hbm (.inl rfl) hlast) hnull₂ h₂
  refine ⟨T, fun q hq => ?_, hbT, hC⟩
  obtain rfl | ⟨⟨d, hd, rfl⟩, hne⟩ := hT q hq
  · exact ⟨(b.absorb c).absorb n, by simp, rfl⟩
  · have hdn : d ≠ n := fun e => hne (congrArg _ e)
    obtain hd | hd := List.mem_append.mp hd
    · exact mem_addrs (by simp [hd])
    · exact mem_addrs (by simp [(List.mem_cons.mp hd).resolve_left hdn])

/-- **`merge` next to one block with two free neighbours**: the three become one block. -/
theorem merge_two (hw : Whole s (as ++ b :: c :: n :: cs)) (hp : NoAdjacentFree (as ++ [b]))
    (hb : b.free = true) (hc : c.free = true) (hn : n.free = true)
    (hcs : NoAdjacentFree ((b.absorb c).absorb n :: cs)) (h : merge.run s = .ok ((), s')) :
    Turns (insertOk (as ++ n :: cs) (b.absorb c).size ∧
        insertOk (as ++ cs) ((b.absorb c).absorb n).size) (addrs (as ++ b :: c :: n :: cs)) {b.addr}
      (addrs (as ++ b.absorb c :: n :: cs)) s s' (as ++ b :: c :: n :: cs)
      (as ++ (b.absorb c).absorb n :: cs) ∧
    ∃ T, T ⊆ addrs (as ++ (b.absorb c).absorb n :: cs) ∧ b.addr ∈ T ∧ Closed T s' := by
  obtain ⟨s₀, s₁, h₀, hsys₀, hhead₀, ht, ⟨he, -⟩ | ⟨fuel, h⟩⟩ := merge_first hw hp hb hc h
  · cases he
  cases fuel with
  | zero => simp [smerge] at h
  | succ fuel =>
      obtain ⟨he, -⟩ | ⟨d, ds, he, hf, -⟩ | ⟨d, ds, s₂, s₃, he, -, -, h₁, hsys, hhead, hm, h⟩ :=
        smerge_round ht.shape h
      · cases he
      · obtain ⟨rfl, rfl⟩ := List.cons.inj he
        rw [Block.absorb_free, hb, hn] at hf
        cases hf
      obtain ⟨rfl, rfl⟩ := List.cons.inj he
      have hsub : addrs (as ++ b.absorb c :: n :: cs) ⊆ addrs (as ++ b :: c :: n :: cs) :=
        addrs_absorb as b c (n :: cs)
      have hlinks : SameLinks (addrs (as ++ (b.absorb c).absorb n :: cs)) s₂ s₃ :=
        .of_byte hm.shape.tiled.spread hhead fun _ _ _ _ _ => by rw [hsys]
      have hturn : Turns (insertOk (as ++ cs) ((b.absorb c).absorb n).size)
          (addrs (as ++ b :: c :: n :: cs)) {b.addr} (addrs (as ++ b.absorb c :: n :: cs)) s₁ s₃
          (as ++ b.absorb c :: n :: cs) (as ++ (b.absorb c).absorb n :: cs) :=
        ⟨hm.step.mono hsub subset_rfl, hm.shape, hm.counts, fun hok hl =>
          (absorb_listed ht.shape.tiled.spread subset_rfl ht.shape.tiled hl hok h₁).sameLinks hlinks
            subset_rfl⟩
      obtain ⟨T, hT, hbT, hC⟩ := absorb_twice_closed hw h₀ hsys₀ hhead₀
        (fun hok => ht.whole hok hw.listed) h₁
      have hC' : Closed T s₃ := (hlinks.mono hT).closed hC
      obtain ⟨-, rfl⟩ | h := h
      · exact ⟨ht.trans hturn, T, hT, hbT, hC'⟩
      · obtain rfl := smerge_id hm.shape hcs h
        exact ⟨ht.trans hturn, T, hT, hbT, hC'⟩

/-! ### Cases e and f.i -/

theorem absorb_three_addrs :
    addrs (as ++ p.absorb b :: n :: cs) ⊆ insert n.addr (addrs (as ++ (p.absorb b).absorb n :: cs)) := by
  rintro _ ⟨d, hd, rfl⟩
  obtain hd | hd := List.mem_append.mp hd
  · exact .inr (mem_addrs (by simp [hd]))
  obtain rfl | hd := List.mem_cons.mp hd
  · exact .inr ⟨(p.absorb b).absorb n, by simp, rfl⟩
  obtain rfl | hd := List.mem_cons.mp hd
  · exact .inl rfl
  · exact .inr (mem_addrs (by simp [hd]))

/-- Both neighbours take part in one merge. -/
theorem both_merged (hw : Whole s (as ++ p :: b :: n :: cs))
    (hn : NoAdjacentFree (as ++ p :: b :: n :: cs)) (hp : p.free = true) (hb : b.free = false)
    (hnf : n.free = true) (h₁ : (markFree b.addr).run s = .ok ((), s₁))
    (h₂ : merge.run s₁ = .ok ((), s₂)) :
    Merged (insertOk (as ++ n :: cs) (p.absorb b).size ∧
        insertOk (as ++ cs) ((p.absorb b).absorb n).size) (addrs (as ++ p.absorb b :: n :: cs)) s s₂
      (as ++ p :: b :: n :: cs) (as ++ (p.absorb b).absorb n :: cs) b ∧
    ∃ T, T ⊆ addrs (as ++ (p.absorb b).absorb n :: cs) ∧ p.addr ∈ T ∧ Closed T s₂ := by
  have hcs : NoAdjacentFree (n :: cs) := by
    rw [List.append_cons, List.append_cons] at hn
    exact hn.right
  have hcs' : NoAdjacentFree ((p.absorb b).absorb n :: cs) := by
    refine noAdjacentFree_cons.mpr ⟨fun c hc => ?_, (noAdjacentFree_cons.mp hcs).2⟩
    exact fun h => (noAdjacentFree_cons.mp hcs).1 c hc ⟨hnf, h.2⟩
  have ht : Tiled s ((as ++ [p]) ++ b :: n :: cs) := by
    rw [← List.append_cons]
    exact hw.tiled
  have hw' : Whole s ((as ++ [p]) ++ b :: n :: cs) := by
    rw [← List.append_cons]
    exact hw
  have hw₁ : Whole s₁ (as ++ p :: b.freed :: n :: cs) := by
    have := (markFree_turns hw'.shape hb h₁).whole trivial hw'.listed
    rwa [← List.append_cons] at this
  have hm := fun hw₁ : Whole s₁ (as ++ p :: b.freed :: n :: cs) =>
    merge_two hw₁ hn.concat_free.1 hp rfl hnf hcs' h₂
  refine ⟨.of_turns (List.append_cons as p (b :: n :: cs)) (List.append_cons as p (b.freed :: n :: cs))
    hw hb h₁ (Set.singleton_subset_iff.mpr (mem_addrs (by simp))) ?_ fun hw₁ => (hm hw₁).1, (hm hw₁).2⟩
  exact fun h => ht.addr_ne_of_nodup (d := p) (by simp) (Set.mem_singleton_iff.mp h).symm

/-- One more step inside the heap. -/
theorem Outcome.step (h : Outcome ok s s' bs bs') (hs : HeapStep F H s' s'')
    (hFH : ∀ q ∈ F ∪ H, s'.heap.firsthead ≤ q ∧ q + 40 ≤ s'.sys.brk) (hl : Laid s'' bs'')
    (hc : CountStep s'.heap s''.heap (Malloc3.counts bs'' - Malloc3.counts bs'))
    (hls : ok' → Listed s' bs' → Listed s'' bs'') : Outcome (ok ∧ ok') s s'' bs bs'' := by
  have hq := hs.quiet (fun q hq => hFH q (.inl hq)) fun q hq => hFH q (.inr hq)
  refine ⟨hl, h.grown.trans ((hq.grown h.laid.tiled.brk_le).mono h.base), ?_,
    (h.counts.trans hc).of_eq (by rw [add_comm, sub_add_sub_cancel]),
    fun hok => hls hok.2 (h.listed hok.1)⟩
  rw [hs.firsthead]
  exact h.base

theorem reallocBoth_cases {old prev oldp : ℕ}
    (h : (reallocBoth old prev oldp size).run s = .ok (r, s')) :
    r = add64 prev sizeofMetadata ∧ ∃ s₁ s₂ s₃, (markFree old).run s = .ok ((), s₁) ∧
      merge.run s₁ = .ok ((), s₂) ∧ (split prev size).run s₂ = .ok ((), s₃) ∧
      s' = s₃.setMem (s₃.sys.mem.copy (add64 prev sizeofMetadata) oldp
        (getField s₃.sys.mem .size old)) := by
  simp only [reallocBoth, run_bind_eq_ok, get_eq_ok, memmove_eq_ok, pure_eq_ok] at h
  obtain ⟨_, s₁, h₁, _, s₂, h₂, _, s₃, h₃, _, _, ⟨-, rfl, rfl⟩, _, _, ⟨-, rfl⟩, rfl, rfl⟩ := h
  exact ⟨rfl, s₁, s₂, s₃, h₁, h₂, h₃, rfl⟩

/-- **Case e.** -/
theorem reallocBoth_resized (hw : Whole s (as ++ p :: b :: n :: cs))
    (hn : NoAdjacentFree (as ++ p :: b :: n :: cs)) (hbase : s.sys.base ≤ s.heap.firsthead)
    (hp : p.free = true) (hb : b.free = false) (hnf : n.free = true)
    (hlt : (p.absorb b).size < size) (hs : size ≤ sizeLimit)
    (hle : size ≤ ((p.absorb b).absorb n).size)
    (h : (reallocBoth b.addr p.addr b.payload size).run s = .ok (r, s')) :
    Resized ((insertOk (as ++ n :: cs) (p.absorb b).size ∧
          insertOk (as ++ cs) ((p.absorb b).absorb n).size) ∧
        splitOk (as ++ cs) ((p.absorb b).absorb n) size) True s s' (as ++ p :: b :: n :: cs) b size r
      (((p.absorb b).absorb n).taken size,
        as ++ (splitBlock ((p.absorb b).absorb n) size ++ cs)) := by
  have hpm : p ∈ as ++ p :: b :: n :: cs := by simp
  have hbm : b ∈ as ++ p :: b :: n :: cs := by simp
  have htile := hw.tiled.tiles (List.ne_nil_of_mem hbm)
  have hbp : b.addr = p.stop := hw.tiled.addr_next
  obtain ⟨hrv, s₁, s₂, s₃, h₁, h₂, h₃, rfl⟩ := reallocBoth_cases h
  obtain ⟨hm, T, hT, hpT, hC⟩ := both_merged hw hn hp hb hnf h₁ h₂
  have hsz : (p.absorb b).size = p.size + (b.size + 40) := rfl
  generalize hB : (p.absorb b).absorb n = B at hm hT hle ⊢
  have hBa : B.addr = p.addr := by rw [← hB]; rfl
  rw [← hBa] at h₃ hpT
  have hlaid := hm.turns.shape.laid
  have hS := hlaid.tiled.split_spread (n := size) (.inr hs)
  have hTS : T ∪ addrs (splitBlock B size) ⊆ addrs (as ++ B :: cs) ∪ addrs (splitBlock B size) :=
    Set.union_subset_union_left _ hT
  obtain ⟨hst, -, ht₃, hw₃, hc₃⟩ :=
    split_tiled hlaid.tiled (.inr hs) hC hpT hS Set.subset_union_left hTS h₃
  -- the new header starts behind the old block
  have hnew : ∀ q ∈ addrs (splitBlock B size), q = p.addr ∨ b.stop ≤ q := by
    intro q hq
    cases hc : canSplit B.size size with
    | false =>
        rw [splitBlock_of_not hc, addrs_singleton] at hq
        exact .inl ((Set.mem_singleton_iff.mp hq).trans hBa)
    | true =>
        rw [splitBlock_of_canSplit hc, addrs_front_back] at hq
        obtain rfl | rfl := hq
        · exact .inl hBa
        · refine .inr ?_
          simp only [Block.back, Block.stop, sizeofMetadata, hBa] at hbp ⊢
          omega
  have hout : ∀ q ∈ addrs (as ++ B :: cs), q + 40 ≤ b.addr ∨ b.stop ≤ q := by
    have ht : Tiled s ((as ++ [p]) ++ b :: n :: cs) := by
      rw [← List.append_cons]
      exact hw.tiled
    rintro _ ⟨d, hd, rfl⟩
    obtain hd | hd := List.mem_append.mp hd
    · exact ht.header_outside (by simp [hd])
    obtain rfl | hd := List.mem_cons.mp hd
    · rw [hBa]
      exact ht.header_outside (d := p) (by simp)
    · exact ht.header_outside (by simp [hd])
  have hall : ∀ q ∈ T ∪ addrs (splitBlock B size) ∪ addrs (splitBlock B size),
      q + 40 ≤ b.addr ∨ b.stop ≤ q := by
    rintro q ((hq | hq) | hq)
    · exact hout q (hT hq)
    all_goals
      obtain rfl | hq := hnew q hq
      · exact hout _ (hBa ▸ mem_addrs (by simp))
      · exact .inr hq
  have hsize : getField s₃.sys.mem .size b.addr = b.size := by
    refine (hst.getField_eq (fun q hq => ?_) fun q hq => ?_).trans hm.size
    · have := hall q (.inl hq)
      simp only [Block.stop, Field.offset, Field.width, sizeofMetadata] at this ⊢
      omega
    · have := hall q (.inr hq)
      simp only [Block.stop, Field.offset, Field.width, sizeofMetadata] at this ⊢
      omega
  have hne := split_ne_nil as B size cs
  have hin : ∀ q ∈ T ∪ addrs (splitBlock B size) ∪ addrs (splitBlock B size),
      s₂.heap.firsthead ≤ q ∧ q + 40 ≤ s₂.sys.brk := fun q hq => by
    refine hlaid.tiled.header_bounds_or ht₃ hst.firsthead hst.brk q ?_
    rw [addrs_split]
    obtain (hq | hq) | hq := hq
    · exact .inl (hT hq)
    · exact .inr (.inr hq)
    · exact .inr (.inr hq)
  have ho := (hm.turns.outcome hw hbase fun q hq => hw.tiled.header_bounds (hq.elim id id)).step hst hin
    ⟨ht₃, hw₃ hlaid.wilderness⟩ hc₃ fun hok hl =>
      split_listed ⟨hlaid.tiled, hlaid.wilderness, hl⟩ (.inr hs) hok hS h₃
  have hpay : (B.taken size).payload = p.payload := by
    rw [Block.taken_payload, Block.payload, hBa, Block.payload]
  have hdst : add64 p.addr sizeofMetadata = (B.taken size).payload :=
    (add64_payload hw.tiled hpm).trans hpay.symm
  rw [hdst, hsize]
  have hbs : b.size ≤ (B.taken size).size := by
    have := Block.le_taken hle
    omega
  refine ⟨hrv.trans hdst, ho.copy (taken_mem as B size cs) hbs, fun _ i hi => ?_⟩
  refine (copy_byte (by omega)).trans ((hst.byte_of_apart (fun q hq => ?_) fun q hq => ?_).trans
    (hm.turns.step.byte_of_apart ?_ ?_))
  · have := hall q (.inl hq)
    simp only [Block.payload, Block.stop, sizeofMetadata] at this ⊢
    omega
  · have := hall q (.inr hq)
    simp only [Block.payload, Block.stop, sizeofMetadata] at this ⊢
    omega
  all_goals exact fun q hq => htile.byte_apart hbm (by omega) hq

theorem reallocBothGrow_cases {old prev oldp : ℕ}
    (h : (reallocBothGrow old prev oldp size).run s = .ok (r, s')) :
    ∃ s₁ s₂ s₃, (markFree old).run s = .ok ((), s₁) ∧ merge.run s₁ = .ok ((), s₂) ∧
      (markUsed prev).run s₂ = .ok ((), s₃) ∧
      let t := s₃.setMem (s₃.sys.mem.copy (add64 prev sizeofMetadata) oldp
        (getField s₃.sys.mem .size old))
      let needed := sub64 size (getField t.sys.mem .size t.heap.wilderness)
      ((t.sys.sbrk needed).1 = failed ∧ r = 0 ∧ s' = { t with sys := (t.sys.sbrk needed).2 } ∨
        (t.sys.sbrk needed).1 ≠ failed ∧ r = add64 prev sizeofMetadata ∧
          (growWilderness needed).run { t with sys := (t.sys.sbrk needed).2 } = .ok ((), s')) := by
  simp only [reallocBothGrow, wildernessNeeds, run_bind_eq_ok, run_ite_eq_ok, getHeap_eq_ok,
    get_eq_ok, sbrk_eq_ok, memmove_eq_ok, pure_eq_ok] at h
  obtain ⟨_, s₁, h₁, _, s₂, h₂, _, s₃, h₃, _, _, ⟨-, rfl, rfl⟩, _, _, ⟨-, rfl⟩, h⟩ := h
  obtain ⟨_, _, ⟨_, _, ⟨rfl, rfl⟩, _, _, ⟨-, rfl, rfl⟩, rfl, rfl⟩, _, _, ⟨rfl, rfl⟩, h⟩ := h
  refine ⟨s₁, s₂, s₃, h₁, h₂, h₃, ?_⟩
  obtain ⟨hf, rfl, rfl⟩ | ⟨hf, _, _, h, rfl, rfl⟩ := h
  · exact .inl ⟨hf, rfl, rfl⟩
  · exact .inr ⟨hf, rfl, h⟩

/-- The lower neighbour takes the block and the wilderness in before it grows. -/
theorem bothGrow_turns (hw : Whole s (as ++ [p, b, n])) (hn : NoAdjacentFree (as ++ [p, b, n]))
    (hp : p.free = true) (hb : b.free = false) (hnf : n.free = true)
    (h₁ : (markFree b.addr).run s = .ok ((), s₁)) (h₂ : merge.run s₁ = .ok ((), s₂))
    (h₃ : (markUsed p.addr).run s₂ = .ok ((), s₃)) :
    Merged (insertOk (as ++ [n]) (p.absorb b).size ∧ insertOk as ((p.absorb b).absorb n).size)
      (addrs (as ++ [p.absorb b, n])) s s₃ (as ++ [p, b, n])
      (as ++ [((p.absorb b).absorb n).inUse]) b := by
  obtain ⟨hm, -⟩ := both_merged hw hn hp hb hnf h₁ h₂
  have hL : addrs (as ++ [p.absorb b, n]) ⊆ addrs (as ++ [p, b, n]) := addrs_absorb as p b [n]
  have hpm : {p.addr} ⊆ addrs (as ++ [p, b, n]) :=
    Set.singleton_subset_iff.mpr (mem_addrs (by simp))
  have hbp : b.addr ∉ ({p.addr} : Set ℕ) := by
    have ht : Tiled s ((as ++ [p]) ++ b :: [n]) := by simpa using hw.tiled
    exact fun h => ht.addr_ne_of_nodup (d := p) (by simp) (Set.mem_singleton_iff.mp h).symm
  have ht₃ := markUsed_turns (b := (p.absorb b).absorb n) hm.turns.shape hp h₃
  refine ⟨(hm.turns.trans (ht₃.mono hL hpm)).imp fun h => ⟨by simpa using h, trivial⟩, ?_⟩
  rw [ht₃.step.getField_of_not_mem hw.tiled.spread hL hpm (by decide) (mem_addrs (by simp)) hbp]
  exact hm.size

/-- **Case f.i.** -/
theorem reallocBothGrow_resized (hw : Whole s (as ++ [p, b, n]))
    (hn : NoAdjacentFree (as ++ [p, b, n])) (hbase : s.sys.base ≤ s.heap.firsthead)
    (hp : p.free = true) (hb : b.free = false) (hnf : n.free = true)
    (hlt : ((p.absorb b).absorb n).size < size) (hs : size ≤ sizeLimit) (hr : r ≠ 0)
    (h : (reallocBothGrow b.addr p.addr b.payload size).run s = .ok (r, s')) :
    Resized ((insertOk (as ++ [n]) (p.absorb b).size ∧ insertOk as ((p.absorb b).absorb n).size) ∧
        insertOk as size) True s s' (as ++ [p, b, n]) b size r
      (⟨p.addr, size, false⟩, as ++ [⟨p.addr, size, false⟩]) := by
  have hpm : p ∈ as ++ [p, b, n] := by simp
  have hbm : b ∈ as ++ [p, b, n] := by simp
  have htile := hw.tiled.tiles (List.ne_nil_of_mem hbm)
  have hnb : n.addr = b.stop := by
    have ht : Tiled s ((as ++ [p]) ++ b :: n :: []) := by simpa using hw.tiled
    exact ht.addr_next
  have hbp : b.addr = p.stop := hw.tiled.addr_next
  obtain ⟨s₁, s₂, s₃, h₁, h₂, h₃, h⟩ := reallocBothGrow_cases h
  have hm := bothGrow_turns hw hn hp hb hnf h₁ h₂ h₃
  have hLn : addrs (as ++ p.absorb b :: n :: []) ⊆
      insert n.addr (addrs (as ++ (p.absorb b).absorb n :: [])) := absorb_three_addrs
  have hL : addrs (as ++ [p.absorb b, n]) ⊆ addrs (as ++ [p, b, n]) := addrs_absorb as p b [n]
  have hsz : b.size ≤ ((p.absorb b).absorb n).size := by
    simp only [Block.absorb]
    omega
  generalize hB : (p.absorb b).absorb n = B at hm hLn hlt hsz
  have hBa : B.addr = p.addr := by rw [← hB]; rfl
  have hBm : B.inUse ∈ as ++ [B.inUse] := by simp
  have hpay : B.inUse.payload = p.payload := by
    rw [Block.payload, Block.inUse_addr, hBa, Block.payload]
  have hdst : add64 p.addr sizeofMetadata = B.inUse.payload :=
    (add64_payload hw.tiled hpm).trans hpay.symm
  rw [hdst, hm.size] at h
  have htile' := hm.turns.shape.tiled.tiles (by simp)
  -- the headers lie apart from what the copy writes
  have hap : ∀ q ∈ addrs (as ++ [p.absorb b, n]), q + 40 ≤ B.inUse.payload ∨
      B.inUse.payload + b.size ≤ q := by
    intro q hq
    obtain rfl | ⟨d, hd, rfl⟩ := hLn hq
    · rw [hpay, hnb]
      simp only [Block.payload, Block.stop, sizeofMetadata] at hbp ⊢
      omega
    · have hd' : d.addr ∈ addrs (as ++ [B.inUse]) := by
        obtain hd | hd := List.mem_append.mp hd
        · exact mem_addrs (by simp [hd])
        · rw [List.mem_singleton.mp hd]
          exact mem_addrs (b := B.inUse) (by simp)
      have := htile'.header_apart hBm hd'
      simp only [Block.payload, Block.stop, Block.inUse_size, sizeofMetadata] at this ⊢
      omega
  have hin := hw.tiled.header_bounds_or hm.turns.shape.tiled hm.turns.step.firsthead hm.turns.step.brk
  have ho := (hm.turns.outcome hw hbase fun q hq => hin q (.inl (hq.elim id id))).copy hBm
    (b := b) hsz
  have hsh := hm.turns.shape.setMem (m := s₃.sys.mem.copy B.inUse.payload b.payload b.size) rfl
    fun q hq y h₁ h₂ => Memory.copy_byte_of_not_mem _ (by
      have := hap q hq
      omega)
  have hdata : ∀ i < b.size, (s₃.setMem (s₃.sys.mem.copy B.inUse.payload b.payload b.size)).sys.mem.byte
      (p.payload + i) = s.sys.mem.byte (b.payload + i) := fun i hi => by
    rw [← hpay]
    refine (copy_byte hi).trans (hm.turns.step.byte_of_apart ?_ ?_)
    all_goals exact fun q hq => htile.byte_apart hbm hi hq
  have hfirst := hm.turns.step.firsthead
  have hbrk := hm.turns.step.brk
  generalize ht : s₃.setMem (s₃.sys.mem.copy B.inUse.payload b.payload b.size) = t at h ho hsh hdata
  have hfirst' : t.heap.firsthead = s.heap.firsthead := by rw [← ht]; exact hfirst
  have hbrk' : t.sys.brk = s.sys.brk := by rw [← ht]; exact hbrk
  obtain ⟨hneed, hsbrk⟩ := sbrk_needed hsh.laid (b := B.inUse) hlt hs
  simp only [hneed] at h
  obtain ⟨-, hr₀, -⟩ | ⟨hf, hrv, h⟩ := h
  · exact absurd hr₀ hr
  obtain ⟨hf', -⟩ | ⟨-, hx⟩ := hsbrk
  · exact absurd hf' hf
  have hst := growWilderness_stretched hsh rfl hx h
  have hq := B.inUse_grow hlt.le
  rw [hq, hBa] at hst
  refine ⟨hrv.trans hpay, ho.stretch hst.1 hx (fun q hq => ?_) hst.2, fun _ i hi => ?_⟩
  · rw [hfirst', hbrk']
    exact hw.tiled.header_bounds (hL hq)
  · refine (hst.1.data hx (y := p.payload + i) (fun q hq => ?_) ?_).trans (hdata i (by omega))
    · have := hap q hq
      rw [hpay] at this
      omega
    · exact ⟨p.absorb b, by simp, hBa.symm⟩

end OsProjects.Malloc3
