import OsProjects.VirtualMemory.Malloc3.Turns

/-! # Growing the heap

`sbrk` extends the heap behind the wilderness.  The new bytes become part of the wilderness,
which leaves the size-ordered list for it and returns, or a new block that is the wilderness
from then on. -/

namespace OsProjects.Malloc3

open Prog

variable {F H L S : Set ℕ} {s s' s'' s₁ : State} {as bs cs : List Block} {b b' c : Block}
  {p needed size r lo : ℕ} {x : System} {m : Memory}

/-! ### Outside of the heap -/

/-- The heap may have grown; nothing below `lo` or above the break changes, and the pages of
the new bytes were not mapped before. -/
structure Grown (lo : ℕ) (s s' : State) : Prop where
  base : s'.sys.base = s.sys.base
  cookie : s'.mainCookie = s.mainCookie
  mmhead : s'.heap.mmhead = s.heap.mmhead
  le : s.sys.brk ≤ s'.sys.brk
  top : s'.sys.brk ≤ userTop
  byte : ∀ y, y < lo ∨ s'.sys.brk ≤ y → s'.sys.mem.byte y = s.sys.mem.byte y
  page : ∀ p, s'.sys.mem.page p =
    if pageCeil s.sys.brk ≤ p ∧ p < pageCeil s'.sys.brk then true else s.sys.mem.page p
  fresh : ∀ p, pageCeil s.sys.brk ≤ p → p < pageCeil s'.sys.brk → s.sys.mem.page p = false

namespace Grown

theorem of_brk (hb : s'.sys.base = s.sys.base) (hc : s'.mainCookie = s.mainCookie)
    (hm : s'.heap.mmhead = s.heap.mmhead) (hbrk : s'.sys.brk = s.sys.brk)
    (htop : s.sys.brk ≤ userTop) (hpage : s'.sys.mem.page = s.sys.mem.page)
    (hbyte : ∀ y, y < lo ∨ s.sys.brk ≤ y → s'.sys.mem.byte y = s.sys.mem.byte y) : Grown lo s s' where
  base := hb
  cookie := hc
  mmhead := hm
  le := by rw [hbrk]
  top := by rw [hbrk]; exact htop
  byte y hy := hbyte y (by rwa [hbrk] at hy)
  page p := by rw [hbrk, if_neg (by omega), hpage]
  fresh p h₁ h₂ := by rw [hbrk] at h₂; omega

theorem refl (h : s.sys.brk ≤ userTop) : Grown lo s s :=
  .of_brk rfl rfl rfl rfl h rfl fun _ _ => rfl

theorem trans (h : Grown lo s s') (h' : Grown lo s' s'') : Grown lo s s'' where
  base := h'.base.trans h.base
  cookie := h'.cookie.trans h.cookie
  mmhead := h'.mmhead.trans h.mmhead
  le := h.le.trans h'.le
  top := h'.top
  byte y hy := by
    have := h'.le
    rw [h'.byte y hy, h.byte y (by omega)]
  page p := by
    have h₁ := System.pageCeil_le h.le
    have h₂ := System.pageCeil_le h'.le
    rw [h'.page, h.page]
    split_ifs <;> first | rfl | omega
  fresh p h₁ h₂ := by
    by_cases hp : p < pageCeil s'.sys.brk
    · exact h.fresh p h₁ hp
    · have := h'.fresh p (by omega) h₂
      rwa [h.page, if_neg (by omega)] at this

end Grown

theorem Quiet.grown (h : Quiet s s') (hb : s.sys.brk ≤ userTop) : Grown s.heap.firsthead s s' :=
  .of_brk (by rw [h.sys]) h.cookie h.mmhead h.brk hb h.page h.byte

/-- A request that `sbrk` has granted. -/
theorem Grown.of_extended (h : System.Extended s.sys x needed) : Grown lo s { s with sys := x } where
  base := h.base
  cookie := rfl
  mmhead := rfl
  le := by
    show s.sys.brk ≤ x.brk
    rw [h.brk]
    omega
  top := h.le
  byte y _ := congrFun h.byte y
  page := h.page
  fresh := h.fresh

/-- The payload of `b` is as it was. -/
def Intact (s s' : State) (b : Block) : Prop :=
  ∀ y, b.payload ≤ y → y < b.stop → s'.sys.mem.byte y = s.sys.mem.byte y

/-- The headers of a tiling lie apart from its payloads. -/
theorem Tiles.header_apart {e q : ℕ} (h : Tiles p bs e) (hc : c ∈ bs) (hq : q ∈ addrs bs) :
    q + 40 ≤ c.payload ∨ c.stop ≤ q := by
  obtain ⟨d, hd, rfl⟩ := hq
  simp only [Block.payload, Block.stop, sizeofMetadata]
  obtain rfl | h | h := h.eq_or_apart hd hc
  · omega
  · simp only [Block.stop, sizeofMetadata] at h
    omega
  · simp only [Block.stop, sizeofMetadata] at h
    omega

/-- A step that writes headers only leaves the payload of a block alone that stays. -/
theorem HeapStep.intact {p' e e' : ℕ} (h : HeapStep L H s s') (ht : Tiles p as e)
    (ht' : Tiles p' bs e') (hL : L ⊆ addrs as ∪ addrs bs) (hH : H ⊆ addrs as ∪ addrs bs)
    (hc : c ∈ as) (hc' : c ∈ bs) : Intact s s' c := by
  have hap : ∀ q ∈ addrs as ∪ addrs bs, q + 40 ≤ c.payload ∨ c.stop ≤ q := fun q hq =>
    hq.elim (ht.header_apart hc) (ht'.header_apart hc')
  refine fun y h₁ h₂ => h.byte y (fun q hq => ?_) fun q hq => ?_
  · have := hap q (hL hq)
    omega
  · have := hap q (hH hq)
    omega

/-! ### A block leaves the list, changes and returns -/

/-- A header may change in front of its links while it is out of the list. -/
theorem relist (hS : Spread L) (hnull : s.sys.mem.page 0 = false) (hC : Closed L s) (hp : p ∈ L)
    (h₁ : (heapListRemove p).run s = .ok ((), s₁)) (hpage : m.page = s₁.sys.mem.page)
    (hm : ∀ y, y < p ∨ p + 24 ≤ y → m.byte y = s₁.sys.mem.byte y)
    (h₂ : (heapListInsert p).run (s₁.setMem m) = .ok ((), s')) :
    HeapStep L {p} s s' ∧ Closed L s' ∧ s'.heap = { s.heap with head := s'.heap.head } ∧
      blockAt s'.sys.mem p = blockAt m p := by
  obtain ⟨k₁, hC₁⟩ := heapListRemove_closed hS hnull hp hC h₁
  have hlinks : SameLinks L s₁ (s₁.setMem m) := by
    refine .of_byte hS rfl fun q hq y hy₁ hy₂ => hm y ?_
    obtain rfl | h | h := hS.apart p hp q hq
    · omega
    · simp only [sizeofMetadata] at h; omega
    · simp only [sizeofMetadata] at h; omega
  have hL : insert p L = L := Set.insert_eq_of_mem hp
  have hnull₁ : (s₁.setMem m).sys.mem.page 0 = false := by
    rw [State.setMem_mem, hpage, k₁.page]
    exact hnull
  obtain ⟨k₂, hC₂⟩ := heapListInsert_closed (by rwa [hL]) hnull₁ (hlinks.closed hC₁) h₂
  rw [hL] at k₂ hC₂
  refine ⟨⟨?_, ?_, ?_, ?_, ?_, fun y hyL hyp => ?_⟩, hC₂, ?_, ?_⟩
  · rw [k₂.sys, State.setMem, k₁.sys]
  · rw [k₂.page, State.setMem_mem, hpage, k₁.page]
  · rw [k₂.cookie, State.setMem_mainCookie, k₁.cookie]
  · rw [k₂.heap, State.setMem_heap, k₁.heap]
  · rw [k₂.heap, State.setMem_heap, k₁.heap]
  · have := hyp p rfl
    rw [k₂.byte y hyL, State.setMem_mem, hm y (by omega), k₁.byte y hyL]
  · rw [k₂.heap, State.setMem_heap, k₁.heap]
  · exact k₂.blockAt_eq hS hp

/-- A complete list is complete again when the block returns. -/
theorem relist_listed (hS : Spread S) (hsub : addrs (as ++ [b]) ⊆ S)
    (hd : ((as ++ [b]).map Block.addr).Nodup) (hnull : s.sys.mem.page 0 = false)
    (hh : Headers s.sys.mem as) (hl : Listed s (as ++ [b])) (ha : b'.addr = b.addr)
    (h₁ : (heapListRemove b.addr).run s = .ok ((), s₁))
    (hm : ∀ y, y < b.addr ∨ b.addr + 24 ≤ y → m.byte y = s₁.sys.mem.byte y)
    (hb : blockAt m b.addr = b') (hok : insertOk as b'.size)
    (h₂ : (heapListInsert b.addr).run (s₁.setMem m) = .ok ((), s')) : Listed s' (as ++ [b']) := by
  obtain ⟨k₁, hl₁⟩ := hl.remove hS hsub hd hnull h₁
  rw [List.append_nil] at hl₁
  have hbS : b.addr ∈ S := hsub (mem_addrs (by simp))
  have hasS : addrs as ⊆ S := (addrs_mono fun c hc => mem_addrs (by simp [hc])).trans hsub
  have hap : ∀ c ∈ as, Apart b.addr c.addr := fun c hc => by
    refine (hS.apart b.addr hbS c.addr (hasS (mem_addrs hc))).resolve_left fun he => ?_
    rw [List.map_append, List.nodup_append] at hd
    exact hd.2.2 c.addr (List.mem_map_of_mem hc) b.addr (by simp) he.symm
  have hlinks : SameLinks (addrs as) s₁ (s₁.setMem m) := by
    refine .of_byte (hS.mono hasS) rfl fun q hq y hy₁ hy₂ => hm y ?_
    obtain ⟨c, hc, rfl⟩ := hq
    obtain h | h := hap c hc
    · simp only [sizeofMetadata] at h; omega
    · simp only [sizeofMetadata] at h; omega
  have hp : (b' :: as).Perm (as ++ [b']) := (List.perm_append_singleton b' as).symm
  have haddrs : (b' :: as).map Block.addr = b.addr :: as.map Block.addr := by rw [List.map_cons, ha]
  have hd' : ((b' :: as).map Block.addr).Nodup := by
    rw [haddrs, List.nodup_cons]
    refine ⟨fun hmem => ?_, (hd.sublist (List.map_append ▸ List.sublist_append_left _ _))⟩
    obtain ⟨c, hc, he⟩ := List.mem_map.mp hmem
    have := hap c hc
    simp only [Apart, sizeofMetadata] at this
    omega
  have hsub' : addrs (b' :: as) ⊆ S := by
    rintro _ ⟨c, hc, rfl⟩
    obtain rfl | hc := List.mem_cons.mp hc
    · rw [ha]
      exact hbS
    · exact hasS (mem_addrs hc)
  have hh' : Headers (s₁.setMem m).sys.mem (b' :: as) := by
    rintro c hc
    obtain rfl | hc := List.mem_cons.mp hc
    · rw [ha]
      exact hb
    · have hf : ∀ f : Field, f.offset < 24 →
          getField (s₁.setMem m).sys.mem f c.addr = getField s.sys.mem f c.addr := fun f hf => by
        rw [← k₁.getField_eq hS hf (hasS (mem_addrs hc))]
        refine getField_congr fun y hy₁ hy₂ => hm y ?_
        have hw := f.offset_width_le
        simp only [sizeofMetadata] at hw
        obtain h | h := hap c hc
        · simp only [sizeofMetadata] at h; omega
        · simp only [sizeofMetadata] at h; omega
      rw [blockAt, hf .size (by decide), hf .isFree (by decide)]
      exact hh c hc
  rw [← ha] at h₂
  obtain ⟨-, hl₂⟩ := (hl₁.sameLinks hlinks subset_rfl).insert hS hsub' hd' hh' hok h₂
  exact hl₂.perm hp

/-! ### The wilderness grows -/

theorem pageCeil_pos {a : ℕ} (h : 0 < a) : 0 < pageCeil a := by
  unfold pageCeil pageSize
  omega

theorem Tiled.firsthead_pos (h : Tiled s bs) (hb : bs ≠ []) : 0 < s.heap.firsthead :=
  Nat.pos_of_ne_zero (h.pos hb)

theorem blockAt_congr {m' : Memory} (h : ∀ y, p ≤ y → y < p + 24 → m'.byte y = m.byte y) :
    blockAt m' p = blockAt m p := by
  have hf : ∀ f : Field, f.offset + f.width ≤ 24 → getField m' f p = getField m f p := fun f hf =>
    getField_congr fun y h₁ h₂ => h y (by omega) (by omega)
  rw [blockAt, blockAt, hf .size (by decide), hf .isFree (by decide)]

/-- The last block has grown into the bytes that `sbrk` has granted. -/
theorem Laid.stretch (hl : Laid s (as ++ [b])) (hx : System.Extended s.sys x needed)
    (hS : Spread L) (hsub : addrs (as ++ [b]) ⊆ L)
    (hs : HeapStep L {b.addr} { s with sys := x } s')
    (hw : s'.heap.wilderness = s.heap.wilderness) (hb : blockAt s'.sys.mem b.addr = b')
    (hsz : b'.size = b.size + needed) : Laid s' (as ++ [b']) := by
  have ha : b'.addr = b.addr := addr_of_blockAt hb
  have hbL : b.addr ∈ L := hsub (mem_addrs (by simp))
  have hasL : addrs as ⊆ L := (addrs_mono fun c hc => mem_addrs (by simp [hc])).trans hsub
  have hpos := hl.tiled.firsthead_pos (by simp)
  have hbb := hl.tiled.bounds (b := b) (by simp)
  simp only [Block.stop, sizeofMetadata] at hbb
  have hfirst : s'.heap.firsthead = s.heap.firsthead := hs.firsthead
  have hbrk : s'.sys.brk = x.brk := hs.brk
  refine ⟨⟨?_, fun _ => ?_, fun _ => ?_, fun c hc => ?_, ?_, ?_⟩, ?_⟩
  · rw [hfirst, hl.tiled.first]
    exact firstAddr_append_cons as b b' [] [] ha.symm
  · rw [hfirst]
    omega
  · obtain ⟨q, h₁, h₂⟩ := Tiles.append_iff.mp (hl.tiled.tiles (by simp))
    simp only [tiles_cons, tiles_nil, Block.stop, sizeofMetadata] at h₂
    rw [hfirst, hbrk, hx.brk]
    refine Tiles.append_iff.mpr ⟨q, h₁, ?_⟩
    simp only [tiles_cons, tiles_nil, Block.stop, sizeofMetadata]
    omega
  · obtain hc | hc := List.mem_append.mp hc
    · have ht : Tiled s (as ++ ([b] ++ [])) := hl.tiled
      have hcb : c.addr ∉ ({b.addr} : Set ℕ) := fun he =>
        Tiled.addr_ne [b] ht (by simpa using hc) (by simp) he
      rw [hs.blockAt_of_not_mem hS subset_rfl (Set.singleton_subset_iff.mpr hbL)
        (hasL (mem_addrs hc)) hcb]
      exact (blockAt_congr fun y _ _ => congrFun hx.byte y).trans (hl.tiled.headers c (by simp [hc]))
    · obtain rfl := List.mem_singleton.mp hc
      rw [ha]
      exact hb
  · rw [hbrk]
    exact hx.le
  · have hp : s'.sys.mem.page = x.mem.page := hs.page
    rw [hp, hx.page, if_neg (by have := pageCeil_pos (a := s.sys.brk) (by omega); omega)]
    exact hl.tiled.null
  · rw [hw, hl.wilderness, lastAddr_concat, lastAddr_concat, ha]

/-- Behind `sbrk`, in the heap only. -/
theorem HeapStep.grown (hs : HeapStep L H { s with sys := x } s')
    (hx : System.Extended s.sys x needed)
    (hL : ∀ p ∈ L, s.heap.firsthead ≤ p ∧ p + 40 ≤ s.sys.brk)
    (hH : ∀ p ∈ H, s.heap.firsthead ≤ p ∧ p + 40 ≤ s.sys.brk) : Grown s.heap.firsthead s s' := by
  have hle : s.sys.brk ≤ x.brk := by
    rw [hx.brk]
    omega
  have hin : ∀ p, s.heap.firsthead ≤ p ∧ p + 40 ≤ s.sys.brk →
      s.heap.firsthead ≤ p ∧ p + 40 ≤ x.brk := fun p hp => ⟨hp.1, hp.2.trans hle⟩
  have hq : Quiet { s with sys := x } s' :=
    hs.quiet (fun p hp => hin p (hL p hp)) fun p hp => hin p (hH p hp)
  exact (Grown.of_extended hx).trans (hq.grown hx.le)

theorem growWilderness_cases (h : (growWilderness needed).run s = .ok ((), s')) :
    ∃ s₁ s₂, (heapListRemove s.heap.wilderness).run s = .ok ((), s₁) ∧
      (heapListInsert s.heap.wilderness).run (s₁.setMem (setField s₁.sys.mem .size
        s.heap.wilderness (add64 (getField s₁.sys.mem .size s.heap.wilderness) needed))) =
          .ok ((), s₂) ∧
      s' = s₂.mapHeap fun h => { h with numAllocatedBytes := add64 h.numAllocatedBytes needed } := by
  simp only [growWilderness, run_bind_eq_ok, getHeap_eq_ok, get_eq_ok, set_eq_ok, setHeap_eq_ok] at h
  obtain ⟨_, _, ⟨rfl, rfl⟩, _, s₁, h₁, _, _, ⟨-, rfl, rfl⟩, _, _, ⟨-, rfl⟩, _, s₂, h₂, rfl⟩ := h
  exact ⟨s₁, s₂, h₁, h₂, rfl⟩

theorem countStep_bytes {h h' : MemoryList} (e : h' = { h with
      head := h'.head, numAllocatedBytes := add64 h.numAllocatedBytes needed }) :
    CountStep h h' (0, 0, 0, (needed : ℤ)) := by
  rw [e]
  rintro ⟨i, j, k, l⟩ ⟨e₁, e₂, e₃, e₄, e₅⟩
  constructor
  all_goals simp only [add64_cast, Prod.mk_add_mk, add_zero, *]
  all_goals omega

/-- What the growth of the wilderness by `needed` bytes does. -/
structure Stretched (L : Set ℕ) (s s' : State) (x : System) (as : List Block) (b b' : Block) :
    Prop where
  laid : Laid s' (as ++ [b'])
  step : HeapStep L {b.addr} { s with sys := x } s'
  closed : Closed L s'
  listed : insertOk as b'.size → Listed s (as ++ [b]) → Listed s' (as ++ [b'])

/-- **The wilderness grows** in place. -/
theorem growWilderness_stretched (hsh : Shape L s (as ++ [b])) (hb : b.free = false)
    (hx : System.Extended s.sys x needed)
    (h : (growWilderness needed).run { s with sys := x } = .ok ((), s')) :
    Stretched L s s' x as b { b with size := b.size + needed } ∧
      CountStep s.heap s'.heap
        (counts (as ++ [{ b with size := b.size + needed }]) - counts (as ++ [b])) := by
  have hbm : b ∈ as ++ [b] := by simp
  have hbL : b.addr ∈ L := hsh.sub (mem_addrs hbm)
  have hble := hsh.tiled.stop_le hbm
  have hbs := hsh.tiled.size_eq hbm
  have hbf := hsh.tiled.free_eq hbm
  have hwild : s.heap.wilderness = b.addr := hsh.wilderness.trans (lastAddr_concat as b)
  have hst := (hsh.tiled.bounds hbm).2
  simp only [Block.stop, sizeofMetadata] at hst
  have htop := hx.le
  rw [hx.brk] at htop
  simp only [userTop] at htop
  obtain ⟨s₁, s₂, h₁, h₂, rfl⟩ := growWilderness_cases h
  replace h₁ : (heapListRemove b.addr).run { s with sys := x } = .ok ((), s₁) := hwild ▸ h₁
  simp only [hwild] at h₂
  -- the system has changed, but no byte
  have hlinks : SameLinks L s { s with sys := x } :=
    .of_byte hsh.spread rfl fun _ _ y _ _ => congrFun hx.byte y
  have hnull : x.mem.page 0 = false := by
    rw [hx.page, if_neg (by have := pageCeil_pos (a := s.sys.brk) (by omega); omega)]
    exact hsh.tiled.null
  have hC := hlinks.closed hsh.closed
  obtain ⟨k₁, -⟩ := heapListRemove_closed hsh.spread hnull hbL hC h₁
  have hxb : blockAt x.mem b.addr = b :=
    (blockAt_congr fun y _ _ => congrFun hx.byte y).trans (hsh.tiled.headers b hbm)
  have hb₁ : blockAt s₁.sys.mem b.addr = b := (k₁.blockAt_eq hsh.spread hbL).trans hxb
  have hs₁ : getField s₁.sys.mem .size b.addr = b.size := size_of_blockAt hb₁
  have hf₁ : (getField s₁.sys.mem .isFree b.addr != 0) = b.free := free_of_blockAt hb₁
  have hadd : add64 b.size needed = b.size + needed := add64_eq (by omega)
  rw [hs₁, hadd] at h₂
  have hm : ∀ y, y < b.addr ∨ b.addr + 24 ≤ y →
      (setField s₁.sys.mem .size b.addr (b.size + needed)).byte y = s₁.sys.mem.byte y := fun y hy =>
    Memory.write_byte_of_not_mem _ _ (by simp only [Field.offset, Field.width]; omega)
  have hb' : blockAt (setField s₁.sys.mem .size b.addr (b.size + needed)) b.addr =
      { b with size := b.size + needed } := by
    have hv : b.size + needed < 256 ^ Field.size.width := by
      simp only [Field.width]
      omega
    rw [blockAt, getField_setField_same hv, getField_setField_field (by decide), hf₁]
  have hpage : (setField s₁.sys.mem .size b.addr (b.size + needed)).page = s₁.sys.mem.page := rfl
  obtain ⟨hstep, hC', hheap, hat⟩ := relist hsh.spread hnull hC hbL h₁ hpage hm h₂
  have hstep' := hstep.mapHeap (f := fun h => { h with
    numAllocatedBytes := add64 h.numAllocatedBytes needed }) rfl rfl
  refine ⟨⟨hsh.laid.stretch hx hsh.spread hsh.sub hstep' ?_ (hat.trans hb') rfl, hstep',
    (SameLinks.mapHeap rfl).closed hC', fun hok hl => ?_⟩, ?_⟩
  · show s₂.heap.wilderness = _
    rw [hheap]
  · have hh : Headers x.mem as := fun c hc =>
      (blockAt_congr fun y _ _ => congrFun hx.byte y).trans (hsh.tiled.headers c (by simp [hc]))
    have ha : ({ b with size := b.size + needed } : Block).addr = b.addr := rfl
    have hl₂ : Listed s₂ (as ++ [{ b with size := b.size + needed }]) :=
      relist_listed (s := { s with sys := x }) hsh.spread hsh.sub hsh.tiled.nodup hnull hh
        (hl.sameLinks hlinks hsh.sub) ha h₁ hm hb' hok h₂
    exact hl₂.mapHeap rfl
  · have hd : counts (as ++ [{ b with size := b.size + needed }]) - counts (as ++ [b]) =
        (0, 0, 0, (needed : ℤ)) := by
      simp [Block.counts, hb]
    rw [hd]
    refine countStep_bytes ?_
    rw [State.mapHeap_heap, hheap]

theorem growFreeWilderness_cases (hr : r ≠ 0)
    (h : (growFreeWilderness size).run s = .ok (r, s')) :
    let w := s.heap.wilderness
    let used := getField s.sys.mem .size w
    ∃ s₁ s₂, (s.sys.sbrk (sub64 size used)).1 ≠ failed ∧
      (heapListRemove w).run { s with sys := (s.sys.sbrk (sub64 size used)).2 } = .ok ((), s₁) ∧
      (heapListInsert w).run (s₁.setMem (setField (setField s₁.sys.mem .isFree w 0) .size w
        (add64 (getField (setField s₁.sys.mem .isFree w 0) .size w) (sub64 size used)))) =
          .ok ((), s₂) ∧
      s' = s₂.mapHeap (fun h => { h with
        numFreeBlocks := sub64 h.numFreeBlocks 1
        numFreeBytes := sub64 h.numFreeBytes used
        numAllocatedBytes := add64 h.numAllocatedBytes (sub64 size used) }) ∧
      r = add64 w sizeofMetadata := by
  simp only [growFreeWilderness, run_bind_eq_ok, run_ite_eq_ok, getHeap_eq_ok, get_eq_ok, set_eq_ok,
    setHeap_eq_ok, setFree_eq_ok, sbrk_eq_ok, pure_eq_ok] at h
  obtain ⟨_, _, ⟨rfl, rfl⟩, _, _, hv, _, _, ⟨-, rfl, rfl⟩, _, _, ⟨rfl, rfl⟩, h⟩ := h
  obtain rfl := validateCookie_eq_ok hv
  obtain ⟨-, rfl, -⟩ | ⟨hf, _, s₁, h₁, _, _, ⟨-, rfl⟩, _, _, ⟨-, rfl, rfl⟩, _, _, ⟨-, rfl⟩, _, s₂, h₂,
    _, _, rfl, rfl, rfl⟩ := h
  · exact absurd rfl hr
  · exact ⟨s₁, s₂, hf, h₁, h₂, rfl, rfl⟩

/-- The flag is `false` and the wilderness has grown, once the counters are set. -/
theorem countStep_reuse {h h' : MemoryList} {used : ℕ} (e : h' = { h with
      head := h'.head
      numFreeBlocks := sub64 h.numFreeBlocks 1
      numFreeBytes := sub64 h.numFreeBytes used
      numAllocatedBytes := add64 h.numAllocatedBytes needed }) :
    CountStep h h' (-1, -(used : ℤ), 0, (needed : ℤ)) := by
  rw [e]
  rintro ⟨i, j, k, l⟩ ⟨e₁, e₂, e₃, e₄, e₅⟩
  constructor
  all_goals simp only [add64_cast, sub64_cast, Prod.mk_add_mk, add_zero, *]
  all_goals omega

/-- **A free wilderness that is too small** is enlarged and handed out. -/
theorem growFreeWilderness_stretched (hw : Whole s (as ++ [b])) (hb : b.free = true)
    (hlt : b.size < size) (hs : size ≤ sizeLimit) (hr : r ≠ 0)
    (h : (growFreeWilderness size).run s = .ok (r, s')) :
    r = b.payload ∧ ∃ x, System.Extended s.sys x (size - b.size) ∧
      Stretched (addrs (as ++ [b])) s s' x as b ⟨b.addr, size, false⟩ ∧
      CountStep s.heap s'.heap
        (counts (as ++ [⟨b.addr, size, false⟩]) - counts (as ++ [b])) := by
  have hsh := hw.shape
  have hS := hsh.spread
  have hbm : b ∈ as ++ [b] := by simp
  have hbL : b.addr ∈ addrs (as ++ [b]) := mem_addrs hbm
  have hble := hsh.tiled.stop_le hbm
  have hst := (hsh.tiled.bounds hbm).2
  simp only [Block.stop, sizeofMetadata] at hst
  simp only [sizeLimit] at hs
  have hwild : s.heap.wilderness = b.addr := hsh.wilderness.trans (lastAddr_concat as b)
  have hbs := hsh.tiled.size_eq hbm
  have hsub : sub64 size b.size = size - b.size := sub64_eq hlt.le (by omega)
  obtain ⟨s₁, s₂, hf, h₁, h₂, rfl, rfl⟩ := growFreeWilderness_cases hr h
  simp only [hwild, hbs, hsub] at hf h₁ h₂ ⊢
  obtain ⟨hf', -⟩ | ⟨-, -, hx⟩ := System.sbrk_cases s.sys (n := size - b.size) (by omega)
    hsh.tiled.brk_le
  · exact absurd hf' hf
  refine ⟨?_, (s.sys.sbrk (size - b.size)).2, hx, ?_⟩
  · rw [add64_eq (by simp only [sizeofMetadata]; omega), Block.payload]
  generalize (s.sys.sbrk (size - b.size)).2 = x at hx h₁ ⊢
  have htop := hx.le
  rw [hx.brk] at htop
  simp only [userTop] at htop
  -- the system has changed, but no byte
  have hlinks : SameLinks (addrs (as ++ [b])) s { s with sys := x } :=
    .of_byte hS rfl fun _ _ y _ _ => congrFun hx.byte y
  have hnull : x.mem.page 0 = false := by
    rw [hx.page, if_neg (by have := pageCeil_pos (a := s.sys.brk) (by omega); omega)]
    exact hsh.tiled.null
  have hC := hlinks.closed hsh.closed
  obtain ⟨k₁, -⟩ := heapListRemove_closed hS hnull hbL hC h₁
  have hxb : blockAt x.mem b.addr = b :=
    (blockAt_congr fun y _ _ => congrFun hx.byte y).trans (hsh.tiled.headers b hbm)
  have hs₁ : getField s₁.sys.mem .size b.addr = b.size :=
    size_of_blockAt ((k₁.blockAt_eq hS hbL).trans hxb)
  have hadd : add64 b.size (size - b.size) = size := by
    rw [add64_eq (by omega)]
    omega
  rw [getField_setField_field (by decide), hs₁, hadd] at h₂
  generalize hm' : setField (setField s₁.sys.mem .isFree b.addr 0) .size b.addr size = m at h₂
  have hm : ∀ y, y < b.addr ∨ b.addr + 24 ≤ y → m.byte y = s₁.sys.mem.byte y := fun y hy => by
    rw [← hm', setField, setField, Memory.write_byte_of_not_mem _ _ (by
      simp only [Field.offset, Field.width]; omega), Memory.write_byte_of_not_mem _ _ (by
      simp only [Field.offset, Field.width]; omega)]
  have hpage : m.page = s₁.sys.mem.page := by
    rw [← hm']
    rfl
  have hb' : blockAt m b.addr = ⟨b.addr, size, false⟩ := by
    have hv : size < 256 ^ Field.size.width := by
      simp only [Field.width]
      omega
    rw [← hm', blockAt, getField_setField_same hv, getField_setField_field (by decide),
      getField_setField_same (by decide)]
    rfl
  obtain ⟨hstep, hC', hheap, hat⟩ := relist hS hnull hC hbL h₁ hpage hm h₂
  have hstep' := hstep.mapHeap (f := fun h => { h with
    numFreeBlocks := sub64 h.numFreeBlocks 1
    numFreeBytes := sub64 h.numFreeBytes b.size
    numAllocatedBytes := add64 h.numAllocatedBytes (size - b.size) }) rfl rfl
  have hwild' : s₂.heap.wilderness = s.heap.wilderness := by rw [hheap]
  refine ⟨⟨hsh.laid.stretch hx hS subset_rfl hstep' hwild' (hat.trans hb') ?_, hstep',
    (SameLinks.mapHeap rfl).closed hC', fun hok hl => ?_⟩, ?_⟩
  · show size = b.size + (size - b.size)
    omega
  · have hh : Headers x.mem as := fun c hc =>
      (blockAt_congr fun y _ _ => congrFun hx.byte y).trans (hsh.tiled.headers c (by simp [hc]))
    have ha : (⟨b.addr, size, false⟩ : Block).addr = b.addr := rfl
    have hl₂ : Listed s₂ (as ++ [⟨b.addr, size, false⟩]) :=
      relist_listed (s := { s with sys := x }) hS subset_rfl hsh.tiled.nodup hnull hh
        (hl.sameLinks hlinks subset_rfl) ha h₁ hm hb' hok h₂
    exact hl₂.mapHeap rfl
  · have hd : counts (as ++ [⟨b.addr, size, false⟩]) - counts (as ++ [b]) =
        (-1, -(b.size : ℤ), 0, ((size - b.size : ℕ) : ℤ)) := by
      have : ((size - b.size : ℕ) : ℤ) = size - b.size := by omega
      simp [Block.counts, hb, this]
    rw [hd]
    refine countStep_reuse ?_
    rw [State.mapHeap_heap, hheap]

/-! ### A new block -/

/-- The three fields of a new header at `a` that lie in front of the links. -/
def newBlock (m : Memory) (cookie a size : ℕ) : Memory :=
  setField (setField (setField m .cookie a cookie) .isFree a 0) .size a size

theorem newBlock_byte {cookie a y : ℕ} (h : y < a ∨ a + 24 ≤ y) :
    (newBlock m cookie a size).byte y = m.byte y := by
  rw [newBlock, setField, setField, setField, Memory.write_byte_of_not_mem _ _ (by
    simp only [Field.offset, Field.width]; omega), Memory.write_byte_of_not_mem _ _ (by
    simp only [Field.offset, Field.width]; omega), Memory.write_byte_of_not_mem _ _ (by
    simp only [Field.offset, Field.width]; omega)]

theorem blockAt_newBlock {cookie a : ℕ} (h : size < 2 ^ 64) :
    blockAt (newBlock m cookie a size) a = ⟨a, size, false⟩ := by
  have hv : size < 256 ^ Field.size.width := by
    simp only [Field.width]
    omega
  rw [newBlock, blockAt, getField_setField_same hv, getField_setField_field (by decide),
    getField_setField_same (by decide)]
  rfl

/-- The counters after a new block was obtained. -/
theorem countStep_new {h h' : MemoryList} (e : h' = { h with
      head := h'.head
      firsthead := h'.firsthead
      wilderness := h'.wilderness
      mmhead := h'.mmhead
      numAllocatedBlocks := add64 h.numAllocatedBlocks 1
      numAllocatedBytes := add64 h.numAllocatedBytes size
      numMetaDataBytes := add64 h.numMetaDataBytes sizeofMetadata }) :
    CountStep h h' (0, 0, 1, (size : ℤ)) := by
  rw [e]
  rintro ⟨i, j, k, l⟩ ⟨e₁, e₂, e₃, e₄, e₅⟩
  constructor
  all_goals simp only [add64_cast, Prod.mk_add_mk, add_zero, sizeofMetadata, *]
  all_goals omega

theorem counts_new (a size : ℕ) (bs : List Block) :
    counts (bs ++ [⟨a, size, false⟩]) - counts bs = (0, 0, 1, (size : ℤ)) := by
  simp [Block.counts]

theorem appendBlock_cases (hr : r ≠ 0) (h : (appendBlock size).run s = .ok (r, s')) :
    let a := (s.sys.sbrk (add64 size sizeofMetadata)).1
    let x := (s.sys.sbrk (add64 size sizeofMetadata)).2
    a ≠ failed ∧ r = add64 a sizeofMetadata ∧ ∃ t : State,
      t.sys = { x with mem := newBlock x.mem s.mainCookie.toNat a size } ∧
      t.heap = { s.heap with
        wilderness := a
        numAllocatedBlocks := add64 s.heap.numAllocatedBlocks 1
        numAllocatedBytes := add64 s.heap.numAllocatedBytes size
        numMetaDataBytes := add64 s.heap.numMetaDataBytes sizeofMetadata } ∧
      t.mainCookie = s.mainCookie ∧ (heapListInsert a).run t = .ok ((), s') := by
  simp only [appendBlock, newAllocAdjustment, run_bind_eq_ok, run_ite_eq_ok, set_eq_ok, setHeap_eq_ok,
    setFree_eq_ok, sbrk_eq_ok, gets_eq_ok, pure_eq_ok] at h
  obtain ⟨_, _, ⟨rfl, rfl⟩, ⟨-, rfl, -⟩ | ⟨hf, _, _, rfl, _, _, ⟨rfl, rfl⟩, _, _, ⟨-, rfl⟩, _, _,
    ⟨-, rfl⟩, _, _, ⟨-, rfl⟩, _, _, rfl, _, s₁, h, rfl, rfl⟩⟩ := h
  · exact absurd rfl hr
  · refine ⟨hf, rfl, _, ?_, ?_, ?_, h⟩ <;> rfl

/-- What a new block behind the wilderness does. -/
structure Appended (s s' : State) (bs : List Block) (c : Block) : Prop where
  shape : Shape (addrs (bs ++ [c])) s' (bs ++ [c])
  grown : Grown s'.heap.firsthead s s'
  firsthead : bs ≠ [] → s'.heap.firsthead = s.heap.firsthead
  counts : CountStep s.heap s'.heap (counts (bs ++ [c]) - counts bs)
  intact : ∀ d ∈ bs, Intact s s' d
  listed : insertOk bs c.size → Listed s bs → Listed s' (bs ++ [c])

/-- **A new block** behind the wilderness is handed out. -/
theorem appendBlock_appended (hw : Whole s bs) (hne : bs ≠ []) (hs : size ≤ sizeLimit) (hr : r ≠ 0)
    (h : (appendBlock size).run s = .ok (r, s')) :
    r = s.sys.brk + sizeofMetadata ∧ Appended s s' bs ⟨s.sys.brk, size, false⟩ := by
  have hsh := hw.shape
  have hbrk := hsh.tiled.brk_le
  have hpos := hsh.tiled.firsthead_pos hne
  have htile := hsh.tiled.tiles hne
  have hle := htile.le
  simp only [sizeLimit] at hs
  simp only [userTop] at hbrk
  have hadd : add64 size sizeofMetadata = size + 40 := add64_eq (by
    simp only [sizeofMetadata]
    omega)
  obtain ⟨hf, hrv, t, htsys, htheap, htcookie, hi⟩ := appendBlock_cases hr h
  rw [hadd] at hf hrv htsys htheap hi
  obtain ⟨hf', -⟩ | ⟨ha, -, hx⟩ := System.sbrk_cases s.sys (n := size + 40) (by omega)
    hsh.tiled.brk_le
  · exact absurd hf' hf
  rw [ha] at hrv htsys htheap hi
  generalize (s.sys.sbrk (size + 40)).2 = x at hx htsys
  refine ⟨hrv.trans (add64_eq (by simp only [sizeofMetadata]; omega)), ?_⟩
  generalize hc : (⟨s.sys.brk, size, false⟩ : Block) = c
  have hca : c.addr = s.sys.brk := by rw [← hc]
  have hcsz : c.size = size := by rw [← hc]
  have hcstop : c.stop = x.brk := by
    rw [hx.brk, Block.stop, hca, hcsz, sizeofMetadata]
    omega
  -- in `t` the header of the new block is written, and the block is not yet listed
  have hbyte : ∀ y, y < s.sys.brk ∨ s.sys.brk + 24 ≤ y →
      t.sys.mem.byte y = s.sys.mem.byte y := fun y hy => by
    rw [htsys]
    exact (newBlock_byte hy).trans (congrFun hx.byte y)
  have hpage : t.sys.mem.page = x.mem.page := by
    rw [htsys]
    rfl
  have hnull : t.sys.mem.page 0 = false := by
    rw [hpage, hx.page, if_neg (by have := pageCeil_pos (a := s.sys.brk) (by omega); omega)]
    exact hsh.tiled.null
  have hlinks : SameLinks (addrs bs) s t := by
    refine .of_byte hsh.spread (by rw [htheap]) fun p hp y hy₁ hy₂ => hbyte y ?_
    have := hsh.tiled.header_bounds hp
    omega
  have htile' : Tiles s.heap.firsthead (bs ++ [c]) x.brk := by
    refine Tiles.append_iff.mpr ⟨s.sys.brk, htile, ?_⟩
    simp [hca, hcstop]
  have hS : Spread (addrs (bs ++ [c])) := htile'.spread (by omega) hx.le
  have hins : insert s.sys.brk (addrs bs) = addrs (bs ++ [c]) := by
    rw [addrs_append, addrs_singleton, hca, Set.union_singleton]
  have hC := hlinks.closed hsh.closed
  obtain ⟨k, hC'⟩ := heapListInsert_closed (hins ▸ hS) hnull hC hi
  rw [hins] at k hC'
  have hheaders : Headers t.sys.mem (bs ++ [c]) := by
    intro d hd
    obtain hd | hd := List.mem_append.mp hd
    · refine (blockAt_congr fun y hy₁ hy₂ => hbyte y ?_).trans (hsh.tiled.headers d hd)
      have := hsh.tiled.header_bounds (mem_addrs hd)
      omega
    · obtain rfl := List.mem_singleton.mp hd
      rw [htsys, hca, ← hc]
      exact blockAt_newBlock (by omega)
  have hfirst : s'.heap.firsthead = s.heap.firsthead := by rw [k.heap, htheap]
  have hsysbrk : s'.sys.brk = x.brk := by
    rw [k.sys]
    show t.sys.brk = x.brk
    rw [htsys]
  have hpage' : s'.sys.mem.page = x.mem.page := by rw [k.page, hpage]
  refine ⟨⟨hS, subset_rfl, hC', ⟨?_, fun _ => ?_, fun _ => ?_, fun d hd => ?_, ?_, ?_⟩, ?_⟩, ?_,
    fun _ => hfirst, ?_, fun d hd y hy₁ hy₂ => ?_, fun hok hl => ?_⟩
  · rw [hfirst, hsh.tiled.first]
    cases bs with
    | nil => exact absurd rfl hne
    | cons b bs => rfl
  · rw [hfirst]
    omega
  · rw [hfirst, hsysbrk]
    exact htile'
  · rw [k.blockAt_eq hS (mem_addrs hd)]
    exact hheaders d hd
  · rw [hsysbrk]
    exact hx.le
  · rw [k.page]
    exact hnull
  · rw [k.heap, lastAddr_concat, hca]
    show t.heap.wilderness = s.sys.brk
    rw [htheap]
  · have hxb := hx.brk
    refine ⟨?_, ?_, ?_, by omega, by rw [hsysbrk]; exact hx.le, fun y hy => ?_, fun p => ?_,
      fun p h₁ h₂ => hx.fresh p h₁ (by rwa [hsysbrk] at h₂)⟩
    · rw [k.sys]
      show t.sys.base = _
      rw [htsys]
      exact hx.base
    · rw [k.cookie, htcookie]
    · rw [k.heap]
      show t.heap.mmhead = _
      rw [htheap]
    · rw [hfirst, hsysbrk] at hy
      rw [k.byte y fun p hp => ?_]
      · exact hbyte y (by omega)
      · rw [← hins] at hp
        obtain rfl | hp := hp
        · omega
        · have := hsh.tiled.header_bounds hp
          omega
    · rw [hpage', hsysbrk]
      exact hx.page p
  · rw [← hc, counts_new]
    exact countStep_new (by rw [k.heap]; simp only [htheap])
  · have hdm : d ∈ bs ++ [c] := List.mem_append_left _ hd
    have hdb := hsh.tiled.bounds hd
    rw [k.byte y fun p hp => ?_]
    · exact hbyte y (by omega)
    · have := htile'.header_apart hdm hp
      omega
  · have hp : (c :: bs).Perm (bs ++ [c]) := (List.perm_append_singleton c bs).symm
    have hnd := htile'.nodup_addr
    rw [← hca] at hi
    obtain ⟨-, hl'⟩ := (hl.sameLinks hlinks subset_rfl).insert hS
      (addrs_mono fun d hd => mem_addrs (hp.mem_iff.mp hd)) (((hp.map Block.addr).nodup_iff).mpr hnd)
      (fun d hd => hheaders d (hp.mem_iff.mp hd)) hok hi
    exact hl'.perm hp

theorem firstAllocation_cases (hr : r ≠ 0) (h : (firstAllocation size).run s = .ok (r, s')) :
    let a := (s.sys.sbrk (add64 size sizeofMetadata)).1
    let x := (s.sys.sbrk (add64 size sizeofMetadata)).2
    a ≠ failed ∧ r = add64 a sizeofMetadata ∧ s'.mainCookie = s.mainCookie ∧
      s'.sys = { x with mem := setField (setField (setField (setField (setField x.mem .cookie a
        s.mainCookie.toNat) .isFree a 0) .next a 0) .prev a 0) .size a size } ∧
      s'.heap = { s.heap with
        head := a
        wilderness := a
        firsthead := a
        numAllocatedBlocks := add64 s.heap.numAllocatedBlocks 1
        numAllocatedBytes := add64 s.heap.numAllocatedBytes size
        numMetaDataBytes := add64 s.heap.numMetaDataBytes sizeofMetadata } := by
  simp only [firstAllocation, newAllocAdjustment, run_bind_eq_ok, run_ite_eq_ok, set_eq_ok,
    setHeap_eq_ok, setFree_eq_ok, sbrk_eq_ok, gets_eq_ok, pure_eq_ok] at h
  obtain ⟨_, _, ⟨rfl, rfl⟩, ⟨-, rfl, -⟩ | ⟨hf, _, _, rfl, _, _, ⟨rfl, rfl⟩, _, _, ⟨-, rfl⟩, _, _,
    ⟨-, rfl⟩, _, _, ⟨-, rfl⟩, _, _, ⟨-, rfl⟩, _, _, ⟨-, rfl⟩, _, _, rfl, _, _, rfl, rfl, rfl⟩⟩ := h
  · exact absurd rfl hr
  · exact ⟨hf, rfl, rfl, rfl, rfl⟩

/-- **The first block** is handed out. -/
theorem firstAllocation_appended (hw : Whole s []) (hpos : 0 < s.sys.brk) (hs : size ≤ sizeLimit)
    (hr : r ≠ 0) (h : (firstAllocation size).run s = .ok (r, s')) :
    r = s.sys.brk + sizeofMetadata ∧ Appended s s' [] ⟨s.sys.brk, size, false⟩ := by
  have hbrk := hw.tiled.brk_le
  simp only [sizeLimit] at hs
  simp only [userTop] at hbrk
  have hadd : add64 size sizeofMetadata = size + 40 := add64_eq (by
    simp only [sizeofMetadata]
    omega)
  obtain ⟨hf, hrv, hcookie, hsys, hheap⟩ := firstAllocation_cases hr h
  rw [hadd] at hf hrv hsys hheap
  obtain ⟨hf', -⟩ | ⟨ha, -, hx⟩ := System.sbrk_cases s.sys (n := size + 40) (by omega)
    hw.tiled.brk_le
  · exact absurd hf' hf
  rw [ha] at hrv hsys hheap
  generalize (s.sys.sbrk (size + 40)).2 = x at hx hsys
  refine ⟨hrv.trans (add64_eq (by simp only [sizeofMetadata]; omega)), ?_⟩
  have hxa := hx.brk
  have hxle := hx.le
  have hsz : size < 256 ^ Field.size.width := by
    simp only [Field.width]
    omega
  have hne : s.sys.brk ≠ 0 := by omega
  -- the header of the block
  have hat : blockAt s'.sys.mem s.sys.brk = ⟨s.sys.brk, size, false⟩ := by
    rw [hsys, blockAt, getField_setField_same hsz, getField_setField_field (by decide),
      getField_setField_field (by decide), getField_setField_field (by decide),
      getField_setField_same (by decide)]
    rfl
  have hnext : getField s'.sys.mem .next s.sys.brk = 0 := by
    rw [hsys, getField_setField_field (by decide), getField_setField_field (by decide),
      getField_setField_same (by decide)]
  have hprev : getField s'.sys.mem .prev s.sys.brk = 0 := by
    rw [hsys, getField_setField_field (by decide), getField_setField_same (by decide)]
  have hbyte : ∀ y, y < s.sys.brk ∨ s.sys.brk + 40 ≤ y →
      s'.sys.mem.byte y = s.sys.mem.byte y := fun y hy => by
    have hf : ∀ (m : Memory) (f : Field) (v : ℕ), (setField m f s.sys.brk v).byte y = m.byte y :=
      fun m f v => Memory.write_byte_of_not_mem _ _ (by
        have := f.offset_width_le
        simp only [sizeofMetadata] at this
        omega)
    rw [hsys, hf, hf, hf, hf, hf, hx.byte]
  have hpage : s'.sys.mem.page = x.mem.page := by
    rw [hsys]
    rfl
  have hsysbrk : s'.sys.brk = x.brk := by rw [hsys]
  have hfirst : s'.heap.firsthead = s.sys.brk := by rw [hheap]
  have hhead : s'.heap.head = s.sys.brk := by rw [hheap]
  have hnull : s'.sys.mem.page 0 = false := by
    rw [hpage, hx.page, if_neg (by have := pageCeil_pos hpos; omega)]
    exact hw.tiled.null
  have htile : Tiles s.sys.brk [⟨s.sys.brk, size, false⟩] x.brk := by
    simp only [tiles_cons, tiles_nil, Block.stop, sizeofMetadata, true_and]
    omega
  have hS := htile.spread hne hxle
  have hmem : s.sys.brk ∈ addrs [(⟨s.sys.brk, size, false⟩ : Block)] := ⟨_, List.mem_cons_self, rfl⟩
  have hnx : nxt s' s.sys.brk = 0 := by rw [nxt, if_neg hne, hnext]
  refine ⟨⟨hS, subset_rfl, ⟨?_, ?_⟩, ⟨hfirst, fun _ => ?_, fun _ => ?_, fun d hd => ?_, ?_, hnull⟩,
    by rw [hheap]; rfl⟩, ?_, fun h => absurd rfl h, ?_, fun d hd => absurd hd List.not_mem_nil,
    fun _ _ => ?_⟩
  · rintro p (rfl | ⟨d, hd, rfl⟩)
    · refine .inr ?_
      rw [nxt, if_pos rfl, hhead]
      exact hmem
    · obtain rfl := List.mem_singleton.mp hd
      exact .inl hnx
  · rintro _ ⟨d, hd, rfl⟩
    obtain rfl := List.mem_singleton.mp hd
    exact .inl hprev
  · rw [hfirst]
    exact hne
  · rw [hfirst, hsysbrk]
    exact htile
  · obtain rfl := List.mem_singleton.mp hd
    exact hat
  · rw [hsysbrk]
    exact hxle
  · refine ⟨by rw [hsys]; exact hx.base, hcookie, by rw [hheap], by omega, by rw [hsysbrk]; exact hxle,
      fun y hy => hbyte y (by omega), fun p => ?_, fun p h₁ h₂ => hx.fresh p h₁ (by rwa [hsysbrk] at h₂)⟩
    rw [hpage, hsysbrk]
    exact hx.page p
  · rw [counts_new s.sys.brk size []]
    exact countStep_new (by rw [hheap])
  · refine ⟨[⟨s.sys.brk, size, false⟩], .refl _, by simp, ⟨?_, hne, by simp, hnx⟩, ?_⟩
    · rw [nxt, if_pos rfl, hhead]
    · intro p hp
      obtain rfl : s.sys.brk = p := by simpa using hp
      exact hprev

end OsProjects.Malloc3
