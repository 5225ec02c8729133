import OsProjects.VirtualMemory.Malloc3.Sound

/-! # Sound runs that can be evaluated

Whether a call reaches a defect is decidable: the blocks can be read off the memory, and the
condition looks only at finitely many of them and at the answers of the kernel.  So a run can be
replayed from a list of events, call by call, with the condition checked in front of each
(`exists_of_execSound`). -/

namespace OsProjects.Malloc3

variable {s : State} {as bs cs mm order : List Block} {b : Block} {n size brk : ℕ} {w w' : World}

/-! ### The condition is decidable -/

instance (order bs : List Block) (size : ℕ) : Decidable (Serves order bs size) :=
  decidable_of_iff
    (smallocOk order bs size ∧ ∀ f ∈ found order size, splitSize f.size size < mmapThreshold)
    ⟨fun h => ⟨h.1, h.2⟩, fun h => ⟨h.list, h.kind⟩⟩

instance (s : State) (order bs : List Block) (size : ℕ) : Decidable (SoundRequest s order bs size) :=
  inferInstanceAs (Decidable (_ ∨ (_ → _)))

instance : (path : Path) → Decidable (path.Refuses s order as b cs size)
  | .grow => inferInstanceAs (Decidable (_ = _))
  | .move => inferInstanceAs (Decidable (Malloc3.Refuses _ _ _ _))
  | .reuse | .lower _ | .lowerGrow _ | .upper _ | .both _ _ | .bothGrow _ _ | .upperGrow _ =>
    .isFalse not_false

instance : (path : Path) → Decidable (path.listOk order as b cs brk size)
  | .reuse => inferInstanceAs (Decidable (splitOk _ _ _))
  | .lower _ => inferInstanceAs (Decidable (insertOk _ _ ∧ splitOk _ _ _ ∧ mergeOk _))
  | .lowerGrow _ => inferInstanceAs (Decidable (insertOk _ _ ∧ insertOk _ _))
  | .grow => inferInstanceAs (Decidable (insertOk _ _))
  | .upper _ => inferInstanceAs (Decidable (insertOk _ _ ∧ splitOk _ _ _))
  | .both _ _ => inferInstanceAs (Decidable ((insertOk _ _ ∧ insertOk _ _) ∧ splitOk _ _ _))
  | .bothGrow _ _ => inferInstanceAs (Decidable ((insertOk _ _ ∧ insertOk _ _) ∧ insertOk _ _))
  | .upperGrow _ => inferInstanceAs (Decidable (insertOk _ _ ∧ insertOk _ _))
  | .move => inferInstanceAs (Decidable (smallocOk _ _ _ ∧ mergeOk _))

instance : (path : Path) → Decidable (path.KeepsSize b size)
  | .lower _ => inferInstanceAs (Decidable (SplitAvoids _ _ _ _))
  | .reuse | .grow | .move | .lowerGrow _ | .upper _ | .both _ _ | .bothGrow _ _ | .upperGrow _ =>
    .isTrue trivial

instance : (path : Path) → Decidable (path.KeepsParted b cs size)
  | .reuse => inferInstanceAs (Decidable (_ → ∀ c ∈ cs.head?, _))
  | .lower _ | .grow | .move | .lowerGrow _ | .upper _ | .both _ _ | .bothGrow _ _ | .upperGrow _ =>
    .isTrue trivial

instance : (path : Path) → Decidable path.MergesFirst
  | .lowerGrow _ | .bothGrow _ _ | .upperGrow _ => .isTrue trivial
  | .reuse | .lower _ | .grow | .upper _ | .both _ _ | .move => .isFalse not_false

instance (path : Path) : Decidable (path.Serves s order as b cs size) :=
  decidable_of_iff
    ((path ≠ .move ∨ size < mmapThreshold → path.listOk order as b cs s.sys.brk size) ∧
      (path = .move → mmapThreshold ≤ size → mergeOk (freeBlock (as ++ b :: cs) b)) ∧
      (path ≠ .move → splitSize (path.room b size) size < mmapThreshold) ∧
      (path = .move → size < mmapThreshold →
        ∀ f ∈ found order size, splitSize f.size size < mmapThreshold) ∧
      path.KeepsSize b size ∧ path.KeepsParted b cs size ∧
      (path.MergesFirst → (s.sys.sbrk (path.needs b size)).1 ≠ failed))
    ⟨fun h => ⟨h.1, h.2.1, h.2.2.1, h.2.2.2.1, h.2.2.2.2.1, h.2.2.2.2.2.1, h.2.2.2.2.2.2⟩,
      fun h => ⟨h.list, h.listMmap, h.kind, h.kindMove, h.kept, h.parted, h.grows⟩⟩

instance (s : State) (order as : List Block) (b : Block) (cs : List Block) (size : ℕ) :
    Decidable (SoundPath s order as b cs size) := inferInstanceAs (Decidable (_ ∨ _))

/-- A block with those in front of it and behind it stands at an index. -/
theorem forall_split_iff {P : List Block → Block → List Block → Prop} :
    (∀ as b cs, bs = as ++ b :: cs → P as b cs) ↔
      ∀ i : Fin bs.length, P (bs.take i) bs[i] (bs.drop (i + 1)) := by
  constructor
  · intro h i
    refine h _ _ _ ?_
    rw [Fin.getElem_fin, List.cons_getElem_drop_succ, List.take_append_drop]
  · rintro h as b cs rfl
    have hi : as.length < (as ++ b :: cs).length := by simp
    simpa using h ⟨as.length, hi⟩

instance (s : State) (order bs : List Block) (oldp size : ℕ) :
    Decidable (∀ as b cs, bs = as ++ b :: cs → b.free = false → b.payload = oldp →
      SoundPath s order as b cs size) := decidable_of_iff _ forall_split_iff.symm

instance : (c : Call) → Decidable (c.Sound s order bs mm)
  | .smalloc size => inferInstanceAs (Decidable (SoundRequest s order bs size))
  | .scalloc num size => inferInstanceAs (Decidable (Refuses s order bs (num * size % 2 ^ 64) ∨
      num * size < 2 ^ 64 ∧ SoundRequest s order bs (num * size)))
  | .sfree p =>
    decidable_of_iff (∀ b ∈ bs, b.free = false → b.payload = p → mergeOk (freeBlock bs b))
      ⟨fun h b hb => h b hb.1 hb.2, fun h b hb hf => h b ⟨hb, hf⟩⟩
  | .srealloc oldp size => inferInstanceAs (Decidable (if oldp = 0 then SoundRequest s order bs size
      else size = 0 ∨ sizeLimit < size ∨
        (∀ as b cs, bs = as ++ b :: cs → b.free = false → b.payload = oldp →
          SoundPath s order as b cs size) ∧
        ∀ b ∈ mm, b.payload = oldp → b.size ≠ size → SoundRequest s order bs size))

instance (s : State) (mm : List Block) : Decidable (MmBlocks s mm) := decidableChainWalk _ _ _

/-! ### The blocks of a state -/

/-- The blocks along `next` from `p`, at most `n`. -/
def chainFrom (m : Memory) : ℕ → ℕ → List Block
  | 0, _ => []
  | n + 1, p => if p = 0 then [] else blockAt m p :: chainFrom m n (getField m .next p)

/-- The blocks in address order from `p` to `stop`, at most `n`. -/
def walkFrom (m : Memory) (stop : ℕ) : ℕ → ℕ → List Block
  | 0, _ => []
  | n + 1, p =>
    if p = stop then []
    else blockAt m p :: walkFrom m stop n (p + sizeofMetadata + getField m .size p)

/-- The call reaches no defect, in a state with at most `n` blocks of each kind. -/
def Event.checkSound (n : ℕ) (w : World) : Event → Bool
  | .call c =>
    let s := w.state
    let order := chainFrom s.sys.mem n s.heap.head
    let bs := if s.heap.firsthead = 0 then [] else walkFrom s.sys.mem s.sys.brk n s.heap.firsthead
    let mm := chainFrom s.sys.mem n s.heap.mmhead
    decide (ListBlocks s order ∧ HeapBlocks s bs ∧ MmBlocks s mm ∧ c.Sound s order bs mm)
  | .store _ _ => true

theorem Event.sound_of_check {e : Event} (h : e.checkSound n w = true) : e.Sound w := by
  cases e with
  | call c =>
      obtain ⟨ho, hb, hm, hc⟩ := of_decide_eq_true h
      exact (Event.sound_iff ho hb hm).mpr hc
  | store x v => exact trivial

/-! ### Runs -/

/-- The world after the events `es`, if all of them are legal and return and none reaches a
defect. -/
def World.execSound (n : ℕ) : List Event → World → Option World
  | [], w => some w
  | e :: es, w => if e.checkSound n w = true then (w.next e).bind (execSound n es) else none

theorem World.execSound_run {es : List Event} (h : allocator.Run Event.Sound w)
    (he : w.execSound n es = some w') : allocator.Run Event.Sound w' := by
  induction es generalizing w with
  | nil => exact Option.some.inj he ▸ h
  | cons e es ih =>
      rw [execSound] at he
      split at he
      next hsound =>
        obtain ⟨w₁, h₁, h₂⟩ := Option.bind_eq_some_iff.mp he
        exact ih (h.step (Event.sound_of_check hsound) (step_of_next h₁)) h₂
      next => cases he

theorem World.exists_of_execSound (n : ℕ) (w₀ : World) (h₀ : Initial w₀) (es : List Event)
    (f : World → Bool) (h : (w₀.execSound n es).any f = true) :
    ∃ w, allocator.Run Event.Sound w ∧ f w = true := by
  obtain ⟨w, hw, hf⟩ := (Option.any_eq_true _ _).mp h
  exact ⟨w, execSound_run (.init h₀) hw, hf⟩

end OsProjects.Malloc3
