import OsProjects.WebServer.Replay

/-! # The statistics of a worker

The header of a response is computed before the request is handled, from a stamp of the
counters; the counters are updated afterwards, from the code that `requestHandle` returned.
`Tally` ties both to the responses that the worker has sent so far, up to the wrap of an `int`.
So the headers are right as long as the worker has sent fewer than `2^31` responses, and the next
one is wrong (`statistics_agree_iff`). -/

namespace OsProjects.WebServer

variable {cfg : Config} {w w' : ThreadInfo}

/-- The code that `requestHandle` returned, while it is not yet counted. -/
def WorkerPc.result : WorkerPc → Option ℤ
  | close _ result => some result
  | relock _ result => some result
  | finish _ result => some result
  | _ => none

/-- The counters stand for the responses `l`, as far as an `int` goes. -/
structure CountsOf (w : ThreadInfo) (l : List Response) : Prop where
  count : w.requestsCount = toInt l.length
  static : w.staticRequestsCount = toInt (l.countP fun r => r.answer.isStatic)
  dynamic : w.dynamicRequestsCount = toInt (l.countP fun r => r.answer.isDynamic)

/-- The counters stand for the responses sent, but for one whose code is not yet counted. -/
def Pending (w : ThreadInfo) : Option ℤ → Prop
  | none => CountsOf w w.sent
  | some result => ∃ l r, w.sent = l ++ [r] ∧ CountsOf w l ∧
      (result = resultStatic ↔ r.answer.isStatic = true) ∧
      (result = resultDynamic ↔ r.answer.isDynamic = true)

/-- The counters, the stamp and the headers of a worker agree with what it has sent. -/
structure Tally (w : ThreadInfo) : Prop where
  counts : Pending w w.pc.result
  stamp : ∀ req stats, w.pc = .handle req stats → stats.requestsCount = w.requestsCount ∧
    stats.staticRequestsCount = w.staticRequestsCount ∧
    stats.dynamicRequestsCount = w.dynamicRequestsCount
  sent : ∀ l r l', w.sent = l ++ r :: l' → r.Carries (toInt (l ++ [r]).length)
    (toInt ((l ++ [r]).countP fun r => r.answer.isStatic))
    (toInt ((l ++ [r]).countP fun r => r.answer.isDynamic))

/-- Counting one more response, or none. -/
theorem toInt_countP_append (p : Response → Bool) (l : List Response) (r : Response) :
    toInt (toInt (l.countP p) + if p r then 1 else 0) = toInt ((l ++ [r]).countP p) := by
  rw [toInt_toInt_add, List.countP_append, List.countP_singleton]
  split
  · rfl
  · rfl

/-- A worker moves on without sending or counting anything. -/
theorem Tally.move {pc : WorkerPc} (h : Tally w) (hr : pc.result = w.pc.result)
    (hs : ∀ req stats, pc ≠ .handle req stats) : Tally { w with pc := pc } := by
  refine ⟨?_, fun req stats he => absurd he (hs req stats), h.sent⟩
  have := h.counts
  rw [← hr] at this
  simp only [Pending] at this ⊢
  cases hp : pc.result with
  | none => rw [hp] at this; exact ⟨this.count, this.static, this.dynamic⟩
  | some result =>
      rw [hp] at this
      obtain ⟨l, r, hl, hc, h₁, h₂⟩ := this
      exact ⟨l, r, hl, ⟨hc.count, hc.static, hc.dynamic⟩, h₁, h₂⟩

/-- The worker handles its request: the header carries the counters of the stamp. -/
theorem Tally.handle {req : Request} {stats : Statistics} {result : ℤ} {r : Response}
    (h : Tally w) (hpc : w.pc = .handle req stats) (hp : Predicted stats result r) :
    Tally { w with pc := .close req result, sent := w.sent ++ [r] } := by
  have hc : CountsOf w w.sent := by
    have := h.counts
    rwa [hpc] at this
  obtain ⟨h₁, h₂, h₃⟩ := h.stamp req stats hpc
  refine ⟨⟨w.sent, r, rfl, ⟨hc.count, hc.static, hc.dynamic⟩, hp.static, hp.dynamic⟩, by simp,
    fun l r' l' he => ?_⟩
  rcases List.eq_nil_or_concat l' with rfl | ⟨l'', x, rfl⟩
  · -- the response just sent
    obtain ⟨rfl, he⟩ := List.append_inj' he rfl
    obtain rfl : r = r' := by simpa using he
    have hcarry := hp.carries
    rw [h₁, h₂, h₃, hc.count, hc.static, hc.dynamic, toInt_toInt_add, toInt_countP_append,
      toInt_countP_append] at hcarry
    rwa [List.length_append, List.length_singleton, Nat.cast_add, Nat.cast_one]
  · rw [List.concat_eq_append, ← List.cons_append, ← List.append_assoc] at he
    exact h.sent l r' l'' (List.append_inj' he rfl).1

/-- The worker counts the code. -/
theorem Tally.finish {req : Request} {result : ℤ} (h : Tally w) (hpc : w.pc = .finish req result) :
    Tally { w with
      pc := .lock
      requestsCount := toInt (w.requestsCount + 1)
      staticRequestsCount := toInt (w.staticRequestsCount + if result = resultStatic then 1 else 0)
      dynamicRequestsCount :=
        toInt (w.dynamicRequestsCount + if result = resultDynamic then 1 else 0) } := by
  have hc := h.counts
  rw [hpc] at hc
  obtain ⟨l, r, hl, hc, h₁, h₂⟩ := hc
  refine ⟨⟨?_, ?_, ?_⟩, by simp, h.sent⟩
  · simp only [hl, hc.count, toInt_toInt_add]
    rw [List.length_append, List.length_singleton, Nat.cast_add, Nat.cast_one]
  · simp only [hl, hc.static, h₁, toInt_countP_append]
  · simp only [hl, hc.dynamic, h₂, toInt_countP_append]

end OsProjects.WebServer
