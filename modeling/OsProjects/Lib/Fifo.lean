import Mathlib.Data.List.Basic
import Mathlib.Tactic.Common

/-! # FIFO queues with a history

A FIFO queue from which elements may also be dropped, with the sequences of all elements that
were put into it and of all that were taken out at the front.  Whatever is dropped, the
elements taken out are a subsequence of those put in (`Fifo.Ordered`); if nothing is dropped
they are a prefix of them (`Fifo.Exact`). -/

namespace OsProjects

/-- A queue and its history. -/
structure Fifo (α : Type) where
  queue : List α
  enqueued : List α
  dequeued : List α

namespace Fifo

variable {α : Type} {f f' : Fifo α}

/-- What can be done to a queue. -/
inductive Op (α : Type) where
  /-- `x` goes to the back -/
  | enqueue (x : α)
  /-- the front is taken out -/
  | take
  /-- the front is dropped -/
  | dropFront
  /-- all but `n` elements are dropped -/
  | keep (n : ℕ)
  /-- nothing happens -/
  | skip

/-- One operation. -/
inductive Step : Fifo α → Op α → Fifo α → Prop
  | enqueue {f : Fifo α} {x : α} :
      Step f (.enqueue x) { f with queue := f.queue ++ [x], enqueued := f.enqueued ++ [x] }
  | take {f : Fifo α} {x : α} {l : List α} : f.queue = x :: l →
      Step f .take { f with queue := l, dequeued := f.dequeued ++ [x] }
  | dropFront {f : Fifo α} {x : α} {l : List α} : f.queue = x :: l →
      Step f .dropFront { f with queue := l }
  | keep {f : Fifo α} {l : List α} : l.Sublist f.queue →
      Step f (.keep l.length) { f with queue := l }
  | skip {f : Fifo α} : Step f .skip f

/-- The operation drops nothing. -/
def Op.lossless : Op α → Bool
  | dropFront => false
  | keep _ => false
  | _ => true

/-- What was taken out, followed by what waits, is a subsequence of what was put in. -/
def Ordered (f : Fifo α) : Prop := (f.dequeued ++ f.queue).Sublist f.enqueued

/-- What was taken out, followed by what waits, is what was put in. -/
def Exact (f : Fifo α) : Prop := f.dequeued ++ f.queue = f.enqueued

theorem Step.ordered {o : Op α} (h : Step f o f') (hf : f.Ordered) : f'.Ordered := by
  unfold Ordered at *
  cases h with
  | @enqueue x =>
      have := hf.append_right [x]
      rwa [List.append_assoc] at this
  | take hq => simpa [hq] using hf
  | @dropFront x l hq =>
      rw [hq] at hf
      exact ((List.sublist_cons_self x l).append_left _).trans hf
  | keep hl => exact (hl.append_left _).trans hf
  | skip => exact hf

theorem Step.exact {o : Op α} (h : Step f o f') (ho : o.lossless = true) (hf : f.Exact) :
    f'.Exact := by
  unfold Exact at *
  cases h with
  | enqueue => simp [← hf]
  | take hq => simp [← hf, hq]
  | dropFront => cases ho
  | keep => cases ho
  | skip => exact hf

theorem Ordered.sublist (h : f.Ordered) : f.dequeued.Sublist f.enqueued :=
  (List.sublist_append_left _ _).trans h

theorem Exact.isPrefix (h : f.Exact) : f.dequeued.IsPrefix f.enqueued := ⟨_, h⟩

end Fifo

end OsProjects
