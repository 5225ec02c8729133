import OsProjects.Smash.Process

/-! # Descriptors and pipes of a line

What the blocks of `PipeCommand::execute` and `RedirectionCommand::execute` do to the table of
descriptors, and how the programs of a pipeline are meant to be wired. -/

namespace OsProjects.Smash.CommandLine

open Descriptors

variable {k : Kernel} {w w' : World} {t t' : Descriptors Channel} {fd fd₂ : ℕ} {d : Channel}

/-! ### Worlds -/

def World.fds (w : World) : Descriptors Channel := w.process.fds

def World.withFds (w : World) (t : Descriptors Channel) : World :=
  { w with process := { w.process with fds := t } }

def World.tick (w : World) : World := { w with clock := w.clock + 1 }

def World.log (w : World) (e : Event) : World := { w with events := w.events ++ [e] }

@[simp] theorem withFds_fds (w : World) (t : Descriptors Channel) : (w.withFds t).fds = t := rfl

@[simp] theorem withFds_withFds (w : World) (t t' : Descriptors Channel) :
    (w.withFds t).withFds t' = w.withFds t' := rfl

@[simp] theorem withFds_self (w : World) : w.withFds w.fds = w := rfl

@[simp] theorem withFds_pipes (w : World) (t : Descriptors Channel) :
    (w.withFds t).pipes = w.pipes := rfl

@[simp] theorem withFds_events (w : World) (t : Descriptors Channel) :
    (w.withFds t).events = w.events := rfl

@[simp] theorem tick_fds (w : World) : w.tick.fds = w.fds := rfl

@[simp] theorem tick_process_fds (w : World) : w.tick.process.fds = w.fds := rfl

@[simp] theorem tick_pipes (w : World) : w.tick.pipes = w.pipes := rfl

@[simp] theorem log_fds (w : World) (e : Event) : (w.log e).fds = w.fds := rfl

@[simp] theorem log_events (w : World) (e : Event) : (w.log e).events = w.events ++ [e] := rfl

/-- The working directory and the members of `SmallShell`. -/
def World.core (w : World) : Text × SmallShell := (w.process.cwd, w.process.smash)

@[simp] theorem withFds_core (w : World) (t : Descriptors Channel) : (w.withFds t).core = w.core :=
  rfl

/-- The three standard descriptors are open. -/
def Standard (t : Descriptors Channel) : Prop := ∀ fd ≤ 2, ∃ d, lookup t fd = some d

/-! ### System calls -/

theorem run_ask {α : Type} (answer : ℕ → α) (w : World) :
    (ask answer).run w = .ok (answer w.clock, w.tick) := rfl

/-- A wrapper reads the table of descriptors first. -/
theorem run_bind_fds {α : Type} (f : Descriptors Channel → Prog Halt World α) (w : World) :
    ((Prog.gets fun w => w.process.fds) >>= f).run w = (f w.fds).run w := rfl

theorem run_sdup_some {copy : ℕ} (h : dup w.fds fd = some (copy, t)) :
    (sdup fd).run w = .ok (some copy, w.withFds t) := by
  rw [sdup, run_bind_fds]
  simp only [h]
  rfl

theorem run_sdup_none (h : dup w.fds fd = none) :
    (sdup fd).run w = .ok (none, w.log (.syscallFail "dup2")) := by
  rw [sdup, run_bind_fds]
  simp only [h]
  rfl

theorem run_sdup2 (h : lookup w.fds fd = some d) (hlt : fd₂ < w.fds.length) :
    (sdup2 (some fd) fd₂).run w = .ok ((), w.withFds (w.fds.set fd₂ (some d))) := by
  rw [sdup2, run_bind_fds]
  simp only [Option.bind_some, dup2_eq h hlt]
  rfl

theorem run_sdup2_none : (sdup2 none fd₂).run w = .ok ((), w.log (.syscallFail "dup2")) := rfl

theorem run_sclose (h : lookup w.fds fd = some d) :
    (sclose (some fd)).run w = .ok ((), w.withFds (w.fds.set fd none)) := by
  rw [sclose, run_bind_fds]
  simp only [Option.bind_some, close_eq h]
  rfl

theorem run_close (h : lookup w.fds fd = some d) :
    (close fd).run w = .ok ((), w.withFds (w.fds.set fd none)) := by
  rw [close, run_bind_fds]
  simp only [close_eq h]
  rfl

theorem run_makePipe_none (h : k.pipes w.clock = true → free w.fds < 2) :
    (makePipe k).run w = .ok (none, w.tick) := by
  have hnone : (if k.pipes w.clock = true then
      Descriptors.pipe w.fds (.readEnd w.pipes) (.writeEnd w.pipes) else none) = none := by
    split
    next hk => exact pipe_eq_none.mpr (h hk)
    next => rfl
  rw [makePipe, Prog.run_bind_ok (run_ask _ _),
    Prog.run_bind_ok (Prog.run_gets _ _)]
  simp only [id, tick_process_fds, tick_pipes, hnone]
  rfl

/-- The world with a new pipe. -/
def World.piped (w : World) (t : Descriptors Channel) : World :=
  { w.tick.withFds t with pipes := w.pipes + 1 }

theorem run_makePipe_some (hk : k.pipes w.clock = true) (h : 2 ≤ free w.fds) :
    ∃ r x t', Descriptors.pipe w.fds (.readEnd w.pipes) (.writeEnd w.pipes) = some (r, x, t') ∧
      (makePipe k).run w = .ok (some (r, x), w.piped t') := by
  cases hp : Descriptors.pipe w.fds (.readEnd w.pipes) (.writeEnd w.pipes) with
  | none =>
      rw [pipe_eq_none] at hp
      omega
  | some p =>
      obtain ⟨r, x, t'⟩ := p
      refine ⟨r, x, t', rfl, ?_⟩
      rw [makePipe, Prog.run_bind_ok (run_ask _ _),
        Prog.run_bind_ok (Prog.run_gets _ _)]
      simp only [id, tick_process_fds, tick_pipes, if_pos hk, hp]
      rfl

theorem run_sopen_none {path : Text} {append : Bool}
    (h : k.opens w.clock path append = true → free w.fds = 0) :
    (sopen k path append).run w = .ok (none, w.tick.log (.syscallFail "open")) := by
  have hnone : (if k.opens w.clock path append = true then
      alloc w.fds (.file path append) else none) = none := by
    split
    next hk => exact alloc_eq_none.mpr (h hk)
    next => rfl
  rw [sopen, Prog.run_bind_ok (run_ask _ _), run_bind_fds]
  simp only [tick_fds, hnone]
  rfl

theorem run_sopen_some {path : Text} {append : Bool} (hk : k.opens w.clock path append = true)
    (h : 0 < free w.fds) : ∃ f t', alloc w.fds (.file path append) = some (f, t') ∧
      (sopen k path append).run w = .ok (some f, w.tick.withFds t') := by
  obtain ⟨f, t', ha⟩ := exists_alloc h (.file path append)
  refine ⟨f, t', ha, ?_⟩
  rw [sopen, Prog.run_bind_ok (run_ask _ _), run_bind_fds]
  simp only [tick_fds, if_pos hk, ha]
  rfl

/-! ### The two sides of a pipe -/

theorem Standard.lookup_set (h : Standard t) (hfree : t[fd]? = some none) (d : Channel) :
    Standard (t.set fd (some d)) := by
  intro i hi
  obtain ⟨e, he⟩ := h i hi
  have hne : fd ≠ i := by
    rintro rfl
    rw [lookup_eq_some, hfree] at he
    cases he
  exact ⟨e, by rw [Descriptors.lookup_set, if_neg fun hc => hne hc.1, he]⟩

theorem Standard.reset (h : Standard t) (fd : ℕ) (d : Channel) : Standard (t.set fd (some d)) := by
  intro i hi
  obtain ⟨e, he⟩ := h i hi
  rw [Descriptors.lookup_set]
  split
  · exact ⟨d, rfl⟩
  · exact ⟨e, he⟩

/-- A free slot is none of the standard ones. -/
theorem Standard.ne_of_free (h : Standard t) (hfree : t[fd]? = some none) {i : ℕ} (hi : i ≤ 2) :
    i ≠ fd := by
  rintro rfl
  obtain ⟨e, he⟩ := h i hi
  rw [lookup_eq_some, hfree] at he
  cases he

theorem output_le (ampersand : Bool) : output ampersand ≤ 2 := by
  cases ampersand <;> decide

/-- The child has the pipe as its output, and no other descriptor for it. -/
theorem run_leftSide {a b : Channel} {r x : ℕ} {ampersand : Bool} (hstd : Standard t)
    (hr : t[r]? = some none) (hx : t[x]? = some none) (hne : r ≠ x)
    (hw : w.fds = (t.set r (some a)).set x (some b)) :
    (leftSide r x ampersand).run w =
      .ok ((), w.withFds (t.set (output ampersand) (some b))) := by
  have hro := hstd.ne_of_free hr (output_le ampersand)
  have hxo := hstd.ne_of_free hx (output_le ampersand)
  obtain ⟨e, he⟩ := hstd _ (output_le ampersand)
  have hlt := lt_length_of_lookup he
  have hrlt := (List.getElem?_eq_some_iff.mp hr).1
  have hxlt := (List.getElem?_eq_some_iff.mp hx).1
  have h₁ : lookup w.fds x = some b := by
    rw [hw, Descriptors.lookup_set, if_pos ⟨rfl, by simpa using hxlt⟩]
  rw [leftSide, Prog.run_bind_ok (run_sdup2 h₁ (by rw [hw]; simpa using hlt))]
  have h₂ : lookup (w.fds.set (output ampersand) (some b)) r = some a := by
    rw [hw, Descriptors.lookup_set, if_neg fun hc => hro hc.1, Descriptors.lookup_set,
      if_neg fun hc => hne hc.1.symm, Descriptors.lookup_set, if_pos ⟨rfl, hrlt⟩]
  rw [Prog.run_bind_ok (run_close (w := w.withFds _) h₂), withFds_withFds, withFds_fds]
  have h₃ : lookup ((w.fds.set (output ampersand) (some b)).set r none) x = some b := by
    rw [Descriptors.lookup_set, if_neg fun hc => hne hc.1, Descriptors.lookup_set,
      if_neg fun hc => hxo hc.1, h₁]
  rw [run_sclose (w := w.withFds _) h₃, withFds_withFds, withFds_fds, hw]
  rw [set_pipe_closed hr hx hro hxo]

/-- The shell has the pipe as its input, and a descriptor for its own if there was one left. -/
theorem run_rightSide_some {a b d : Channel} {r x : ℕ} (hstd : Standard t)
    (hd : lookup t STDIN = some d) (hr : t[r]? = some none) (hx : t[x]? = some none) (hne : r ≠ x)
    (hw : w.fds = (t.set r (some a)).set x (some b)) (hfree : 0 < free w.fds) :
    ∃ c, t[c]? = some none ∧ (rightSide r x).run w =
      .ok (some c, w.withFds ((t.set c (some d)).set STDIN (some a))) := by
  have hr0 := hstd.ne_of_free hr (i := STDIN) (by decide)
  have hx0 := hstd.ne_of_free hx (i := STDIN) (by decide)
  have h0lt := lt_length_of_lookup hd
  have hrlt := (List.getElem?_eq_some_iff.mp hr).1
  have hxlt := (List.getElem?_eq_some_iff.mp hx).1
  have hd' : lookup w.fds STDIN = some d := by
    rw [hw, Descriptors.lookup_set, if_neg fun hc => hx0 hc.1.symm, Descriptors.lookup_set,
      if_neg fun hc => hr0 hc.1.symm, hd]
  obtain ⟨c, t', ha⟩ := exists_alloc hfree d
  obtain ⟨hc, ht', -⟩ := alloc_some ha
  have hcx : c ≠ x := by
    rintro rfl
    rw [hw, List.getElem?_set_self (by simpa using hxlt)] at hc
    cases hc
  have hcr : c ≠ r := by
    rintro rfl
    rw [hw, List.getElem?_set_ne hne.symm, List.getElem?_set_self hrlt] at hc
    cases hc
  rw [hw, List.getElem?_set_ne hcx.symm, List.getElem?_set_ne hcr.symm] at hc
  have hc0 := hstd.ne_of_free hc (i := STDIN) (by decide)
  have hlr : lookup w.fds r = some a := by
    rw [hw, Descriptors.lookup_set, if_neg fun he => hne he.1.symm, Descriptors.lookup_set,
      if_pos ⟨rfl, hrlt⟩]
  have hlx : lookup w.fds x = some b := by
    rw [hw, Descriptors.lookup_set, if_pos ⟨rfl, by simpa using hxlt⟩]
  refine ⟨c, hc, ?_⟩
  rw [rightSide, Prog.run_bind_ok (run_sdup_some ((dup_eq hd').trans ha))]
  have h₁ : lookup t' r = some a := by
    rw [ht', Descriptors.lookup_set, if_neg fun he => hcr he.1, hlr]
  rw [Prog.run_bind_ok (run_sdup2 (w := w.withFds t') h₁ (by simp [ht', hw, h0lt])),
    withFds_withFds, withFds_fds]
  have h₂ : lookup (t'.set STDIN (some a)) r = some a := by
    rw [Descriptors.lookup_set, if_neg fun he => hr0 he.1, h₁]
  rw [Prog.run_bind_ok (run_sclose (w := w.withFds _) h₂), withFds_withFds, withFds_fds]
  have h₃ : lookup ((t'.set STDIN (some a)).set r none) x = some b := by
    rw [Descriptors.lookup_set, if_neg fun he => hne he.1, Descriptors.lookup_set,
      if_neg fun he => hx0 he.1, ht', Descriptors.lookup_set, if_neg fun he => hcx he.1, hlx]
  rw [Prog.run_bind_ok (run_sclose (w := w.withFds _) h₃), Prog.run_pure, withFds_withFds,
    withFds_fds, ht', hw]
  rw [set_pipe_closed_keep hr hx hr0 hx0 hcr hcx]

/-- With no descriptor left, the shell gives up its own input. -/
theorem run_rightSide_none {a b : Channel} {r x : ℕ} (hstd : Standard t)
    (hr : t[r]? = some none) (hx : t[x]? = some none) (hne : r ≠ x)
    (hw : w.fds = (t.set r (some a)).set x (some b)) (hfree : free w.fds = 0) :
    (rightSide r x).run w =
      .ok (none, (w.log (.syscallFail "dup2")).withFds (t.set STDIN (some a))) := by
  obtain ⟨d, hd⟩ := hstd STDIN (by decide)
  have hr0 := hstd.ne_of_free hr (i := STDIN) (by decide)
  have hx0 := hstd.ne_of_free hx (i := STDIN) (by decide)
  have h0lt := lt_length_of_lookup hd
  have hrlt := (List.getElem?_eq_some_iff.mp hr).1
  have hxlt := (List.getElem?_eq_some_iff.mp hx).1
  have hdup : dup w.fds STDIN = none := by
    rw [dup, Option.bind_eq_none_iff]
    intro _ _
    exact alloc_eq_none.mpr hfree
  have hlr : lookup w.fds r = some a := by
    rw [hw, Descriptors.lookup_set, if_neg fun he => hne he.1.symm, Descriptors.lookup_set,
      if_pos ⟨rfl, hrlt⟩]
  have hlx : lookup w.fds x = some b := by
    rw [hw, Descriptors.lookup_set, if_pos ⟨rfl, by simpa using hxlt⟩]
  rw [rightSide, Prog.run_bind_ok (run_sdup_none hdup)]
  rw [Prog.run_bind_ok (run_sdup2 (w := w.log _) hlr (by simp [hw, h0lt])), log_fds]
  have h₂ : lookup (w.fds.set STDIN (some a)) r = some a := by
    rw [Descriptors.lookup_set, if_neg fun he => hr0 he.1, hlr]
  rw [Prog.run_bind_ok (run_sclose (w := (w.log _).withFds _) h₂), withFds_withFds, withFds_fds]
  have h₃ : lookup ((w.fds.set STDIN (some a)).set r none) x = some b := by
    rw [Descriptors.lookup_set, if_neg fun he => hne he.1, Descriptors.lookup_set,
      if_neg fun he => hx0 he.1, hlx]
  rw [Prog.run_bind_ok (run_sclose (w := (w.log _).withFds _) h₃), Prog.run_pure, withFds_withFds,
    withFds_fds, hw]
  rw [set_pipe_closed hr hx hr0 hx0]

end OsProjects.Smash.CommandLine
