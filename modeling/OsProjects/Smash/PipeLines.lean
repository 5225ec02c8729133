import OsProjects.Smash.Lines

/-! # Lines with pipes

The statement about lines by induction on their length: the first command of a line is executed in
a child, and the rest of the line in the shell between two changes of its input. -/

namespace OsProjects.Smash.CommandLine

open Descriptors

variable {k : Kernel} {w w' w₁ : World} {line a b : Text} {cmd : Command} {fuel n : ℕ} {e : Event}

/-! ### What a line leaves -/

/-- What a line leaves. -/
structure Ran (k : Kernel) (line : Text) (w w' : World) : Prop where
  acts : Acts (k.Works ∧ 2 ≤ free w.fds) (w.wiring line) (Event.Sees w.fds w.pipes) w w'
  restores : Restores k line w w'
  affects : Affects k line (k.Works ∧ 2 ≤ free w.fds) w w'

/-- What is known of a line that ends the shell. -/
structure Halted (k : Kernel) (line : Text) (w : World) (h : Halt) : Prop where
  reason : h.reason ≠ .fuel
  unsound : k.Forks → ¬Sound line
  acts : Acts False (w.wiring line) (Event.Sees w.fds w.pipes) w h.world

theorem Event.Inherits.sees {t : Descriptors Channel} (h : e.Inherits t) (n : ℕ) : e.Sees t n := by
  cases e with
  | exec argv fds cwd =>
      refine ⟨n, le_rfl, fun fd ch hch => ?_⟩
      obtain hold | hfile := h fd ch hch
      · exact .inl hold
      · exact .inr (.inl hfile)
  | _ => trivial

/-- The left command of a pipe. -/
theorem Event.Inherits.sees_left {t : Descriptors Channel} {fd : ℕ}
    (h : e.Inherits (t.set fd (some (.writeEnd n)))) : e.Sees t n := by
  cases e with
  | exec argv fds cwd =>
      refine ⟨n, le_rfl, fun i ch hch => ?_⟩
      obtain ⟨j, hj⟩ | hfile := h i ch hch
      · rw [Descriptors.lookup_set] at hj
        split at hj
        · exact .inr (.inr (.inr (Option.some.inj hj).symm))
        · exact .inl ⟨j, hj⟩
      · exact .inr (.inl hfile)
  | _ => trivial

/-- The commands on the right of a pipe. -/
theorem Event.Sees.right {t t' : Descriptors Channel} (h : e.Sees t' (n + 1))
    (ht : ∀ fd ch, lookup t' fd = some ch → (∃ fd', lookup t fd' = some ch) ∨ ch = .readEnd n) :
    e.Sees t n := by
  cases e with
  | exec argv fds cwd =>
      obtain ⟨p, hp, h⟩ := h
      refine ⟨p, by omega, fun i ch hch => ?_⟩
      obtain ⟨j, hj⟩ | hfile | ⟨q, hq, hqp, rfl⟩ | rfl := h i ch hch
      · obtain hold | rfl := ht j ch hj
        · exact .inl hold
        · exact .inr (.inr (.inl ⟨n, le_rfl, by omega, rfl⟩))
      · exact .inr (.inl hfile)
      · exact .inr (.inr (.inl ⟨q, by omega, hqp, rfl⟩))
      · exact .inr (.inr (.inr rfl))
  | _ => trivial

theorem Sound.created (h : Sound line) :
    ∃ cmd, createCommand line = some cmd ∧ cmd.args.isSome := by
  cases h with
  | simple _ hcmd hargs _ => exact ⟨_, hcmd, by rw [hargs]; rfl⟩
  | redirection hs hargs _ => exact ⟨_, createCommand_redirection hs, hargs⟩
  | pipe hs hargs _ _ _ => exact ⟨_, createCommand_pipe hs, hargs⟩

/-- **The right side of a pipe** around `p`: its input is the pipe, and the descriptors are as
before, if there was one left for the copy of the input. -/
theorem spec_piped {t : Descriptors Channel} {r x : ℕ} {ch ch' : Channel}
    {p : Prog Halt World Unit} {Q : Unit → World → Prop} {E : Halt → Prop} (hstd : Standard t)
    (hr : t[r]? = some none) (hx : t[x]? = some none) (hne : r ≠ x)
    (hw : w.fds = (t.set r (some ch)).set x (some ch')) (hfree : free w.fds + 2 = free t)
    (h : ∀ w₁, Quiet w w₁ → Standard w₁.fds → lookup w₁.fds STDIN = some ch →
      lookup w₁.fds STDOUT = lookup t STDOUT → lookup w₁.fds STDERR = lookup t STDERR →
      (∀ fd c, lookup w₁.fds fd = some c → (∃ fd', lookup t fd' = some c) ∨ c = ch) →
      2 ≤ free w₁.fds →
      p.Spec w₁ (fun _ w₂ => (∃ o, w₂.fds = w₁.fds.set STDIN (some o)) ∧ ∀ w', Quiet w₂ w' →
        (0 < free w.fds → w'.fds = t) →
        (free w.fds = 0 → w₁.fds = t.set STDIN (some ch) ∧ w'.fds = w₂.fds) → Q () w') E) :
    Prog.Spec (do
      let stdinCopy ← rightSide r x
      p
      sdup2 stdinCopy STDIN
      sclose stdinCopy) w Q E := by
  obtain ⟨d, hd⟩ := hstd STDIN (by decide)
  have hlt := lt_length_of_lookup hd
  by_cases hzero : free w.fds = 0
  · apply Prog.Spec.bind_ok (run_rightSide_none hstd hr hx hne hw hzero)
    apply Prog.Spec.bind
    refine (h _ ((Quiet.log _ _).trans (.withFds _ _)) (hstd.reset _ _) ?_ ?_ ?_ ?_ ?_).mono
      (fun _ w₂ hw₂ => ?_) fun _ he => he
    · rw [withFds_fds, Descriptors.lookup_set, if_pos ⟨rfl, hlt⟩]
    · rw [withFds_fds, Descriptors.lookup_set, if_neg (by simp [STDIN, STDOUT])]
    · rw [withFds_fds, Descriptors.lookup_set, if_neg (by simp [STDIN, STDERR])]
    · intro fd c hc
      rw [withFds_fds, Descriptors.lookup_set] at hc
      split at hc
      · exact .inr (Option.some.inj hc).symm
      · exact .inl ⟨fd, hc⟩
    · rw [withFds_fds, free_reopen hd]
      omega
    · obtain ⟨-, hQ⟩ := hw₂
      apply Prog.Spec.bind_ok run_sdup2_none
      exact hQ _ ((Quiet.log _ "dup2").trans (.log _ "close")) (fun hpos => by omega)
        fun _ => ⟨rfl, rfl⟩
  · obtain ⟨c, hc, hrun⟩ := run_rightSide_some hstd hd hr hx hne hw (by omega)
    have hclt := (List.getElem?_eq_some_iff.mp hc).1
    have hc0 := hstd.ne_of_free hc (i := STDIN) (by decide)
    have hc1 := hstd.ne_of_free hc (i := STDOUT) (by decide)
    have hc2 := hstd.ne_of_free hc (i := STDERR) (by decide)
    have hd' : lookup (t.set c (some d)) STDIN = some d := by
      rw [Descriptors.lookup_set, if_neg fun he => hc0 he.1.symm, hd]
    apply Prog.Spec.bind_ok hrun
    apply Prog.Spec.bind
    refine (h _ (.withFds _ _) ((hstd.lookup_set hc _).reset _ _) ?_ ?_ ?_ ?_ ?_).mono
      (fun _ w₂ hw₂ => ?_) fun _ he => he
    · rw [withFds_fds, Descriptors.lookup_set, if_pos ⟨rfl, by simpa using hlt⟩]
    · rw [withFds_fds, Descriptors.lookup_set, if_neg (by simp [STDIN, STDOUT]),
        Descriptors.lookup_set, if_neg fun he => hc1 he.1.symm]
    · rw [withFds_fds, Descriptors.lookup_set, if_neg (by simp [STDIN, STDERR]),
        Descriptors.lookup_set, if_neg fun he => hc2 he.1.symm]
    · intro fd c' hc'
      rw [withFds_fds, Descriptors.lookup_set, Descriptors.lookup_set] at hc'
      split at hc'
      · exact .inr (Option.some.inj hc').symm
      · split at hc'
        · exact .inl ⟨_, hd.trans hc'⟩
        · exact .inl ⟨fd, hc'⟩
    · rw [withFds_fds, free_reopen hd']
      have := free_open (d := d) hc
      omega
    · obtain ⟨⟨o, ho⟩, hQ⟩ := hw₂
      rw [withFds_fds] at ho
      have h₁ : lookup w₂.fds c = some d := by
        rw [ho, Descriptors.lookup_set, if_neg fun he => hc0 he.1, Descriptors.lookup_set,
          if_neg fun he => hc0 he.1, Descriptors.lookup_set, if_pos ⟨rfl, hclt⟩]
      apply Prog.Spec.bind_ok (run_sdup2 h₁ (by simp [ho, hlt]))
      have h₂ : lookup (w₂.fds.set STDIN (some d)) c = some d := by
        rw [Descriptors.lookup_set, if_neg fun he => hc0 he.1, h₁]
      rw [Prog.Spec, run_sclose (w := w₂.withFds _) h₂, withFds_withFds, withFds_fds]
      refine hQ _ (.withFds _ _) (fun _ => ?_) fun he => absurd he hzero
      rw [withFds_fds, ho, List.set_set, List.set_set, set_closed hc hc0, set_self hd]

theorem parts_ne_nil (line : Text) : parts line ≠ [] := by
  rw [parts]
  cases h : line.splitOn '|' with
  | nil => exact absurd h (List.splitOn_ne_nil _ _)
  | cons part rest => simp

theorem lastCommand_cut (h : '|' ∉ a) : lastCommand (a ++ '|' :: b) = lastCommand (stripSign b) := by
  rw [lastCommand, parts_cut h, lastCommand]
  obtain ⟨part, rest, hs⟩ := List.exists_cons_of_ne_nil (parts_ne_nil (stripSign b))
  rw [hs, List.getLast?_cons_cons]

/-- The first program of a pipe, and the others. -/
theorem wiring_cut (h : '|' ∉ a) {t : Descriptors Channel} {n : ℕ} :
    wiring (lookup t STDOUT) (lookup t STDERR) n (lookup t STDIN) (parts (a ++ '|' :: b))
        (signs (a ++ '|' :: b)) =
      stage a (lookup t STDIN)
          (if b.head? == some '&' then lookup t STDOUT else some (.writeEnd n))
          (if b.head? == some '&' then some (.writeEnd n) else lookup t STDERR) ++
        wiring (lookup t STDOUT) (lookup t STDERR) (n + 1) (some (.readEnd n))
          (parts (stripSign b)) (signs (stripSign b)) := by
  rw [parts_cut h, signs_cut h, wiring]

theorem wiring_single (h : '|' ∉ line) {t : Descriptors Channel} {n : ℕ} :
    wiring (lookup t STDOUT) (lookup t STDERR) n (lookup t STDIN) (parts line) (signs line) =
      stage line (lookup t STDIN) (lookup t STDOUT) (lookup t STDERR) := by
  rw [parts_single h, signs_single h, wiring]

/-- A line with a single part. -/
theorem RanPart.ran (h : RanPart k line w w') (hpipe : '|' ∉ line) : Ran k line w w' where
  acts := by
    rw [World.wiring, wiring_single hpipe]
    exact h.acts.mono (fun hx => ⟨hx.1, by omega⟩) fun e he => he.sees _
  restores := h.restores
  affects := by
    obtain ⟨hx, hc⟩ | h := h.affects
    · exact .inl ⟨fun hx' => hx ⟨hx'.1, by omega⟩, hc⟩
    · exact .inr h

theorem HaltPart.halted {h : Halt} (hh : HaltPart line k w h) (hpipe : '|' ∉ line) :
    Halted k line w h where
  reason := hh.reason
  unsound := hh.unsound
  acts := by
    rw [World.wiring, wiring_single hpipe]
    exact hh.acts.mono False.elim fun e he => he.sees _

/-- A sound line has sound sides. -/
theorem Sound.of_pipe (h : Sound (a ++ '|' :: b)) (ha : '|' ∉ a)
    (hlen : (a ++ '|' :: b).length < 2 ^ 31) : Sound a ∧ Sound (stripSign b) := by
  have hs := isSpecialCommand_pipe (b := b) ha
  have hright : rightPart (a ++ '|' :: b) (toInt a.length) (b.head? == some '&') =
      some (stripSign b) := rightPart_cut hlen
  cases h with
  | simple hs' => exact absurd hs' (by simp [hs])
  | redirection hs' => exact absurd hs' (by simp [hs])
  | pipe hs' _ hr' hsa hsb =>
      obtain ⟨rfl, rfl⟩ := Special.pipe.inj (Option.some.inj (hs.symm.trans hs'))
      obtain rfl := Option.some.inj (hright.symm.trans hr')
      rw [leftPart_cut hlen] at hsa
      exact ⟨hsa, hsb⟩

/-- The program of the left command of a pipe. -/
theorem stage_left {t : Descriptors Channel} (hstd : Standard t) (ampersand : Bool) :
    stage a (lookup (t.set (output ampersand) (some (.writeEnd n))) STDIN)
        (lookup (t.set (output ampersand) (some (.writeEnd n))) STDOUT)
        (lookup (t.set (output ampersand) (some (.writeEnd n))) STDERR) =
      stage a (lookup t STDIN) (if ampersand then lookup t STDOUT else some (.writeEnd n))
        (if ampersand then some (.writeEnd n) else lookup t STDERR) := by
  obtain ⟨d₁, h₁⟩ := hstd STDOUT (by decide)
  obtain ⟨d₂, h₂⟩ := hstd STDERR (by decide)
  have hlt₁ := lt_length_of_lookup h₁
  have hlt₂ := lt_length_of_lookup h₂
  cases ampersand with
  | true => simp [output, Descriptors.lookup_set, STDIN, STDOUT, STDERR] at hlt₂ ⊢
            simp [hlt₂]
  | false => simp [output, Descriptors.lookup_set, STDIN, STDOUT, STDERR] at hlt₁ ⊢
             simp [hlt₁]

/-- The rest of a pipe after its first command, if the commands on the right do what they should. -/
theorem spec_rest {r x : ℕ} {w₀ : World} {p : Prog Halt World Unit} (ha : '|' ∉ a)
    (hlen : (a ++ '|' :: b).length < 2 ^ 31) (hstd : Standard w₀.fds)
    (hk : k.pipes w₀.clock = true) (hr : w₀.fds[r]? = some none) (hx : w₀.fds[x]? = some none)
    (hne : r ≠ x)
    (hfds : w.fds = (w₀.fds.set r (some (.readEnd w₀.pipes))).set x (some (.writeEnd w₀.pipes)))
    (hfree : free w.fds + 2 = free w₀.fds) (hcore : w.core = w₀.core) (hpipes : w.pipes = w₀.pipes + 1)
    (hacts : Acts (k.Works ∧ 2 ≤ free w₀.fds) (stage a (lookup w₀.fds STDIN)
      (if b.head? == some '&' then lookup w₀.fds STDOUT else some (.writeEnd w₀.pipes))
      (if b.head? == some '&' then some (.writeEnd w₀.pipes) else lookup w₀.fds STDERR))
      (Event.Sees w₀.fds w₀.pipes) w₀ w)
    (hp : ∀ w, Standard w.fds → p.Spec w (fun _ w' => Ran k (stripSign b) w w')
      fun h => Halted k (stripSign b) w h) :
    Prog.Spec (do
      let stdinCopy ← rightSide r x
      p
      sdup2 stdinCopy STDIN
      sclose stdinCopy) w (fun _ w' => Ran k (a ++ '|' :: b) w₀ w')
        fun h => Halted k (a ++ '|' :: b) w₀ h := by
  have hlost : Lost k (a ++ '|' :: b) w₀ ↔ free w₀.fds = 2 := by
    rw [Lost, isSpecialCommand_pipe ha]
    exact and_iff_left hk
  apply spec_piped hstd hr hx hne hfds hfree
  intro w₁ hq hstd₁ h₀ h₁ h₂ hch hfree₁
  have hpipes₁ : w₁.pipes = w₀.pipes + 1 := hq.pipes.trans hpipes
  have hwiring : w₁.wiring (stripSign b) = wiring (lookup w₀.fds STDOUT) (lookup w₀.fds STDERR)
      (w₀.pipes + 1) (some (.readEnd w₀.pipes)) (parts (stripSign b)) (signs (stripSign b)) := by
    rw [World.wiring, h₀, h₁, h₂, hpipes₁]
  have hsees : ∀ e : Event, e.Sees w₁.fds w₁.pipes → e.Sees w₀.fds w₀.pipes := fun e he =>
    Event.Sees.right (hpipes₁ ▸ he) hch
  have hquiet : Acts (k.Works ∧ 2 ≤ free w₀.fds) [] (Event.Sees w₀.fds w₀.pipes) w w₁ :=
    hq.acts fun _ => trivial
  refine (hp w₁ hstd₁).mono (fun _ w₂ h => ?_) fun h hh => ?_
  · have hset : ∃ q, w₀.pipes ≤ q ∧ w₂.fds = w₁.fds.set STDIN (some (.readEnd q)) := by
      by_cases hl : Lost k (stripSign b) w₁
      · obtain ⟨q, hq, hfds₂⟩ | ⟨hone, -⟩ := h.restores.lost hl
        · exact ⟨q, by omega, hfds₂⟩
        · omega
      · exact ⟨w₀.pipes, le_rfl, by rw [h.restores.kept hl, set_self h₀]⟩
    obtain ⟨q, hle, hset⟩ := hset
    refine ⟨⟨_, hset⟩, fun w' hq' hpos hzero => ⟨?_, ⟨fun hl => hpos ?_, fun hl => .inl ?_⟩, ?_⟩⟩
    · rw [World.wiring, wiring_cut ha, ← hwiring]
      have hright : Acts (k.Works ∧ 2 ≤ free w₀.fds) (w₁.wiring (stripSign b))
          (Event.Sees w₀.fds w₀.pipes) w₁ w₂ := h.acts.mono (fun hx => ⟨hx.1, hfree₁⟩) hsees
      have hall := ((hacts.trans hquiet).trans hright).trans (hq'.acts fun _ => trivial)
      simpa using hall
    · rw [hlost] at hl
      omega
    · rw [hlost] at hl
      obtain ⟨he₁, he₂⟩ := hzero (by omega)
      exact ⟨q, hle, by rw [he₂, hset, he₁, List.set_set]⟩
    · have hc₁ : w₁.core = w₀.core := hq.core.trans hcore
      obtain ⟨hx, hc⟩ | ⟨w₃, w₄, hrun, hc₃, hc₄⟩ := h.affects
      · exact .inl ⟨fun hx' => hx ⟨hx'.1, hfree₁⟩, hq'.core.trans (hc.trans hc₁)⟩
      · exact .inr ⟨w₃, w₄, by rw [lastCommand_cut ha, hrun], hc₃.trans hc₁, hc₄.trans hq'.core.symm⟩
  · refine ⟨hh.reason, fun hforks hsound => hh.unsound hforks (hsound.of_pipe ha hlen).2, ?_⟩
    rw [World.wiring, wiring_cut ha, ← hwiring]
    have hright : Acts False (w₁.wiring (stripSign b)) (Event.Sees w₀.fds w₀.pipes) w₁ h.world :=
      hh.acts.mono False.elim hsees
    have hall := ((hacts.trans hquiet).mono False.elim fun e he => he).trans hright
    simpa using hall

/-- **A line with a pipe**, if the commands on its right do what they should. -/
theorem spec_pipeLine (ha : '|' ∉ a) (hlen : (a ++ '|' :: b).length < 2 ^ 31)
    (hcmd : createCommand (a ++ '|' :: b) = some cmd) (hstd : Standard w.fds) (background : Bool)
    (hright : ∀ cmd, createCommand (stripSign b) = some cmd → cmd.args.isSome →
      ∀ w, Standard w.fds → (execute k (fuel + 2) { cmd with background := false }).Spec w
        (fun _ w' => Ran k (stripSign b) w w') fun h => Halted k (stripSign b) w h) :
    (execute k (fuel + 3) { cmd with background := background }).Spec w
      (fun _ w' => Ran k (a ++ '|' :: b) w w') fun h => Halted k (a ++ '|' :: b) w h := by
  have hs := isSpecialCommand_pipe (b := b) ha
  have hleft := leftPart_cut (c := '|') hlen
  have hrightPart : rightPart (a ++ '|' :: b) (toInt a.length) (b.head? == some '&') =
      some (stripSign b) := rightPart_cut hlen
  have hkind : cmd.kind = .pipe (toInt a.length) (b.head? == some '&') := by
    rw [← Option.some.inj ((createCommand_pipe hs).symm.trans hcmd)]
    rfl
  have horig := createCommand_originalCmd hcmd
  have hlena : a.length < 2 ^ 31 := by
    rw [List.length_append] at hlen
    omega
  rw [execute_pipe (by exact hkind), executePipe]
  simp only [horig, hleft, hrightPart]
  by_cases hopen : k.pipes w.clock = true ∧ 2 ≤ free w.fds
  · obtain ⟨r, x, t', hpipe, hrun⟩ := run_makePipe_some hopen.1 hopen.2
    obtain ⟨hr, hx, hne, rfl, hfree⟩ := pipe_some hpipe
    apply Prog.Spec.bind_ok hrun
    have hhalt (t : Descriptors Channel) (reason : Reason) (hreason : reason ≠ .fuel)
        (hunsound : ¬Sound (a ++ '|' :: b)) : Halted k (a ++ '|' :: b) w ⟨reason, w.piped t⟩ :=
      ⟨hreason, fun _ => hunsound, (Acts.refl rfl False.elim)⟩
    have hnoLeft (h : ∀ cmd, createCommand a = some cmd → ¬cmd.args.isSome) :
        ¬Sound (a ++ '|' :: b) := by
      intro hsound
      obtain ⟨cmd, hcmd, hargs⟩ := (hsound.of_pipe ha hlen).1.created
      exact h cmd hcmd hargs
    have hnoRight (h : ∀ cmd, createCommand (stripSign b) = some cmd → ¬cmd.args.isSome) :
        ¬Sound (a ++ '|' :: b) := by
      intro hsound
      obtain ⟨cmd, hcmd, hargs⟩ := (hsound.of_pipe ha hlen).2.created
      exact h cmd hcmd hargs
    apply Prog.Spec.bind
    apply spec_create
    · intro hnone
      have hunsound := hnoLeft fun cmd hcmd => by simp [hnone] at hcmd
      apply Prog.Spec.bind
      apply Prog.spec_pure
      apply Prog.Spec.bind
      apply spec_create
      · exact fun _ => hhalt _ .null (by simp) hunsound
      · exact fun _ _ _ => hhalt _ .null (by simp) hunsound
      · exact fun _ _ _ => hhalt _ .undefined (by simp) hunsound
    · intro cmd₁ hcmd₁ hargs₁
      apply Prog.Spec.bind
      apply Prog.spec_pure
      apply Prog.Spec.bind
      apply spec_create
      · intro hnone
        exact hhalt _ .null (by simp) (hnoRight fun cmd hcmd => by simp [hnone] at hcmd)
      · intro cmd₂ hcmd₂ hargs₂
        apply Prog.Spec.bind
        apply Prog.spec_pure
        apply Prog.Spec.bind
        apply Prog.spec_pure
        apply Prog.Spec.bind
        have hrest (w₁ : World) (hprocess : w₁.process = (w.piped _).process)
            (hpipes : w₁.pipes = w.pipes + 1) (hacts : Acts (k.Works ∧ 2 ≤ free w.fds) _ _ w w₁) :=
          spec_rest (w := w₁) (p := execute k (fuel + 2) { cmd₂ with background := false })
            ha hlen hstd hopen.1 hr hx hne (congrArg Process.fds hprocess)
            (by rw [← hfree, World.fds, hprocess]; rfl) (by rw [World.core, hprocess]; rfl) hpipes
            hacts (hright cmd₂ hcmd₂ hargs₂)
        apply spec_sfork
        · intro hfork
          have hfork' : k.forks (w.clock + 1) = false := hfork
          refine ⟨by simp, fun hforks => absurd (hforks (w.clock + 1)) (by simp [hfork']), ?_⟩
          exact .log rfl False.elim rfl trivial
        · intro _
          apply Prog.Spec.bind_ok (run_leftSide hstd hr hx hne rfl)
          have hstage := stage_left (t := w.fds) (a := a) (n := w.pipes) hstd (b.head? == some '&')
          obtain ⟨d, hd⟩ := hstd _ (output_le (b.head? == some '&'))
          have hfree' : free (w.fds.set (output (b.head? == some '&')) (some (.writeEnd w.pipes))) =
              free w.fds := free_reopen hd
          have hstd' := hstd.reset (output (b.head? == some '&')) (.writeEnd w.pipes)
          refine (spec_part (w := World.withFds _ _) ha hlena hcmd₁ hargs₁ hstd' false).mono
            (fun _ w₂ h => ?_) fun h hh => ?_
          · have hacts := h.acts
            rw [withFds_fds, hstage, hfree'] at hacts
            exact hrest _ rfl h.pipes (((hacts.mono (fun hx => ⟨hx.1, by omega⟩)
              fun e he => he.sees_left).from w rfl).to { w₂ with process := _ } rfl)
          · have hacts := hh.acts
            rw [withFds_fds, hstage, hfree'] at hacts
            refine ⟨hh.reason, fun _ => ⟨hh.reason, fun hforks hsound =>
              hh.unsound hforks (hsound.of_pipe ha hlen).1, ?_⟩, fun _ => ?_⟩
            · rw [World.wiring, wiring_cut ha]
              have hleft : Acts False _ (Event.Sees w.fds w.pipes) w h.world :=
                (hacts.mono False.elim fun e he => he.sees_left).from w rfl
              exact hleft.trans (.refl rfl False.elim)
            · exact hrest _ rfl hh.pipes (((hacts.mono (fun hx => ⟨hx.1, by omega⟩)
                fun e he => he.sees_left).from w rfl).to { h.world with process := _ } rfl)
      · intro cmd₂ hcmd₂ hargs₂
        refine hhalt _ .undefined (by simp) (hnoRight fun cmd hcmd => ?_)
        obtain rfl := Option.some.inj (hcmd₂.symm.trans hcmd)
        simp [hargs₂]
    · intro cmd₁ hcmd₁ hargs₁
      refine hhalt _ .undefined (by simp) (hnoLeft fun cmd hcmd => ?_)
      obtain rfl := Option.some.inj (hcmd₁.symm.trans hcmd)
      simp [hargs₁]
  · have hnot : k.pipes w.clock = true → free w.fds < 2 := by
      intro hk
      by_contra hge
      exact hopen ⟨hk, by omega⟩
    have hexact : ¬(k.Works ∧ 2 ≤ free w.fds) := fun hx => hopen ⟨hx.1.pipes _, hx.2⟩
    apply Prog.Spec.bind_ok (run_makePipe_none hnot)
    apply Prog.spec_modify
    refine ⟨.log rfl (fun hx => absurd hx hexact) rfl trivial, ⟨fun _ => rfl, fun hl => ?_⟩,
      .inl ⟨hexact, rfl⟩⟩
    rw [Lost, hs] at hl
    exact absurd ⟨hl.2, hl.1.ge⟩ hopen

/-- **A command**: by induction on the length of its line. -/
theorem spec_execute (hlen : line.length < 2 ^ 31) (hcmd : createCommand line = some cmd)
    (hargs : cmd.args.isSome) (hstd : Standard w.fds) (hfuel : line.length + 2 ≤ fuel)
    (background : Bool) : (execute k fuel { cmd with background := background }).Spec w
      (fun _ w' => Ran k line w w') fun h => Halted k line w h := by
  induction hn : line.length using Nat.strong_induction_on
    generalizing line cmd w fuel background with
  | _ n ih =>
      subst hn
      by_cases hpipe : '|' ∈ line
      · obtain ⟨a, b, rfl, ha⟩ := List.eq_append_cons_of_mem hpipe
        have hb := length_stripSign_le b
        have hlen' := hlen
        rw [List.length_append, List.length_cons] at hlen' hfuel
        obtain ⟨fuel, rfl⟩ : ∃ f, fuel = f + 3 := ⟨fuel - 3, by omega⟩
        apply spec_pipeLine ha hlen hcmd hstd
        intro cmd₂ hcmd₂ hargs₂ w₂ hstd₂
        exact ih _ (by simp; omega) (by omega) hcmd₂ hargs₂ hstd₂ (by omega) false rfl
      · obtain ⟨fuel, rfl⟩ : ∃ f, fuel = f + 2 := ⟨fuel - 2, by omega⟩
        exact (spec_part hpipe hlen hcmd hargs hstd background).mono (fun _ _ h => h.ran hpipe)
          fun _ h => h.halted hpipe

/-- **`executeCommand`.** -/
theorem spec_executeCommand (hlen : line.length < 2 ^ 31) (hstd : Standard w.fds) :
    (executeCommand k line).Spec w (fun _ w' => Ran k line w w') fun h => Halted k line w h := by
  apply Prog.Spec.bind
  apply spec_create
  · intro hnone
    have hb := createCommand_eq_none.mp hnone
    have hs : isSpecialCommand line = none := by
      by_contra hs
      exact not_blank_of_special hs hb
    have hnot := isSpecialCommand_eq_none.mp hs
    have hbefore : beforeRedirection line = line :=
      List.takeWhile_eq_self_iff.mpr fun x hx => bne_iff_ne.mpr fun he => hnot.2 (he ▸ hx)
    apply Prog.spec_pure
    refine ⟨.refl rfl fun _ => ?_, ⟨fun _ => rfl, fun hl => ?_⟩, .inr ⟨w, w, ?_, rfl, rfl⟩⟩
    · rw [World.wiring, wiring_single hnot.1, stage, hbefore, hnone]
      rfl
    · rw [Lost, hs] at hl
      exact hl.elim
    · have hcreate : (create line).run w = .ok (none, w) := by
        rw [create, hnone]
        rfl
      rw [lastCommand_single hnot.1, hbefore, executeCommand, Prog.run_bind_ok hcreate]
      rfl
  · intro cmd hcmd hargs
    exact spec_execute hlen hcmd hargs hstd le_rfl cmd.background
  · intro cmd hcmd hargs
    refine ⟨by simp, fun _ hsound => ?_, .refl rfl False.elim⟩
    obtain ⟨cmd', hcmd', hargs'⟩ := hsound.created
    obtain rfl := Option.some.inj (hcmd.symm.trans hcmd')
    simp [hargs] at hargs'

end OsProjects.Smash.CommandLine
