import OsProjects.Lib.Triples
import OsProjects.WebServer.Rio

/-! # Robust input and output

The Rio package of `segel.c` on a connection whose `read` and `write` transfer as many bytes as
they like, are interrupted by signals and fail.  How the next calls come out is part of the state,
and a call without an outcome waits.  Whatever the outcomes, `rio_writen` has written a part in front
of the buffer, and all of it if it returns; and any sequence of buffered reads cuts the bytes of
the client as if they were there at once. -/

namespace OsProjects.WebServer.Segel

/-- `errno`, as far as it is looked at. -/
inductive Errno where
  | eintr
  | other
deriving DecidableEq, Repr

/-- How a system call comes out. -/
inductive Outcome where
  /-- It transfers so many bytes at most. -/
  | upTo (n : ℕ)
  | fails (errno : Errno)
deriving DecidableEq, Repr

/-- A connection, with the `rio_t` on it. -/
structure Conn where
  /-- What the other side has sent or will send before it closes its end. -/
  incoming : Text
  /-- What was written. -/
  outgoing : Text
  /-- How the next calls come out. -/
  outcomes : List Outcome
  errno : Errno
  /-- The unread bytes in the buffer of the `rio_t`. -/
  unread : Text
deriving DecidableEq, Repr

/-- The bytes that are still to be read. -/
def Conn.stream (c : Conn) : Text := c.unread ++ c.incoming

inductive Reason where
  | waits
  /-- `unix_error` -/
  | exits
deriving DecidableEq, Repr

/-- A process that waits for its other side, or has come to an end. -/
structure Stop where
  reason : Reason
  conn : Conn
deriving DecidableEq, Repr

abbrev Io := Prog Stop Conn

def stop {α : Type} (reason : Reason) : Io α := fun c => .error ⟨reason, c⟩

/-! ### System calls -/

/-- `read`: one byte at least, unless there is none left; `none` is `-1`. -/
def read (n : ℕ) : Io (Option Text) := fun c =>
  match c.outcomes with
  | [] => .error ⟨.waits, c⟩
  | .fails errno :: outcomes => .ok (none, { c with outcomes := outcomes, errno := errno })
  | .upTo k :: outcomes =>
    let m := min n (max 1 k)
    .ok (some (c.incoming.take m), { c with outcomes := outcomes, incoming := c.incoming.drop m })

def write (s : Text) : Io (Option ℕ) := fun c =>
  match c.outcomes with
  | [] => .error ⟨.waits, c⟩
  | .fails errno :: outcomes => .ok (none, { c with outcomes := outcomes, errno := errno })
  | .upTo k :: outcomes =>
    .ok (some (min k s.length), { c with outcomes := outcomes, outgoing := c.outgoing ++ s.take k })

/-! ### Unbuffered -/

/-- The loop of `rio_writen` on what is left to write.  A call that writes nothing is taken for
interrupted if an earlier one was. -/
def rioWritenGo : ℕ → Text → Io (Option Unit)
  | 0, _ => stop .waits
  | fuel + 1, bufp =>
    if bufp = [] then pure (some ())
    else do
      let nwritten ← write bufp
      if nwritten.getD 0 = 0 then
        if (← Prog.gets Conn.errno) = .eintr then rioWritenGo fuel bufp else pure none
      else rioWritenGo fuel (bufp.drop (nwritten.getD 0))

/-- `rio_writen` -/
def rioWriten (usrbuf : Text) : Io (Option Unit) := fun c =>
  rioWritenGo (c.outcomes.length + 1) usrbuf c

/-! ### Buffered -/

/-- `rio_readinitb` -/
def rioReadinitb : Io Unit := Prog.modify fun c => { c with unread := [] }

/-- `rio_read`: no byte at the end of the stream. -/
def rioReadGo : ℕ → ℕ → Io (Option Text)
  | 0, _ => stop .waits
  | fuel + 1, n => do
    let unread ← Prog.gets Conn.unread
    if unread = [] then
      match ← read rioBufsize with
      | none => do
        if (← Prog.gets Conn.errno) ≠ .eintr then pure none else rioReadGo fuel n
      | some [] => pure (some [])
      | some bytes => do
        Prog.modify fun c => { c with unread := bytes }
        rioReadGo fuel n
    else do
      Prog.modify fun c => { c with unread := unread.drop n }
      pure (some (unread.take n))

def rioRead (n : ℕ) : Io (Option Text) := fun c => rioReadGo (c.outcomes.length + 2) n c

/-- The loop of `rio_readnb`, with what it has read so far. -/
def rioReadnbGo : ℕ → ℕ → Text → Io (Option Text)
  | 0, _, _ => stop .waits
  | fuel + 1, nleft, buf =>
    if nleft = 0 then pure (some buf)
    else do
      match ← rioRead nleft with
      | none => do
        if (← Prog.gets Conn.errno) = .eintr then rioReadnbGo fuel nleft buf else pure none
      | some [] => pure (some buf)
      | some bytes => rioReadnbGo fuel (nleft - bytes.length) (buf ++ bytes)

/-- `rio_readnb`; every turn of the loop reads a byte, or is interrupted. -/
def rioReadnb (n : ℕ) : Io (Option Text) := fun c =>
  rioReadnbGo (n + c.outcomes.length + 1) n [] c

/-- The loop of `rio_readlineb` with `k = maxlen - n`: the returned number, and the string that is
in the buffer afterwards unless it was left alone. -/
def rioReadlinebGo : ℕ → ℕ → Text → Io (Option (ℕ × Option Text))
  | 0, n, buf => pure (some (n, some buf))
  | k + 1, n, buf => do
    match ← rioRead 1 with
    | none => pure none
    | some [] => pure (some (if n = 1 then (0, none) else (n, some buf)))
    | some (c :: _) =>
      if c = '\n' then pure (some (n, some (buf ++ [c]))) else rioReadlinebGo k (n + 1) (buf ++ [c])

def rioReadlineb (maxlen : ℕ) : Io (Option (ℕ × Option Text)) := rioReadlinebGo (maxlen - 1) 1 []

/-! ### Wrappers -/

/-- `unix_error` if the result is `-1`. -/
def orExit {α : Type} (p : Io (Option α)) : Io α := do
  match ← p with
  | some a => pure a
  | none => stop .exits

/-- `Rio_writen` -/
def RioWriten (usrbuf : Text) : Io Unit := orExit (rioWriten usrbuf)

/-- `Rio_readnb` -/
def RioReadnb (n : ℕ) : Io Text := orExit (rioReadnb n)

/-- `Rio_readlineb` -/
def RioReadlineb (maxlen : ℕ) : Io (ℕ × Option Text) := orExit (rioReadlineb maxlen)

/-! ### What moves -/

/-- The calls that transfer bytes. -/
def transfers (outcomes : List Outcome) : ℕ :=
  outcomes.countP fun | .upTo _ => true | .fails _ => false

/-- Every call transfers a byte or is interrupted. -/
def Steady (outcomes : List Outcome) : Prop :=
  ∀ a ∈ outcomes, a = .fails .eintr ∨ ∃ k, 0 < k ∧ a = .upTo k

/-- From `c` to `c'` the bytes `i` were read and the bytes `o` written, and the end of the stream
was seen `e` times.  Every transfer moved a byte or saw the end. -/
structure Conn.Moves (c c' : Conn) (i o : Text) (e : ℕ) : Prop where
  stream : c.stream = i ++ c'.stream
  outgoing : c'.outgoing = c.outgoing ++ o
  outcomes : c'.outcomes <:+ c.outcomes
  budget : Steady c.outcomes → transfers c.outcomes + c'.incoming.length ≤
    transfers c'.outcomes + c.incoming.length + o.length + e

/-- The process waits because no outcome is left. -/
def Stop.Waits (s : Stop) : Prop := s.reason = .waits ∧ s.conn.outcomes = []

/-- The last call between `c` and `c'` has failed, and not by an interruption, or has written
nothing. -/
def Conn.Failed (c c' : Conn) : Prop :=
  ∃ before a, c.outcomes = before ++ a :: c'.outcomes ∧ (a = .fails .other ∨ a = .upTo 0)

variable {c c' c₁ : Conn} {i i' o o' s : Text} {e e' n fuel : ℕ}

theorem Steady.suffix {l l' : List Outcome} (h : Steady l) (hl : l' <:+ l) : Steady l' :=
  fun a ha => h a (hl.mem ha)

theorem Conn.Failed.not_steady (h : c.Failed c') : ¬Steady c.outcomes := by
  obtain ⟨before, a, he, ha⟩ := h
  intro hsteady
  have hmem : a ∈ c.outcomes := he ▸ List.mem_append_right _ List.mem_cons_self
  obtain rfl | ⟨k, hk, rfl⟩ := hsteady a hmem
  · obtain h | h := ha <;> cases h
  · obtain h | h := ha
    · cases h
    · cases h
      exact absurd hk (Nat.lt_irrefl 0)

theorem Conn.Failed.after (hl : c₁.outcomes <:+ c.outcomes) (h : c₁.Failed c') : c.Failed c' := by
  obtain ⟨before', he'⟩ := hl
  obtain ⟨before, a, he, ha⟩ := h
  exact ⟨before' ++ before, a, by rw [← he', he, List.append_assoc], ha⟩

theorem Conn.moves_refl (c : Conn) : c.Moves c [] [] 0 :=
  ⟨rfl, by simp, List.suffix_refl _, fun _ => by simp⟩

theorem Conn.Moves.trans (h : c.Moves c₁ i o e) (h' : c₁.Moves c' i' o' e') :
    c.Moves c' (i ++ i') (o ++ o') (e + e') where
  stream := by rw [h.stream, h'.stream, List.append_assoc]
  outgoing := by rw [h'.outgoing, h.outgoing, List.append_assoc]
  outcomes := h'.outcomes.trans h.outcomes
  budget hsteady := by
    have h₁ := h.budget hsteady
    have h₂ := h'.budget (hsteady.suffix h.outcomes)
    rw [List.length_append]
    omega

/-- A process waits only after so many transfers. -/
theorem Conn.Moves.transfers_le (h : c.Moves c' i o e) (hsteady : Steady c.outcomes)
    (hwaits : c'.outcomes = []) : transfers c.outcomes ≤ c.incoming.length + o.length + e := by
  have hbudget := h.budget hsteady
  rw [hwaits] at hbudget
  have : transfers [] = 0 := rfl
  omega

/-! ### Writing -/

theorem spec_write (hs : s ≠ []) : (write s).Spec c
    (fun r c' => r.getD 0 ≤ s.length ∧ c.Moves c' [] (s.take (r.getD 0)) 0 ∧
      c'.outcomes.length < c.outcomes.length ∧
        (r.getD 0 = 0 → c'.errno = .eintr ∨ c.Failed c'))
    fun stop => stop.Waits ∧ stop.conn = c := by
  obtain ⟨incoming, outgoing, outcomes, errno, unread⟩ := c
  have hlen := List.length_pos_iff.mpr hs
  obtain _ | ⟨k | err, outcomes⟩ := outcomes
  · exact ⟨⟨rfl, rfl⟩, rfl⟩
  · have htake : s.take (min k s.length) = s.take k := by simp [List.take_eq_take_iff]
    have hpos : Steady (.upTo k :: outcomes) → 0 < k := by
      intro h
      obtain h | ⟨_, h, ⟨⟩⟩ := h _ List.mem_cons_self
      · cases h
      · exact h
    refine ⟨Nat.min_le_right _ _, ⟨rfl, ?_, List.suffix_cons _ _, fun hsteady => ?_⟩,
      Nat.lt_succ_self _, fun hzero => .inr ⟨[], .upTo k, rfl, .inr ?_⟩⟩
    · simp [htake]
    · have := hpos hsteady
      simp [transfers]
      omega
    · simp only [Option.getD_some] at hzero
      exact congrArg _ (by omega : k = 0)
  · refine ⟨Nat.zero_le _, ⟨rfl, by simp, List.suffix_cons _ _, fun _ => by simp [transfers]⟩,
      Nat.lt_succ_self _, fun _ => ?_⟩
    cases err with
    | eintr => exact .inl rfl
    | other => exact .inr ⟨[], _, rfl, .inl rfl⟩

/-- The loop of `rio_writen`, by induction on the outcomes that are left. -/
theorem spec_rioWritenGo (bufp : Text) (hfuel : c.outcomes.length < fuel) :
    (rioWritenGo fuel bufp).Spec c
      (fun r c' => ∃ k ≤ bufp.length, c.Moves c' [] (bufp.take k) 0 ∧
        (r = some () ↔ k = bufp.length) ∧ (r = none → c.Failed c'))
      fun stop => stop.Waits ∧ ∃ k < bufp.length, c.Moves stop.conn [] (bufp.take k) 0 := by
  induction fuel generalizing bufp c with
  | zero => omega
  | succ fuel ih =>
      rw [rioWritenGo]
      apply Prog.Spec.ite
      · rintro rfl
        exact ⟨0, Nat.le_refl 0, c.moves_refl, by simp, nofun⟩
      · intro hne
        have hpos := List.length_pos_iff.mpr hne
        apply Prog.Spec.bind
        refine (spec_write hne).mono (fun r c₁ h => ?_) fun stop h => ?_
        · obtain ⟨hr, hm, hlt, hzero⟩ := h
          apply Prog.Spec.ite
          · -- nothing was written
            intro hnil
            rw [hnil, List.take_zero] at hm
            apply Prog.Spec.bind
            apply Prog.spec_gets
            apply Prog.Spec.ite
            · intro _
              refine (ih bufp (by omega)).mono (fun r c₂ h => ?_) fun stop h => ?_
              · obtain ⟨k, hk, hm₂, hr, hnone⟩ := h
                exact ⟨k, hk, hm.trans hm₂, hr, fun h => (hnone h).after hm.outcomes⟩
              · obtain ⟨hwaits, k, hk, hm₂⟩ := h
                exact ⟨hwaits, k, hk, hm.trans hm₂⟩
            · intro herr
              refine ⟨0, Nat.zero_le _, hm, ?_, fun _ => (hzero hnil).resolve_left herr⟩
              simp only [reduceCtorEq, false_iff]
              omega
          · intro _
            have hlen : (bufp.drop (r.getD 0)).length = bufp.length - r.getD 0 := List.length_drop
            refine (ih (bufp.drop (r.getD 0)) (by omega)).mono (fun r' c₂ h => ?_) fun stop h => ?_
            · obtain ⟨k, hk, hm₂, hr', hnone⟩ := h
              refine ⟨r.getD 0 + k, by omega, ?_, by rw [hr']; omega,
                fun h => (hnone h).after hm.outcomes⟩
              rw [List.take_add]
              exact hm.trans hm₂
            · obtain ⟨hwaits, k, hk, hm₂⟩ := h
              refine ⟨hwaits, r.getD 0 + k, by omega, ?_⟩
              rw [List.take_add]
              exact hm.trans hm₂
        · obtain ⟨hwaits, he⟩ := h
          exact ⟨hwaits, 0, hpos, he ▸ c.moves_refl⟩

/-! ### Reading -/

/-- What a call that reads `n` bytes at most has done. -/
def Conn.Reads (c c' : Conn) (n : ℕ) : Option Text → Prop
  | none => c.Moves c' [] [] 0 ∧ (c'.errno = .eintr ∨ c.Failed c')
  | some b => c.Moves c' b [] (if b = [] then 1 else 0) ∧ b.length ≤ n ∧ (b = [] → c.stream = [])

theorem Conn.Reads.after {r : Option Text} (hm : c.Moves c₁ [] [] 0) (h : c₁.Reads c' n r) :
    c.Reads c' n r := by
  cases r with
  | none => exact ⟨hm.trans h.1, h.2.imp_right (Failed.after hm.outcomes)⟩
  | some b =>
      refine ⟨?_, h.2.1, fun hb => hm.stream.trans (h.2.2 hb)⟩
      have := hm.trans h.1
      rwa [Nat.zero_add] at this

theorem spec_read (hu : c.unread = []) (hn : 0 < n) : (read n).Spec c
    (fun r c' => c'.unread = [] ∧ c'.outcomes.length < c.outcomes.length ∧ c.Reads c' n r)
    fun stop => stop.Waits ∧ stop.conn = c := by
  obtain ⟨incoming, outgoing, outcomes, errno, unread⟩ := c
  obtain rfl : unread = [] := hu
  obtain _ | ⟨k | err, outcomes⟩ := outcomes
  · exact ⟨⟨rfl, rfl⟩, rfl⟩
  · obtain ⟨m, hm⟩ : ∃ m, min n (max 1 k) = m + 1 := Nat.exists_eq_succ_of_ne_zero (by omega)
    have hle : m + 1 ≤ n := hm ▸ Nat.min_le_left _ _
    refine ⟨rfl, Nat.lt_succ_self _, ⟨?_, by simp, List.suffix_cons _ _, fun _ => ?_⟩, ?_, ?_⟩
    · exact (List.take_append_drop _ _).symm
    · simp only [hm]
      cases incoming with
      | nil => simp [transfers]
      | cons a incoming => simp [transfers]; omega
    · simp only [hm, List.length_take]
      omega
    · intro hnil
      simp only [hm] at hnil
      cases incoming with
      | nil => rfl
      | cons a incoming => cases hnil
  · refine ⟨rfl, Nat.lt_succ_self _, ⟨rfl, by simp, List.suffix_cons _ _, fun _ => by
      simp [transfers]⟩, ?_⟩
    cases err with
    | eintr => exact .inl rfl
    | other => exact .inr ⟨[], _, rfl, .inl rfl⟩

/-- The loop of `rio_read`, by induction on the outcomes that are left. -/
theorem spec_rioReadGo (hn : 0 < n)
    (hfuel : c.outcomes.length + (if c.unread = [] then 2 else 1) ≤ fuel) :
    (rioReadGo fuel n).Spec c (fun r c' => c.Reads c' n r ∧ (r = none → c'.errno ≠ .eintr))
      fun stop => stop.Waits ∧ c.Moves stop.conn [] [] 0 := by
  induction fuel generalizing c with
  | zero => split at hfuel <;> omega
  | succ fuel ih =>
      rw [rioReadGo]
      apply Prog.Spec.bind
      apply Prog.spec_gets
      apply Prog.Spec.ite
      · intro hu
        rw [if_pos hu] at hfuel
        apply Prog.Spec.bind
        refine (spec_read hu (by decide)).mono (fun r c₁ h => ?_) fun stop h => ?_
        · obtain ⟨hu₁, hlt, hr⟩ := h
          obtain _ | _ | ⟨a, b⟩ := r
          · apply Prog.Spec.bind
            apply Prog.spec_gets
            apply Prog.Spec.ite
            · exact fun herr => ⟨hr, fun _ => herr⟩
            · intro _
              refine (ih (by rw [if_pos hu₁]; omega)).mono (fun r c₂ h => ?_) fun stop h => ?_
              · exact ⟨h.1.after hr.1, h.2⟩
              · exact ⟨h.1, hr.1.trans h.2⟩
          · exact ⟨⟨hr.1, Nat.zero_le _, hr.2.2⟩, nofun⟩
          · obtain ⟨hm, -⟩ := hr
            -- the bytes are in the buffer, and not read yet
            have hm₁ : c.Moves { c₁ with unread := a :: b } [] [] 0 :=
              { stream := by simpa [Conn.stream, hu₁] using hm.stream
                outgoing := hm.outgoing
                outcomes := hm.outcomes
                budget := hm.budget }
            apply Prog.Spec.bind
            apply Prog.spec_modify
            refine (ih ?_).mono (fun r c₂ h => ?_) fun stop h => ?_
            · rw [if_neg (List.cons_ne_nil _ _)]
              show c₁.outcomes.length + 1 ≤ fuel
              omega
            · exact ⟨h.1.after hm₁, h.2⟩
            · exact ⟨h.1, hm₁.trans h.2⟩
        · exact ⟨h.1, h.2 ▸ c.moves_refl⟩
      · intro hu
        apply Prog.Spec.bind
        apply Prog.spec_modify
        have hne : c.unread.take n ≠ [] := by
          rw [ne_eq, List.take_eq_nil_iff]
          exact not_or_intro (by omega) hu
        refine ⟨⟨?_, List.length_take_le _ _, fun h => absurd h hne⟩, nofun⟩
        rw [if_neg hne]
        refine ⟨?_, (List.append_nil _).symm, List.suffix_refl _, fun _ => by simp⟩
        show c.unread ++ c.incoming = c.unread.take n ++ (c.unread.drop n ++ c.incoming)
        rw [← List.append_assoc, List.take_append_drop]

/-- **`rio_read`** delivers the next bytes, and none only at the end of the stream. -/
theorem spec_rioRead (hn : 0 < n) : (rioRead n).Spec c
    (fun r c' => c.Reads c' n r ∧ (r = none → c'.errno ≠ .eintr))
    fun stop => stop.Waits ∧ c.Moves stop.conn [] [] 0 :=
  spec_rioReadGo hn (by split <;> omega)

/-- A call that reads `b` and returns `a` has done so, or failed before. -/
def Conn.Delivers {α : Type} (c c' : Conn) (b : Text) (a : α) : Option α → Prop
  | none => c.Failed c' ∧ ∃ b', c.Moves c' b' [] 0
  | some x => x = a ∧ ∃ e ≤ 1, c.Moves c' b [] e

theorem Conn.Delivers.after {α : Type} {a : α} {r : Option α} {b b' : Text}
    (hm : c.Moves c₁ b [] 0) (h : c₁.Delivers c' b' a r) : c.Delivers c' (b ++ b') a r := by
  cases r with
  | none =>
      obtain ⟨hs, b'', hm'⟩ := h
      exact ⟨hs.after hm.outcomes, _, hm.trans hm'⟩
  | some x =>
      obtain ⟨hx, e, he, hm'⟩ := h
      exact ⟨hx, 0 + e, by omega, hm.trans hm'⟩

/-- There is nothing more to read. -/
theorem Conn.delivers_nil (c : Conn) (buf : Text) :
    c.Delivers c (c.stream.take 0) (buf ++ c.stream.take 0) (some buf) := by
  refine ⟨by simp, 0, Nat.zero_le 1, ?_⟩
  rw [List.take_zero]
  exact c.moves_refl

/-- At the end of the stream there are fewer bytes than asked for. -/
theorem Conn.Reads.delivers_end (h : c.Reads c' n (some [])) (buf : Text) :
    c.Delivers c' (c.stream.take n) (buf ++ c.stream.take n) (some buf) := by
  obtain ⟨hm, -, hnil⟩ := h
  rw [hnil rfl, List.take_nil]
  exact ⟨(List.append_nil _).symm, 1, Nat.le_refl 1, hm⟩

/-- A part of the bytes that are asked for. -/
theorem Conn.Moves.take (h : c.Moves c' i o e) (hn : i.length ≤ n) :
    c.stream.take n = i ++ c'.stream.take (n - i.length) := by
  rw [h.stream, List.take_append, List.take_of_length_le hn]

/-- The loop of `rio_readnb`. -/
theorem spec_rioReadnbGo (nleft : ℕ) (buf : Text) (hfuel : nleft < fuel) :
    (rioReadnbGo fuel nleft buf).Spec c
      (fun r c' => c.Delivers c' (c.stream.take nleft) (buf ++ c.stream.take nleft) r)
      fun stop => stop.Waits ∧ ∃ b, c.Moves stop.conn b [] 0 := by
  induction fuel generalizing nleft buf c with
  | zero => omega
  | succ fuel ih =>
      rw [rioReadnbGo]
      apply Prog.Spec.ite
      · rintro rfl
        exact Conn.delivers_nil c buf
      · intro hpos
        apply Prog.Spec.bind
        refine (spec_rioRead (by omega)).mono (fun r c₁ h => ?_) fun stop h => ?_
        · obtain ⟨hr, herr⟩ := h
          obtain _ | _ | ⟨a, b⟩ := r
          · apply Prog.Spec.bind
            apply Prog.spec_gets
            rw [if_neg (herr rfl)]
            exact ⟨hr.2.resolve_left (herr rfl), _, hr.1⟩
          · exact hr.delivers_end buf
          · obtain ⟨hm, hle, -⟩ := hr
            rw [if_neg (List.cons_ne_nil _ _)] at hm
            rw [hm.take hle, ← List.append_assoc]
            have hlt : nleft - (a :: b).length < fuel := by
              rw [List.length_cons]
              omega
            refine (ih _ _ hlt).mono (fun r c₂ h => h.after hm) fun stop h => ?_
            obtain ⟨hwaits, b', hm'⟩ := h
            exact ⟨hwaits, _, hm.trans hm'⟩
        · exact ⟨h.1, _, h.2⟩

/-- What `rio_readlineb` returns for a line of `k` bytes at most: its length, and one more if no
newline ends it; at the end of the stream `0`, with nothing stored. -/
def lineResult (k : ℕ) (line : Text) : ℕ × Option Text :=
  if line = [] ∧ 0 < k then (0, none)
  else (if '\n' ∈ line then line.length else line.length + 1, some line)

/-- The loop of `rio_readlineb`, with `buf` already read. -/
theorem spec_rioReadlinebGo (k : ℕ) (buf : Text) (hbuf : '\n' ∉ buf) :
    (rioReadlinebGo k (buf.length + 1) buf).Spec c
      (fun r c' => c.Delivers c' (lineOf k c.stream)
        (lineResult (k + buf.length) (buf ++ lineOf k c.stream)) r)
      fun stop => stop.Waits ∧ ∃ b, c.Moves stop.conn b [] 0 := by
  induction k generalizing buf c with
  | zero =>
      refine ⟨?_, 0, Nat.zero_le 1, c.moves_refl⟩
      have hnot : ¬(buf = [] ∧ 0 < buf.length) := fun h => by simp [h.1] at h
      simp [lineResult, lineOf, hnot, hbuf]
  | succ k ih =>
      rw [rioReadlinebGo]
      apply Prog.Spec.bind
      refine (spec_rioRead Nat.one_pos).mono (fun r c₁ h => ?_) fun stop h => ?_
      · obtain ⟨hr, herr⟩ := h
        obtain _ | _ | ⟨a, b⟩ := r
        · exact ⟨hr.2.resolve_left (herr rfl), _, hr.1⟩
        · -- the end of the stream
          obtain ⟨hm, -, hnil⟩ := hr
          refine ⟨?_, 1, Nat.le_refl 1, ?_⟩
          · rw [hnil rfl]
            cases buf with
            | nil => simp [lineResult, lineOf]
            | cons d buf => simp [lineResult, lineOf, hbuf]
          · rw [hnil rfl]
            exact hm
        · obtain ⟨hm, hle, -⟩ := hr
          obtain rfl : b = [] := List.length_eq_zero_iff.mp (by simpa using hle)
          rw [if_neg (List.cons_ne_nil _ _)] at hm
          rw [hm.stream, List.singleton_append, lineOf]
          apply Prog.Spec.ite
          · rintro rfl
            rw [if_pos rfl]
            refine ⟨?_, 0, Nat.zero_le 1, hm⟩
            simp [lineResult]
          · intro hne
            have hlen : buf.length + 1 + 1 = (buf ++ [a]).length + 1 := by simp
            rw [if_neg hne, hlen]
            refine (ih (buf ++ [a]) (by simp [hbuf, Ne.symm hne])).mono
              (fun r c₂ h => ?_) fun stop h => ?_
            · have hnext := h.after hm
              rw [List.append_assoc, List.length_append] at hnext
              rwa [Nat.add_assoc, Nat.add_comm 1]
            · obtain ⟨hwaits, b', hm'⟩ := h
              exact ⟨hwaits, _, hm.trans hm'⟩
      · exact ⟨h.1, _, h.2⟩

/-! ### The wrappers -/

/-- The process has stopped with `P` of what was read and written: it waits, or a call has failed. -/
def Conn.Halts (c : Conn) (P : Text → Text → ℕ → Prop) (stop : Stop) : Prop :=
  (stop.Waits ∨ stop.reason = .exits ∧ c.Failed stop.conn) ∧
    ∃ i o e, P i o e ∧ c.Moves stop.conn i o e

theorem Conn.Halts.after {P P' : Text → Text → ℕ → Prop} {stop : Stop} (hm : c.Moves c₁ i o e)
    (h : c₁.Halts P stop) (hP : ∀ i' o' e', P i' o' e' → P' (i ++ i') (o ++ o') (e + e')) :
    c.Halts P' stop := by
  obtain ⟨hreason, i', o', e', hp, hm'⟩ := h
  exact ⟨hreason.imp_right (And.imp_right (Failed.after hm.outcomes)), _, _, _,
    hP _ _ _ hp, hm.trans hm'⟩

/-- On a steady connection with enough transfers no process stops. -/
theorem Conn.Halts.false {P : Text → Text → ℕ → Prop} {stop : Stop} (h : c.Halts P stop)
    (hsteady : Steady c.outcomes)
    (henough : ∀ i o e, P i o e → c.incoming.length + o.length + e < transfers c.outcomes) :
    False := by
  obtain ⟨hwaits | hexits, i, o, e, hp, hm⟩ := h
  · have h₁ := hm.transfers_le hsteady hwaits.2
    have h₂ := henough i o e hp
    omega
  · exact hexits.2.not_steady hsteady

/-- **`Rio_writen`** writes the whole buffer.  A process that stops in it has written a part in
front. -/
theorem spec_RioWriten (s : Text) : (RioWriten s).Spec c (fun _ c' => c.Moves c' [] s 0)
    (c.Halts fun i o e => i = [] ∧ e = 0 ∧ ∃ k < s.length, o = s.take k) := by
  apply Prog.Spec.bind
  refine (spec_rioWritenGo s (Nat.lt_succ_self _)).mono (fun r c₁ h => ?_) fun stop h => ?_
  · obtain ⟨k, hk, hm, hr, hnone⟩ := h
    cases r with
    | none =>
        refine ⟨.inr ⟨rfl, hnone rfl⟩, _, _, _, ⟨rfl, rfl, k, ?_, rfl⟩, hm⟩
        exact Nat.lt_of_le_of_ne hk fun h => nomatch hr.mpr h
    | some u =>
        have hm' := hm
        rw [hr.mp rfl, List.take_length] at hm'
        exact hm'
  · obtain ⟨hwaits, k, hk, hm⟩ := h
    exact ⟨.inl hwaits, _, _, _, ⟨rfl, rfl, k, hk, rfl⟩, hm⟩

/-- A reading call that delivers, with `unix_error` around it. -/
theorem Conn.Delivers.orExit {α : Type} {p : Io (Option α)} {b : Text} {a : α}
    (h : p.Spec c (fun r c' => c.Delivers c' b a r)
      fun stop => stop.Waits ∧ ∃ b', c.Moves stop.conn b' [] 0) :
    (orExit p).Spec c (fun x c' => x = a ∧ ∃ e ≤ 1, c.Moves c' b [] e)
      (c.Halts fun _ o e => o = [] ∧ e = 0) := by
  apply Prog.Spec.bind
  refine h.mono (fun r c₁ h => ?_) fun stop h => ?_
  · cases r with
    | none =>
        obtain ⟨hs, b', hm⟩ := h
        exact ⟨.inr ⟨rfl, hs⟩, _, _, _, ⟨rfl, rfl⟩, hm⟩
    | some x => exact h
  · obtain ⟨hwaits, b', hm⟩ := h
    exact ⟨.inl hwaits, _, _, _, ⟨rfl, rfl⟩, hm⟩

/-- **`Rio_readnb`** -/
theorem spec_RioReadnb (n : ℕ) : (RioReadnb n).Spec c
    (fun b c' => b = c.stream.take n ∧ ∃ e ≤ 1, c.Moves c' (c.stream.take n) [] e)
    (c.Halts fun _ o e => o = [] ∧ e = 0) :=
  Conn.Delivers.orExit (spec_rioReadnbGo n [] (by omega))

/-- **`Rio_readlineb`** -/
theorem spec_RioReadlineb (maxlen : ℕ) : (RioReadlineb maxlen).Spec c
    (fun r c' => r = lineResult (maxlen - 1) (lineOf (maxlen - 1) c.stream) ∧
      ∃ e ≤ 1, c.Moves c' (lineOf (maxlen - 1) c.stream) [] e)
    (c.Halts fun _ o e => o = [] ∧ e = 0) :=
  Conn.Delivers.orExit (spec_rioReadlinebGo _ [] List.not_mem_nil)

/-! ### Dialogues -/

/-- A program that talks to the other side by these calls; what it does next may depend on all
that it has read. -/
inductive Dialogue (α : Type) where
  | done (a : α)
  | writen (s : Text) (next : Dialogue α)
  | readnb (n : ℕ) (next : Text → Dialogue α)
  | readlineb (maxlen : ℕ) (next : ℕ × Option Text → Dialogue α)

namespace Dialogue

variable {α : Type}

/-- The program on a connection. -/
def run : Dialogue α → Io α
  | done a => pure a
  | writen s next => do
    RioWriten s
    next.run
  | readnb n next => do
    let b ← RioReadnb n
    (next b).run
  | readlineb maxlen next => do
    let r ← RioReadlineb maxlen
    (next r).run

protected def bind {β : Type} : Dialogue α → (α → Dialogue β) → Dialogue β
  | done a, f => f a
  | writen s next, f => writen s (next.bind f)
  | readnb n next, f => readnb n fun b => (next b).bind f
  | readlineb maxlen next, f => readlineb maxlen fun r => (next r).bind f

instance : Monad Dialogue where
  pure := done
  bind := Dialogue.bind

/-- What a program comes to. -/
structure Talk (α : Type) where
  result : α
  /-- What it leaves in the stream. -/
  rest : Text
  written : Text
  /-- How often it reads. -/
  reads : ℕ
deriving DecidableEq, Repr

/-- The bytes `s` were written before. -/
def Talk.wrote (talk : Talk α) (s : Text) : Talk α := { talk with written := s ++ talk.written }

/-- There was one more read before. -/
def Talk.read (talk : Talk α) : Talk α := { talk with reads := talk.reads + 1 }

/-- The program on a plain string of bytes that is there at once. -/
def talk : Dialogue α → Text → Talk α
  | done a, s => ⟨a, s, [], 0⟩
  | writen t next, s => (next.talk s).wrote t
  | readnb n next, s =>
    let b := s.take n
    ((next b).talk (s.drop b.length)).read
  | readlineb maxlen next, s =>
    let line := lineOf (maxlen - 1) s
    ((next (lineResult (maxlen - 1) line)).talk (s.drop line.length)).read

/-- One talk and then another. -/
def Talk.andThen {β : Type} (talk : Talk α) (talk' : Talk β) : Talk β :=
  ⟨talk'.result, talk'.rest, talk.written ++ talk'.written, talk.reads + talk'.reads⟩

theorem Talk.andThen_read {β : Type} (a : α) (s : Text) (talk : Talk β) :
    Talk.andThen ⟨a, s, [], 1⟩ talk = talk.read := by
  rw [Talk.andThen, Talk.read, List.nil_append, Nat.add_comm]

@[simp] theorem talk_pure (a : α) (s : Text) : (pure a : Dialogue α).talk s = ⟨a, s, [], 0⟩ := rfl

/-- A sequence takes up the stream where its first part leaves it. -/
theorem talk_bind {β : Type} (d : Dialogue α) (f : α → Dialogue β) (s : Text) :
    (d >>= f).talk s = (d.talk s).andThen ((f (d.talk s).result).talk (d.talk s).rest) := by
  show (d.bind f).talk s = _
  induction d generalizing s with
  | done a => simp [Dialogue.bind, talk, Talk.andThen]
  | writen t next ih => simp [Dialogue.bind, talk, ih, Talk.andThen, Talk.wrote]
  | readnb n next ih =>
      simp only [Dialogue.bind, talk, ih, Talk.andThen, Talk.read, Nat.add_right_comm]
  | readlineb maxlen next ih =>
      simp only [Dialogue.bind, talk, ih, Talk.andThen, Talk.read, Nat.add_right_comm]

end Dialogue

/-- The connection after such a talk. -/
structure Conn.Talked {α : Type} (c c' : Conn) (talk : Dialogue.Talk α) : Prop where
  rest : c'.stream = talk.rest
  outgoing : c'.outgoing = c.outgoing ++ talk.written

theorem Conn.Moves.drop (h : c.Moves c' i o e) : c'.stream = c.stream.drop i.length := by
  rw [h.stream, List.drop_left]

/-- A process that has not come to the end of its talk. -/
def Conn.Breaks {α : Type} (c : Conn) (talk : Dialogue.Talk α) : Stop → Prop :=
  c.Halts fun _ o e => o <+: talk.written ∧ o.length + e < talk.written.length + talk.reads

/-- The step of a call that reads. -/
theorem Dialogue.spec_read {α β : Type} {p : Io β} {b : Text} {x : β} {next : β → Dialogue α}
    (hp : p.Spec c (fun y c' => y = x ∧ ∃ e ≤ 1, c.Moves c' b [] e)
      (c.Halts fun _ o e => o = [] ∧ e = 0))
    (ih : ∀ c : Conn, (next x).run.Spec c
      (fun a c' => a = ((next x).talk c.stream).result ∧ c.Talked c' ((next x).talk c.stream))
      (c.Breaks ((next x).talk c.stream))) :
    (p >>= fun y => (next y).run).Spec c
      (fun a c' => a = ((next x).talk (c.stream.drop b.length)).read.result ∧
        c.Talked c' ((next x).talk (c.stream.drop b.length)).read)
      (c.Breaks ((next x).talk (c.stream.drop b.length)).read) := by
  apply Prog.Spec.bind
  refine hp.mono (fun y c₁ h => ?_) fun stop h => ?_
  · obtain ⟨rfl, e, he, hm⟩ := h
    rw [← hm.drop]
    refine (ih c₁).mono (fun a c₂ h => ⟨h.1, h.2.rest, ?_⟩) fun stop h => ?_
    · rw [h.2.outgoing, hm.outgoing, List.append_nil]
      rfl
    · refine h.after hm fun i' o' e' h => ⟨h.1, ?_⟩
      simp only [Talk.read, List.nil_append]
      omega
  · refine h.after c.moves_refl ?_
    rintro i o e ⟨rfl, rfl⟩
    refine ⟨List.nil_prefix, ?_⟩
    simp only [Talk.read, List.nil_append, List.length_nil]
    omega

/-- **Dialogues**, by induction on the program: on a connection they come to the same as on the
plain bytes. -/
theorem Dialogue.spec_run {α : Type} (d : Dialogue α) (c : Conn) : d.run.Spec c
    (fun a c' => a = (d.talk c.stream).result ∧ c.Talked c' (d.talk c.stream))
    (c.Breaks (d.talk c.stream)) := by
  induction d generalizing c with
  | done a => exact ⟨rfl, rfl, (List.append_nil _).symm⟩
  | writen s next ih =>
      rw [run, talk]
      apply Prog.Spec.bind
      refine (spec_RioWriten s).mono (fun _ c₁ hm => ?_) fun stop h => ?_
      · have hstream : c₁.stream = c.stream := hm.stream.symm
        rw [← hstream]
        refine (ih c₁).mono (fun a c₂ h => ⟨h.1, h.2.rest, ?_⟩) fun stop h => ?_
        · rw [h.2.outgoing, hm.outgoing, List.append_assoc]
          rfl
        · refine h.after hm fun i o e h => ⟨?_, ?_⟩
          · exact (List.prefix_append_right_inj s).mpr h.1
          · simp only [Talk.wrote, List.length_append]
            omega
      · refine h.after c.moves_refl ?_
        rintro i o e ⟨rfl, rfl, k, hk, rfl⟩
        refine ⟨(List.take_prefix k s).trans (List.prefix_append _ _), ?_⟩
        simp only [Talk.wrote, List.nil_append, List.length_take, List.length_append]
        omega
  | readnb n next ih => exact spec_read (c := c) (spec_RioReadnb n) (ih _)
  | readlineb maxlen next ih => exact spec_read (c := c) (spec_RioReadlineb maxlen) (ih _)

/-- **Robust input and output**: whatever the system calls do, a dialogue that returns has come to
exactly what it comes to on the plain bytes.  One that stops waits for its other side, or its last
call has failed for another reason than an interruption; what it has written is then a part in
front, and it has lost no byte of the stream between those it has read and those that are left. -/
theorem dialogue_refines {α : Type} (d : Dialogue α) (c : Conn) :
    match d.run.run c with
    | .ok (a, c') => a = (d.talk c.stream).result ∧ c'.stream = (d.talk c.stream).rest ∧
        c'.outgoing = c.outgoing ++ (d.talk c.stream).written
    | .error stop =>
      (stop.reason = .waits ∧ stop.conn.outcomes = [] ∨
          stop.reason = .exits ∧ ∃ before a, c.outcomes = before ++ a :: stop.conn.outcomes ∧
            (a = .fails .other ∨ a = .upTo 0)) ∧
        stop.conn.stream <:+ c.stream ∧
          ∃ o, o <+: (d.talk c.stream).written ∧ stop.conn.outgoing = c.outgoing ++ o := by
  have hspec := d.spec_run c
  unfold Prog.Spec at hspec
  split at hspec
  next a c' hrun =>
    rw [hrun]
    exact ⟨hspec.1, hspec.2.rest, hspec.2.outgoing⟩
  next stop hrun =>
    rw [hrun]
    obtain ⟨hreason, i, o, e, ⟨ho, -⟩, hm⟩ := hspec
    exact ⟨hreason, ⟨i, hm.stream.symm⟩, o, ho, hm.outgoing⟩

/-- With enough transfers no dialogue stops. -/
theorem Dialogue.run_ends {α : Type} (d : Dialogue α) {c : Conn} (hsteady : Steady c.outcomes)
    (henough : c.incoming.length + (d.talk c.stream).written.length + (d.talk c.stream).reads ≤
      transfers c.outcomes) :
    d.run.Ends c fun a c' => a = (d.talk c.stream).result ∧ c.Talked c' (d.talk c.stream) := by
  apply Prog.Spec.ends
  refine (d.spec_run c).mono (fun _ _ h => h) fun stop h => h.false hsteady fun i o e h => ?_
  omega

/-- **Progress**: if no call fails for another reason than an interruption, and there are as many
transfers as bytes and reads, then the dialogue returns, however few bytes each transfer moves. -/
theorem dialogue_returns {α : Type} (d : Dialogue α) {c : Conn} (hsteady : Steady c.outcomes)
    (henough : c.incoming.length + (d.talk c.stream).written.length + (d.talk c.stream).reads ≤
      transfers c.outcomes) :
    ∃ c', d.run.run c = .ok ((d.talk c.stream).result, c') ∧ c'.stream = (d.talk c.stream).rest ∧
      c'.outgoing = c.outgoing ++ (d.talk c.stream).written := by
  obtain ⟨a, c', hrun, ha, htalked⟩ := d.run_ends hsteady henough
  exact ⟨c', ha ▸ hrun, htalked.rest, htalked.outgoing⟩

/-- A line comes in three parts and is sent back, byte for byte. -/
theorem dialogue_returns_echo :
    let d : Dialogue Unit := .readlineb 8 fun r => .writen (r.2.getD []) (.done ())
    let c : Conn := ⟨"ab\nc".toList, [], .upTo 2 :: .fails .eintr ::
      List.replicate 7 (.upTo 1), .other, []⟩
    ∃ c', d.run.run c = .ok ((), c') ∧ c'.stream = "c".toList ∧ c'.outgoing = "ab\n".toList := by
  intro d c
  have hsteady : Steady c.outcomes := by
    intro a ha
    have : a = .upTo 2 ∨ a = .fails .eintr ∨ a = .upTo 1 := by
      simp only [c, List.mem_cons, List.mem_replicate] at ha
      tauto
    obtain rfl | rfl | rfl := this
    · exact .inr ⟨2, by decide, rfl⟩
    · exact .inl rfl
    · exact .inr ⟨1, by decide, rfl⟩
  obtain ⟨c', hrun, hrest, hout⟩ := dialogue_returns d hsteady (by decide)
  exact ⟨c', hrun, hrest, hout⟩

end OsProjects.WebServer.Segel
