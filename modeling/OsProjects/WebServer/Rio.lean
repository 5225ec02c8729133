import Mathlib.Data.List.GetD
import OsProjects.WebServer.Request

/-! # Reading the headers

`rio_readlineb` of `segel.c` over a connection whose `read` delivers the bytes of the client in
chunks of any size and then returns `0`, and the loop of `requestReadhdrs` around it.  The line
reader cuts the stream into lines (`rioReadlineb_eq`); at the end of the stream it leaves the
buffer alone, so the loop returns exactly when one of the lines is empty
(`requestReadhdrs_returns_iff`). -/

namespace OsProjects.WebServer

/-- `MAXLINE` -/
def maxline : ℕ := 8192

/-- `RIO_BUFSIZE` -/
def rioBufsize : ℕ := 8192

/-! ### Buffers -/

/-- The bytes from an address on. -/
abbrev Buffer : Type := ℕ → Char

/-- The byte that ends a string. -/
def nul : Char := Char.ofNat 0

namespace Buffer

variable (buf : Buffer) (s : Text)

/-- The buffer after bytes were written to its start. -/
def put : Buffer := fun i => s.getD i (buf i)

/-- The buffer after bytes and a NUL were written to its start. -/
def store : Buffer := buf.put (s ++ [nul])

/-- `strcmp(buf + i, s) == 0` -/
def strcmpEq (buf : Buffer) : ℕ → Text → Bool
  | i, [] => buf i == nul
  | i, c :: s => buf i == c && buf.strcmpEq (i + 1) s

theorem put_nil : buf.put [] = buf := rfl

theorem update_put (c : Char) : Function.update (buf.put s) s.length c = buf.put (s ++ [c]) := by
  funext i
  unfold put
  obtain hlt | rfl | hgt := Nat.lt_trichotomy i s.length
  · rw [Function.update_of_ne (by omega), List.getD_append _ _ _ _ hlt]
  · simp
  · rw [Function.update_of_ne (by omega), List.getD_eq_default _ _ (by omega),
      List.getD_eq_default _ _ (by simp; omega)]

end Buffer

/-! ### `rio_t` -/

/-- The unread bytes in the internal buffer, and what `read` will return before it returns
`0`. -/
structure Rio where
  unread : Text
  reads : List Text
  reads_ok : ∀ chunk ∈ reads, chunk ≠ [] ∧ chunk.length ≤ rioBufsize

/-- The bytes that are still to come. -/
def Rio.stream (rp : Rio) : Text := rp.unread ++ rp.reads.flatten

/-- `rio_readinitb` -/
def rioReadinitb (reads : List Text) (h : ∀ chunk ∈ reads, chunk ≠ [] ∧ chunk.length ≤ rioBufsize) :
    Rio := ⟨[], reads, h⟩

/-- The bytes read; none at the end of the stream. -/
def rioRead (rp : Rio) (n : ℕ) : Text × Rio :=
  if rp.unread = [] then
    match h : rp.reads with
    | [] => ([], rp)
    | chunk :: reads =>
      (chunk.take n, ⟨chunk.drop n, reads, fun c hc => rp.reads_ok c (h ▸ List.mem_cons_of_mem _ hc)⟩)
  else (rp.unread.take n, { rp with unread := rp.unread.drop n })

theorem rioRead_one (rp : Rio) :
    (rp.stream = [] ∧ rioRead rp 1 = ([], rp)) ∨
      ∃ c rp', rp.stream = c :: rp'.stream ∧ rioRead rp 1 = ([c], rp') := by
  obtain ⟨unread, reads, hok⟩ := rp
  cases unread with
  | nil =>
      cases reads with
      | nil => exact .inl ⟨rfl, rfl⟩
      | cons chunk reads =>
          cases chunk with
          | nil => exact absurd rfl (hok [] List.mem_cons_self).1
          | cons c chunk => exact .inr ⟨c, _, rfl, rfl⟩
  | cons c unread => exact .inr ⟨c, ⟨unread, reads, hok⟩, rfl, rfl⟩

/-- The loop of `rio_readlineb` with `k = maxlen - n`; `bufp` is `n - 1` bytes into the buffer. -/
def rioReadlinebGo : ℕ → ℕ → Rio → Buffer → ℕ × Rio × Buffer
  | 0, n, rp, buf => (n, rp, Function.update buf (n - 1) nul)
  | k + 1, n, rp, buf =>
    match rioRead rp 1 with
    | ([], rp) =>
      if n = 1 then (0, rp, buf) else (n, rp, Function.update buf (n - 1) nul)
    | (c :: _, rp) =>
      let buf := Function.update buf (n - 1) c
      if c = '\n' then (n, rp, Function.update buf n nul) else rioReadlinebGo k (n + 1) rp buf

/-- The returned number, the state of the reader and the buffer. -/
def rioReadlineb (rp : Rio) (buf : Buffer) (maxlen : ℕ) : ℕ × Rio × Buffer :=
  rioReadlinebGo (maxlen - 1) 1 rp buf

/-! ### Lines -/

/-- The first line of a stream: up to a newline, at most `k` bytes. -/
def lineOf : ℕ → Text → Text
  | 0, _ => []
  | _ + 1, [] => []
  | k + 1, c :: s => if c = '\n' then [c] else c :: lineOf k s

theorem lineOf_pos {k : ℕ} (hk : 0 < k) (c : Char) (s : Text) : 0 < (lineOf k (c :: s)).length := by
  obtain ⟨k, rfl⟩ := Nat.exists_eq_succ_of_ne_zero (Nat.ne_of_gt hk)
  unfold lineOf
  split <;> exact Nat.succ_pos _

/-- A newline ends the line. -/
theorem lineOf_newline {k : ℕ} {s t : Text} {a b : Char} (h : lineOf k s = a :: b :: t)
    (hb : b = '\n') : t = [] := by
  obtain _ | k := k
  · cases h
  obtain _ | ⟨c, s⟩ := s
  · cases h
  rw [lineOf] at h
  split at h
  · cases h
  · obtain ⟨-, h⟩ := List.cons.inj h
    obtain _ | k := k
    · cases h
    obtain _ | ⟨d, s⟩ := s
    · cases h
    rw [lineOf] at h
    split at h
    · exact (List.cons.inj h).2.symm
    next hd => exact absurd ((List.cons.inj h).1.trans hb) hd

/-- The loop of the line reader, with the bytes `line` already in the buffer. -/
theorem rioReadlinebGo_eq (k : ℕ) (line : Text) (rp : Rio) (buf : Buffer) :
    ∃ rc rp', rioReadlinebGo k (line.length + 1) rp (buf.put line) = (rc, rp',
        if line = [] ∧ 0 < k ∧ rp.stream = [] then buf else buf.store (line ++ lineOf k rp.stream)) ∧
      rp'.stream = rp.stream.drop (lineOf k rp.stream).length := by
  induction k generalizing line rp with
  | zero =>
      refine ⟨line.length + 1, rp, ?_, rfl⟩
      rw [rioReadlinebGo, if_neg (by simp), Nat.add_sub_cancel, Buffer.update_put]
      simp [lineOf, Buffer.store]
  | succ k ih =>
      rw [rioReadlinebGo]
      obtain ⟨hs, he⟩ | ⟨c, rp', hs, he⟩ := rioRead_one rp
      · -- the end of the stream
        rw [he, hs]
        cases line with
        | nil => exact ⟨0, rp, rfl, hs⟩
        | cons d line =>
            refine ⟨(d :: line).length + 1, rp, ?_, hs⟩
            simp only [List.length_cons, Nat.add_sub_cancel]
            rw [if_neg (by omega), if_neg (by simp), ← List.length_cons, Buffer.update_put]
            simp [lineOf, Buffer.store]
      · rw [he, hs]
        simp only [Nat.add_sub_cancel]
        rw [Buffer.update_put, if_neg (c := _ ∧ _) (by simp), lineOf]
        split
        · -- a newline
          refine ⟨line.length + 1, rp', ?_, rfl⟩
          have hlen : line.length + 1 = (line ++ [c]).length := by simp
          conv_lhs => rw [hlen, Buffer.update_put]
          simp [Buffer.store]
        · have hlen : line.length + 1 + 1 = (line ++ [c]).length + 1 := by simp
          rw [hlen]
          obtain ⟨rc, rp'', h, hstream⟩ := ih (line ++ [c]) rp'
          refine ⟨rc, rp'', ?_, hstream⟩
          rw [h, if_neg (by simp), List.append_assoc]
          rfl

/-- **The line reader** delivers the first line of the stream; at the end of the stream it
leaves the buffer as it is. -/
theorem rioReadlineb_eq (rp : Rio) (buf : Buffer) {maxlen : ℕ} (h : 1 < maxlen) :
    ∃ rc rp', rioReadlineb rp buf maxlen = (rc, rp',
        if rp.stream = [] then buf else buf.store (lineOf (maxlen - 1) rp.stream)) ∧
      rp'.stream = rp.stream.drop (lineOf (maxlen - 1) rp.stream).length := by
  obtain ⟨rc, rp', he, hs⟩ := rioReadlinebGo_eq (maxlen - 1) [] rp buf
  refine ⟨rc, rp', ?_, hs⟩
  rw [Buffer.put_nil] at he
  refine he.trans ?_
  congr 3
  simp only [true_and, eq_iff_iff, and_iff_right_iff_imp]
  omega

/-! ### The headers -/

/-- What ends the headers. -/
def crlf : Text := "\r\n".toList

/-- `requestReadhdrs` with at most so many calls of the line reader; `buf` is what the local
buffer holds before the first. -/
def requestReadhdrs : ℕ → Rio → Buffer → Option (Rio × Buffer)
  | 0, _, _ => none
  | calls + 1, rp, buf =>
    let (_, rp, buf) := rioReadlineb rp buf maxline
    if buf.strcmpEq 0 crlf then some (rp, buf) else requestReadhdrs calls rp buf

/-- The lines of a stream, as the line reader cuts them. -/
def lines : Text → List Text
  | [] => []
  | c :: s =>
    let line := lineOf (maxline - 1) (c :: s)
    line :: lines ((c :: s).drop line.length)
termination_by s => s.length
decreasing_by
  have hpos := lineOf_pos (k := maxline - 1) (by decide) c s
  rw [List.length_drop]
  exact Nat.sub_lt (Nat.succ_pos _) hpos

/-- Of all lines only the empty one compares equal, whatever bytes the others have. -/
theorem store_strcmpEq (buf : Buffer) (k : ℕ) (s : Text) :
    (buf.store (lineOf k s)).strcmpEq 0 crlf = true ↔ lineOf k s = crlf := by
  have hnl : ∀ {a b t}, lineOf k s = a :: b :: t → b = '\n' → t = [] := lineOf_newline
  generalize lineOf k s = line at hnl
  have hr : nul ≠ '\r' := by decide
  have hn : nul ≠ '\n' := by decide
  have hcrlf : crlf = ['\r', '\n'] := by decide
  rw [hcrlf]
  unfold Buffer.store Buffer.put Buffer.strcmpEq
  unfold Buffer.strcmpEq
  unfold Buffer.strcmpEq
  obtain _ | ⟨a, _ | ⟨b, _ | ⟨c, line⟩⟩⟩ := line
  · simp [hr]
  · simp [hn]
  · simp
  · have : b ≠ '\n' := fun hb => absurd (hnl rfl hb) (List.cons_ne_nil _ _)
    simp [this]

/-- At the end of the stream the loop makes no progress. -/
theorem requestReadhdrs_eof {rp : Rio} {buf : Buffer} (hs : rp.stream = [])
    (hbuf : buf.strcmpEq 0 crlf = false) (calls : ℕ) : requestReadhdrs calls rp buf = none := by
  induction calls generalizing rp with
  | zero => rfl
  | succ calls ih =>
      obtain ⟨rc, rp', he, hs'⟩ := rioReadlineb_eq rp buf (show 1 < maxline by decide)
      rw [if_pos hs] at he
      rw [hs, List.drop_nil] at hs'
      rw [requestReadhdrs, he]
      simp only [hbuf, Bool.false_eq_true, if_false]
      exact ih hs'

/-- One call of the line reader takes one line. -/
theorem requestReadhdrs_line {rp : Rio} (hs : rp.stream ≠ []) (buf : Buffer) :
    ∃ line rp' buf', lines rp.stream = line :: lines rp'.stream ∧
      rp'.stream.length < rp.stream.length ∧ (buf'.strcmpEq 0 crlf = true ↔ line = crlf) ∧
      ∀ calls, requestReadhdrs (calls + 1) rp buf =
        if buf'.strcmpEq 0 crlf then some (rp', buf') else requestReadhdrs calls rp' buf' := by
  obtain ⟨rc, rp', he, hs'⟩ := rioReadlineb_eq rp buf (show 1 < maxline by decide)
  rw [if_neg hs] at he
  obtain ⟨c, s, hc⟩ := List.exists_cons_of_ne_nil hs
  have hpos := lineOf_pos (k := maxline - 1) (by decide) c s
  refine ⟨_, rp', _, ?_, ?_, store_strcmpEq buf _ _, fun calls => by rw [requestReadhdrs, he]⟩
  · rw [hs', hc, lines]
  · rw [hs', hc, List.length_drop]
    exact Nat.sub_lt (Nat.succ_pos _) hpos

/-- **Reading the headers ends** exactly when the client sends an empty line; a stream that is
closed before keeps the loop busy forever.  With nothing left to read, the loop looks only at
what the uninitialized buffer happens to hold. -/
theorem requestReadhdrs_returns_iff (rp : Rio) (buf : Buffer) :
    (∃ calls, (requestReadhdrs calls rp buf).isSome) ↔
      crlf ∈ lines rp.stream ∨ rp.stream = [] ∧ buf.strcmpEq 0 crlf = true := by
  induction hlen : rp.stream.length using Nat.strongRecOn generalizing rp buf with
  | ind n ih =>
      by_cases hs : rp.stream = []
      · rw [hs, lines]
        cases hbuf : buf.strcmpEq 0 crlf with
        | false => simp [requestReadhdrs_eof hs hbuf]
        | true =>
            obtain ⟨rc, rp', he, -⟩ := rioReadlineb_eq rp buf (show 1 < maxline by decide)
            rw [if_pos hs] at he
            refine iff_of_true ⟨1, ?_⟩ (.inr ⟨rfl, rfl⟩)
            rw [requestReadhdrs, he]
            simp [hbuf]
      · obtain ⟨line, rp', buf', hlines, hlt, hcmp, hstep⟩ := requestReadhdrs_line hs buf
        have ih' := ih _ (hlen ▸ hlt) rp' buf' rfl
        rw [hlines, List.mem_cons]
        simp only [hs, false_and, or_false]
        by_cases hline : line = crlf
        · refine iff_of_true ⟨1, ?_⟩ (.inl hline.symm)
          rw [hstep, if_pos (hcmp.mpr hline)]
          rfl
        · have hcmp' : ¬buf'.strcmpEq 0 crlf = true := fun h => hline (hcmp.mp h)
          have hor : (crlf = line ∨ crlf ∈ lines rp'.stream) ↔
              crlf ∈ lines rp'.stream ∨ rp'.stream = [] ∧ buf'.strcmpEq 0 crlf = true := by
            constructor
            · rintro (h | h)
              · exact absurd h.symm hline
              · exact .inl h
            · rintro (h | ⟨-, h⟩)
              · exact .inr h
              · exact absurd h hcmp'
          rw [hor, ← ih']
          constructor
          · rintro ⟨_ | calls, h⟩
            · cases h
            · rw [hstep, if_neg hcmp'] at h
              exact ⟨calls, h⟩
          · rintro ⟨calls, h⟩
            exact ⟨calls + 1, by rwa [hstep, if_neg hcmp']⟩

/-- A client that closes its side right after the request line. -/
theorem requestReadhdrs_hangs :
    ∃ reads h, reads.flatten = "GET / HTTP/1.0\r\n".toList ∧
      let rp := (rioReadlineb (rioReadinitb reads h) (fun _ => nul) maxline).2.1
      ∀ calls, requestReadhdrs calls rp (fun _ => nul) = none := by
  refine ⟨["GET / HTTP/1.0\r\n".toList], by decide, rfl, ?_⟩
  intro rp
  apply requestReadhdrs_eof
  · rfl
  · rfl

end OsProjects.WebServer
