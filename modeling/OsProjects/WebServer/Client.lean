import Mathlib.Algebra.BigOperators.Group.List.Basic
import OsProjects.WebServer.Buffers
import OsProjects.WebServer.Segel

/-! # The client

`client.c`, which asks for a file and prints the response.  A response is a message: the lines of a
header, an empty line, and a body.  The client prints every message line by line, up to the end of
the stream (`talk_clientPrint`), and writes nothing but its request. -/

namespace OsProjects.WebServer.Exchange

open Segel

/-! ### Strings in buffers -/

/-- The string in a buffer of `size` bytes. -/
def string (size : ℕ) (buf : Buffer) : Text := ((List.range size).map buf).takeWhile (· ≠ nul)

/-- `Rio_readlineb` into a buffer. -/
def readInto (buf : Buffer) (maxlen : ℕ) : Dialogue (ℕ × Buffer) :=
  .readlineb maxlen fun r => .done (r.1, r.2.elim buf buf.store)

def write (s : Text) : Dialogue Unit := .writen s (.done ())

/-! ### `client.c` -/

/-- The request for a file, in a buffer of `MAXLINE` bytes. -/
def requestText (hostname filename : Text) : Built where
  text := "GET ".toList ++ filename ++ " HTTP/1.1\nhost: ".toList ++ hostname ++ "\n\r\n".toList
  size := maxline

def clientSend (hostname filename : Text) : Dialogue Unit :=
  write (requestText hostname filename).text

/-- A minus sign was there, and what is behind the sign. -/
def splitSign : Text → Bool × Text
  | '-' :: s => (true, s)
  | '+' :: s => (false, s)
  | s => (false, s)

/-- `%d` of `sscanf`, which takes a number that does not fit for the closest `long`. -/
def scanInt (s : Text) : Option ℤ :=
  let (negative, s) := splitSign (s.dropWhile isspace)
  let digits := s.takeWhile Char.isDigit
  if digits = [] then none
  else
    let n : ℤ := Nat.ofDigitChars 10 digits 0
    some (toInt (max (-2 ^ 63) (min (2 ^ 63 - 1) (if negative then -n else n))))

/-- `sscanf(s, "Content-Length: %d ", &length)` -/
def scanLength (s : Text) : Option ℤ :=
  if "Content-Length:".toList.isPrefixOf s then scanInt (s.drop 15) else none

/-- What is printed about a line that has just been read. -/
def printLength (s : Text) : Text :=
  match scanLength s with
  | some length => "Length = ".toList ++ (toString length).toList ++ ['\n']
  | none => []

/-- What is printed in front of a line of the header. -/
def headerMark : Text := "Header: ".toList

/-- The first loop of `clientPrint` with at most so many turns, and what has been printed. -/
def printHeader : ℕ → ℕ → Buffer → Text → Dialogue (Option (Buffer × Text))
  | 0, _, _, _ => pure none
  | calls + 1, n, buf, out =>
    if ¬buf.strcmpEq 0 crlf ∧ 0 < n then do
      let out := out ++ headerMark ++ string maxbuf buf
      let (n, buf) ← readInto buf maxbuf
      printHeader calls n buf (out ++ printLength (string maxbuf buf))
    else pure (some (buf, out))

/-- The second loop. -/
def printBody : ℕ → ℕ → Buffer → Text → Dialogue (Option Text)
  | 0, _, _, _ => pure none
  | calls + 1, n, buf, out =>
    if 0 < n then do
      let out := out ++ string maxbuf buf
      let (n, buf) ← readInto buf maxbuf
      printBody calls n buf out
    else pure (some out)

/-- What is printed, unless one of the loops is still running after so many turns. -/
def clientPrint (calls : ℕ) (buf : Buffer) : Dialogue (Option Text) := do
  let (n, buf) ← readInto buf maxbuf
  match ← printHeader calls n buf [] with
  | none => pure none
  | some (buf, out) => do
    let (n, buf) ← readInto buf maxbuf
    printBody calls n buf out

/-- `main` of `client.c`, after it has connected. -/
def client (calls : ℕ) (buf : Buffer) (hostname filename : Text) : Dialogue (Option Text) := do
  clientSend hostname filename
  clientPrint calls buf

/-! ### Lines -/

variable {s t l w : Text} {buf : Buffer} {n k maxlen calls : ℕ}

theorem lineOf_length_le (k : ℕ) (s : Text) : (lineOf k s).length ≤ k := by
  induction k generalizing s with
  | zero => exact Nat.le_refl 0
  | succ k ih =>
      cases s with
      | nil => exact Nat.zero_le _
      | cons c s =>
          rw [lineOf]
          split
          · exact Nat.succ_le_succ (Nat.zero_le k)
          · exact Nat.succ_le_succ (ih s)

theorem lineOf_isPrefix (k : ℕ) (s : Text) : lineOf k s <+: s := by
  induction k generalizing s with
  | zero => exact List.nil_prefix
  | succ k ih =>
      cases s with
      | nil => exact List.nil_prefix
      | cons c s =>
          rw [lineOf]
          split
          · exact ⟨s, rfl⟩
          · exact List.cons_prefix_cons.mpr ⟨rfl, ih s⟩

/-- A line that is short enough is read as a whole. -/
theorem lineOf_line (hw : '\n' ∉ w) (hk : w.length < k) (t : Text) :
    lineOf k (w ++ '\n' :: t) = w ++ ['\n'] := by
  induction w generalizing k with
  | nil =>
      obtain ⟨k, rfl⟩ := Nat.exists_eq_succ_of_ne_zero (Nat.ne_of_gt hk)
      rw [List.nil_append, lineOf, if_pos rfl, List.nil_append]
  | cons c w ih =>
      rw [List.mem_cons, not_or] at hw
      obtain ⟨hc, hw⟩ := hw
      obtain ⟨k, rfl⟩ := Nat.exists_eq_succ_of_ne_zero (Nat.ne_of_gt (Nat.zero_lt_of_lt hk))
      rw [List.cons_append, lineOf, if_neg (Ne.symm hc), ih hw (Nat.lt_of_succ_lt_succ hk),
        List.cons_append]

/-- The lines of a stream are all of it. -/
theorem lines_flatten (s : Text) : (lines s).flatten = s := by
  induction s using lines.induct with
  | case1 => rw [lines, List.flatten_nil]
  | case2 c s line ih =>
      rw [lines, List.flatten_cons, ih]
      exact List.prefix_iff_eq_append.mp (lineOf_isPrefix _ _)

/-- What `%s` prints of a buffer that holds `s`. -/
def printed (s : Text) : Text := s.takeWhile (· ≠ nul)

theorem printed_eq_self (h : nul ∉ s) : printed s = s :=
  List.takeWhile_eq_self_iff.mpr fun _ hc => decide_eq_true fun e => h (e ▸ hc)

theorem printed_append_nul (s t : Text) : printed (s ++ nul :: t) = printed s := by
  induction s with
  | nil => simp [printed]
  | cons c s ih =>
      unfold printed at ih ⊢
      rw [List.cons_append, List.takeWhile_cons, List.takeWhile_cons, ih]

theorem string_store {size : ℕ} (buf : Buffer) (h : s.length < size) :
    string size (buf.store s) = printed s := by
  obtain ⟨m, rfl⟩ := Nat.exists_eq_add_of_le h
  have hfront : (List.range (s.length + 1)).map (buf.store s) = s ++ [nul] := by
    refine List.ext_getElem (by simp) fun i h₁ h₂ => ?_
    simp only [List.length_map, List.length_range] at h₁
    rw [List.getElem_map, List.getElem_range, Buffer.store, Buffer.put,
      List.getD_eq_getElem _ _ h₂]
  rw [string, List.range_add, List.map_append, hfront, List.append_assoc]
  exact printed_append_nul s _

@[simp] theorem talk_write (s t : Text) : (write s).talk t = ⟨(), t, s, 0⟩ := by
  show (⟨(), t, s ++ [], 0⟩ : Dialogue.Talk Unit) = _
  rw [List.append_nil]

/-- What the line reader does with a whole line. -/
theorem talk_readInto_line (hw : '\n' ∉ w) (hlen : w.length + 1 < maxlen) (buf : Buffer) (t : Text) :
    (readInto buf maxlen).talk (w ++ '\n' :: t) =
      ⟨(w.length + 1, buf.store (w ++ ['\n'])), t, [], 1⟩ := by
  have hline := lineOf_line hw (k := maxlen - 1) (by omega) t
  have hdrop : (w ++ '\n' :: t).drop (w ++ ['\n']).length = t := by
    rw [List.append_cons w '\n' t, List.drop_left]
  show (⟨_, _, [], 1⟩ : Dialogue.Talk _) = _
  rw [hline, hdrop]
  simp [lineResult, Dialogue.talk]

/-- At the end of the stream. -/
theorem talk_readInto_nil (hlen : 1 < maxlen) (buf : Buffer) :
    (readInto buf maxlen).talk [] = ⟨(0, buf), [], [], 1⟩ := by
  obtain ⟨k, hk⟩ : ∃ k, maxlen - 1 = k + 1 := Nat.exists_eq_succ_of_ne_zero (by omega)
  show (⟨_, _, [], 1⟩ : Dialogue.Talk _) = _
  rw [hk]
  simp [lineOf, lineResult, Dialogue.talk]

/-- Before the end of the stream. -/
theorem talk_readInto_cons (hlen : 1 < maxlen) (buf : Buffer) (hs : s ≠ []) :
    ∃ n, 0 < n ∧ (readInto buf maxlen).talk s =
      ⟨(n, buf.store (lineOf (maxlen - 1) s)), s.drop (lineOf (maxlen - 1) s).length, [], 1⟩ := by
  obtain ⟨c, s, rfl⟩ := List.exists_cons_of_ne_nil hs
  have hpos := lineOf_pos (k := maxlen - 1) (by omega) c s
  have hne : ¬(lineOf (maxlen - 1) (c :: s) = [] ∧ 0 < maxlen - 1) := fun h => by
    rw [h.1] at hpos
    exact absurd hpos (Nat.lt_irrefl 0)
  refine ⟨(lineResult (maxlen - 1) (lineOf (maxlen - 1) (c :: s))).1, ?_, ?_⟩
  · rw [lineResult, if_neg hne]
    simp only
    split <;> omega
  · show (⟨_, _, [], 1⟩ : Dialogue.Talk _) = _
    rw [lineResult, if_neg hne]
    rfl

/-! ### What the client prints -/

/-- A line of a header: not empty, without a NUL, and short enough for the buffers. -/
structure HeaderLine (l : Text) : Prop where
  ends : ∃ w, l = w ++ ['\n'] ∧ '\n' ∉ w
  nul_not_mem : nul ∉ l
  ne_crlf : l ≠ crlf
  short : l.length < maxbuf

theorem HeaderLine.strcmpEq (h : HeaderLine l) (buf : Buffer) :
    (buf.store l).strcmpEq 0 crlf = false := by
  obtain ⟨w, rfl, hw⟩ := h.ends
  have hline := lineOf_line hw (Nat.lt_succ_self w.length) []
  rw [Bool.eq_false_iff]
  intro heq
  rw [← hline, store_strcmpEq, hline] at heq
  exact h.ne_crlf heq

theorem HeaderLine.talk_readInto (h : HeaderLine l) (buf : Buffer) (t : Text) :
    ∃ n, 0 < n ∧ (readInto buf maxbuf).talk (l ++ t) = ⟨(n, buf.store l), t, [], 1⟩ := by
  obtain ⟨w, rfl, hw⟩ := h.ends
  have hlen := h.short
  rw [List.length_append, List.length_singleton] at hlen
  refine ⟨w.length + 1, Nat.succ_pos _, ?_⟩
  rw [List.append_assoc]
  exact talk_readInto_line hw hlen buf t

theorem talk_readInto_crlf (buf : Buffer) (t : Text) {maxlen : ℕ} (h : 2 < maxlen) :
    (readInto buf maxlen).talk (crlf ++ t) = ⟨(2, buf.store crlf), t, [], 1⟩ :=
  talk_readInto_line (w := ['\r']) (by decide) h buf t

theorem store_crlf (buf : Buffer) : (buf.store crlf).strcmpEq 0 crlf = true :=
  (store_strcmpEq buf 2 crlf).mpr (by decide)

theorem HeaderLine.pos (h : HeaderLine l) : 0 < l.length := by
  obtain ⟨w, rfl, -⟩ := h.ends
  rw [List.length_append]
  exact Nat.succ_pos _

theorem length_le_flatten {ls : List Text} (h : ∀ l ∈ ls, 0 < l.length) :
    ls.length ≤ ls.flatten.length := by
  rw [List.length_flatten, ← List.length_map (f := List.length)]
  exact List.length_le_sum_of_one_le _ (List.forall_mem_map.mpr h)

/-- What is printed of the lines of a header behind the first. -/
def printLines (hs : List Text) : Text :=
  hs.flatMap fun l => printLength l ++ headerMark ++ l

/-- One turn of the first loop. -/
theorem talk_printHeader_turn {n' : ℕ} {buf' : Buffer} (hl : HeaderLine l) (hn : 0 < n)
    (hread : (readInto (buf.store l) maxbuf).talk s = ⟨(n', buf'), t, [], 1⟩) (calls : ℕ)
    (out : Text) : (printHeader (calls + 1) n (buf.store l) out).talk s =
      ((printHeader calls n' buf' (out ++ headerMark ++ l ++
        printLength (string maxbuf buf'))).talk t).read := by
  have hstring : string maxbuf (buf.store l) = l := by
    rw [string_store buf hl.short, printed_eq_self hl.nul_not_mem]
  have hcond : ¬(buf.store l).strcmpEq 0 crlf = true ∧ 0 < n :=
    ⟨by rw [hl.strcmpEq]; exact Bool.false_ne_true, hn⟩
  rw [printHeader, if_pos hcond, Dialogue.talk_bind, hread, hstring]
  exact Dialogue.Talk.andThen_read _ _ _

/-- **The first loop**, by induction on the lines that are still to come; the current one is in the
buffer. -/
theorem talk_printHeader {hs : List Text} (hok : ∀ l ∈ hs, HeaderLine l) (hl : HeaderLine l)
    (hn : 0 < n) (hcalls : hs.length + 2 ≤ calls) (buf : Buffer) (out t : Text) :
    ∃ buf', (printHeader calls n (buf.store l) out).talk (hs.flatten ++ (crlf ++ t)) =
      ⟨some (buf', out ++ headerMark ++ l ++ printLines hs), t, [], hs.length + 1⟩ := by
  induction hs generalizing l n buf calls out with
  | nil =>
      obtain ⟨calls, rfl⟩ : ∃ k, calls = k + 1 + 1 := Nat.exists_eq_add_of_le' hcalls
      have hnone : printLength (string maxbuf ((buf.store l).store crlf)) = [] := by
        rw [string_store _ (by decide)]
        decide
      refine ⟨(buf.store l).store crlf, ?_⟩
      rw [List.flatten_nil, List.nil_append,
        talk_printHeader_turn hl hn (talk_readInto_crlf _ t (by decide)), hnone, printHeader,
        if_neg fun h => h.1 (store_crlf _)]
      rfl
  | cons l' hs ih =>
      obtain ⟨hl', hok⟩ := List.forall_mem_cons.mp hok
      obtain ⟨calls, rfl⟩ := Nat.exists_eq_add_of_le' (Nat.le_trans (Nat.le_add_left 1 _) hcalls)
      rw [List.length_cons] at hcalls
      obtain ⟨n', hn', hread⟩ := hl'.talk_readInto (buf.store l) (hs.flatten ++ (crlf ++ t))
      obtain ⟨buf', hrest⟩ := ih hok hl' hn' (Nat.le_of_succ_le_succ hcalls) (buf.store l)
        (out ++ headerMark ++ l ++ printLength l')
      refine ⟨buf', ?_⟩
      have hstring : string maxbuf ((buf.store l).store l') = l' := by
        rw [string_store _ hl'.short, printed_eq_self hl'.nul_not_mem]
      rw [List.flatten_cons, List.append_assoc, talk_printHeader_turn hl hn hread, hstring, hrest]
      simp [printLines, Dialogue.Talk.read]

/-- The lines of a stream that the second loop prints. -/
def printText (s : Text) : Text := (lines s).flatMap printed

/-- Without a NUL all of it is printed. -/
theorem printText_eq_self (h : nul ∉ s) : printText s = s := by
  have hline : ∀ l ∈ lines s, printed l = l := fun l hl =>
    printed_eq_self fun hmem => h (lines_flatten s ▸ List.mem_flatten_of_mem hl hmem)
  rw [printText, List.flatMap_congr hline, List.flatMap_id', lines_flatten]

/-- **The second loop**, with the call in front of it, by induction on the lines of the stream. -/
theorem talk_printBody (hcalls : s.length < calls) (buf : Buffer) (out : Text) :
    ∃ reads ≤ calls, (do
      let (n, buf) ← readInto buf maxbuf
      printBody calls n buf out : Dialogue (Option Text)).talk s =
        ⟨some (out ++ printText s), [], [], reads⟩ := by
  obtain ⟨calls, rfl⟩ := Nat.exists_eq_succ_of_ne_zero (Nat.ne_zero_of_lt hcalls)
  induction s using lines.induct generalizing buf calls out with
  | case1 =>
      refine ⟨1, Nat.succ_le_succ (Nat.zero_le _), ?_⟩
      rw [Dialogue.talk_bind, talk_readInto_nil (by decide)]
      simp only [printBody]
      simp [printText, lines, Dialogue.Talk.andThen]
  | case2 c s line =>
      rename_i ih
      obtain ⟨n, hn, hread⟩ := talk_readInto_cons (show 1 < maxline by decide) buf
        (List.cons_ne_nil c s)
      have hpos : 0 < line.length := lineOf_pos (by decide) c s
      have hline : line.length < maxbuf :=
        Nat.lt_of_le_of_lt (lineOf_length_le _ _) (by decide)
      have hlen : ((c :: s).drop line.length).length + line.length = (c :: s).length := by
        rw [List.length_drop, Nat.sub_add_cancel (lineOf_isPrefix _ _).length_le]
      obtain ⟨calls, rfl⟩ := Nat.exists_eq_succ_of_ne_zero (n := calls) (by
        rintro rfl
        simp at hcalls)
      obtain ⟨reads, hreads, hrest⟩ := ih (buf.store line) (out ++ printed line) calls (by omega)
      refine ⟨reads + 1, Nat.succ_le_succ hreads, ?_⟩
      have hread' : (readInto buf maxbuf).talk (c :: s) =
        ⟨(n, buf.store line), (c :: s).drop line.length, [], 1⟩ := hread
      rw [Dialogue.talk_bind, hread', Dialogue.Talk.andThen_read]
      simp only
      rw [printBody, if_pos hn, string_store _ hline]
      rw [hrest, printText, printText, lines, List.flatMap_cons, ← List.append_assoc]
      rfl

/-- **A message**: the lines of its header, an empty line, and the body. -/
structure Message where
  first : Text
  others : List Text
  body : Text
  header : ∀ l ∈ first :: others, HeaderLine l

def Message.text (m : Message) : Text := m.first ++ (m.others.flatten ++ (crlf ++ m.body))

/-- What `clientPrint` makes of a message. -/
def Message.print (m : Message) : Text :=
  headerMark ++ m.first ++ printLines m.others ++ printText m.body

/-- **The client** prints every message, from the first line of the header to the end of the
body. -/
theorem talk_clientPrint (m : Message) (hcalls : m.text.length + 2 ≤ calls) (buf : Buffer) :
    ∃ reads ≤ 2 * calls + 2, (clientPrint calls buf).talk m.text =
      ⟨some m.print, [], [], reads⟩ := by
  obtain ⟨hfirst, hothers⟩ := List.forall_mem_cons.mp m.header
  obtain ⟨n, hn, hread⟩ := hfirst.talk_readInto buf (m.others.flatten ++ (crlf ++ m.body))
  have hlines : m.others.length ≤ m.others.flatten.length := length_le_flatten fun l hl =>
    (hothers l hl).pos
  have hcrlf : crlf.length = 2 := by decide
  have hlen : m.others.flatten.length + (2 + m.body.length) ≤ m.text.length := by
    simp only [Message.text, List.length_append, hcrlf]
    omega
  obtain ⟨buf', hheader⟩ := talk_printHeader hothers hfirst hn
    (show m.others.length + 2 ≤ calls by omega) buf [] m.body
  rw [clientPrint, Dialogue.talk_bind, Message.text, hread]
  simp only
  rw [Dialogue.talk_bind, hheader]
  simp only
  obtain ⟨reads, hreads, hbody⟩ := talk_printBody (show m.body.length < calls by omega) buf'
    (headerMark ++ m.first ++ printLines m.others)
  rw [List.nil_append, hbody]
  refine ⟨_, ?_, rfl⟩
  show 1 + (m.others.length + 1 + reads) ≤ 2 * calls + 2
  omega

/-! ### What the client writes -/

/-- A dialogue that never writes. -/
def Silent {α : Type} (d : Dialogue α) : Prop := ∀ s, (d.talk s).written = []

theorem silent_pure {α : Type} (a : α) : Silent (pure a : Dialogue α) := fun _ => rfl

theorem Silent.bind {α β : Type} {d : Dialogue α} {f : α → Dialogue β} (hd : Silent d)
    (hf : ∀ a, Silent (f a)) : Silent (d >>= f) := fun s => by
  rw [Dialogue.talk_bind]
  show _ ++ _ = _
  rw [hd, hf, List.append_nil]

theorem silent_readInto (buf : Buffer) (maxlen : ℕ) : Silent (readInto buf maxlen) := fun _ => rfl

theorem silent_printHeader (calls n : ℕ) (buf : Buffer) (out : Text) :
    Silent (printHeader calls n buf out) := by
  induction calls generalizing n buf out with
  | zero => exact silent_pure none
  | succ calls ih =>
      rw [printHeader]
      split
      · exact (silent_readInto _ _).bind fun _ => ih _ _ _
      · exact silent_pure _

theorem silent_printBody (calls n : ℕ) (buf : Buffer) (out : Text) :
    Silent (printBody calls n buf out) := by
  induction calls generalizing n buf out with
  | zero => exact silent_pure none
  | succ calls ih =>
      rw [printBody]
      split
      · exact (silent_readInto _ _).bind fun _ => ih _ _ _
      · exact silent_pure _

theorem silent_clientPrint (calls : ℕ) (buf : Buffer) : Silent (clientPrint calls buf) := by
  refine (silent_readInto _ _).bind fun p => (silent_printHeader _ _ _ _).bind fun o => ?_
  obtain _ | ⟨buf', out⟩ := o
  · exact silent_pure none
  · exact (silent_readInto _ _).bind fun _ => silent_printBody _ _ _ _

/-- Whatever it is sent, the client writes its request. -/
theorem client_written (calls : ℕ) (buf : Buffer) (hostname filename s : Text) :
    ((client calls buf hostname filename).talk s).written = (requestText hostname filename).text := by
  rw [client, Dialogue.talk_bind, clientSend, talk_write]
  show _ ++ _ = _
  rw [silent_clientPrint, List.append_nil]

end OsProjects.WebServer.Exchange
