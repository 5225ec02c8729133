import Mathlib.Data.List.TakeWhile
import OsProjects.WebServer.Rio

/-! # Strings in fixed buffers

Every string that `requestHandle`, `requestParseURI` and `requestError` build from a request
line, with the size of the buffer that it is built in.  The words of the line always fit.  The
strings built around them do not: `strings_fit_iff` says which lengths are short enough. -/

namespace OsProjects.WebServer

/-- `MAXBUF` -/
def maxbuf : ℕ := 8192

/-- A string and the size of its buffer. -/
structure Built where
  text : Text
  size : ℕ

/-- The string fits, with the NUL behind it. -/
def Built.Fits (b : Built) : Prop := b.text.length + 1 ≤ b.size

instance (b : Built) : Decidable b.Fits := by unfold Built.Fits; infer_instance

/-! ### `sscanf` -/

/-- `isspace` -/
def isspace (c : Char) : Bool := [' ', '\t', '\n', Char.ofNat 11, Char.ofNat 12, '\r'].contains c

/-- The first `k` words of a string: what `k` conversions `%s` store. -/
def scanWords : ℕ → Text → List Text
  | 0, _ => []
  | k + 1, s =>
    match s.dropWhile isspace with
    | [] => []
    | s => s.takeWhile (!isspace ·) :: scanWords k (s.dropWhile (!isspace ·))

/-- `sscanf(buf, "%s %s %s", method, uri, version)`: a buffer without a word of its own keeps
what it held. -/
def RequestLine.scan (line : RequestLine) : List Text → RequestLine
  | [] => line
  | [method] => { line with method := method }
  | [method, uri] => { line with method := method, uri := uri }
  | method :: uri :: version :: _ => ⟨method, uri, version⟩

theorem scanWords_length {k : ℕ} {s w : Text} (hw : w ∈ scanWords k s) : w.length ≤ s.length := by
  induction k generalizing s with
  | zero => cases hw
  | succ k ih =>
      have hdrop := (List.dropWhile_sublist (l := s) isspace).length_le
      rw [scanWords] at hw
      generalize s.dropWhile isspace = t at hw hdrop
      cases t with
      | nil => cases hw
      | cons c t =>
          obtain h | h := List.mem_cons.mp hw
          · rw [h]
            exact Nat.le_trans (List.takeWhile_sublist _).length_le hdrop
          · exact Nat.le_trans (ih h) (Nat.le_trans (List.dropWhile_sublist _).length_le hdrop)

/-! ### The strings -/

/-- The strings of `requestError`.  Each `sprintf` into `body` appends, so that the last body is
the longest. -/
def errorStrings (cause : Text) (errnum shortmsg longmsg : String) : List Built :=
  let body := errorBody cause errnum shortmsg longmsg
  [⟨body.toList, maxbuf⟩,
    ⟨("HTTP/1.0 " ++ errnum ++ " " ++ shortmsg ++ "\r\n").toList, maxline⟩,
    ⟨"Content-Type: text/html\r\n".toList, maxline⟩,
    ⟨("Content-Length: " ++ body.length.repr ++ "\r\n").toList, maxline⟩]

/-- The strings of the error message, if the response is one. -/
def responseStrings : Option (ℤ × Response) → List Built
  | some (_, ⟨.error errnum shortmsg longmsg cause, _, _⟩) =>
    errorStrings cause errnum shortmsg longmsg
  | _ => []

/-- The strings of `requestParseURI`: with `".."` in the `uri` nothing is written to `cgiargs`. -/
def parseStrings (uri cgiargs : Text) : List Built :=
  let parsed := requestParseURI uri cgiargs
  ⟨parsed.2.1, maxline⟩ :: if strstr uri "..".toList then [] else [⟨parsed.2.2, maxline⟩]

/-- The strings of `requestHandle` and of what it calls.  `s` is the request line, `old` and
`cgiargs` are what the local buffers hold before. -/
def handleStrings (s : Text) (old : RequestLine) (files : Files) (cgiargs : Text)
    (stats : Statistics) : List Built :=
  let words := scanWords 3 (s.takeWhile (· ≠ nul))
  let line := old.scan words
  words.map (⟨·, maxline⟩) ++
    (if strcaseeq line.method "GET".toList then parseStrings line.uri cgiargs else []) ++
    responseStrings (requestHandle line files cgiargs stats)

/-! ### Which fit -/

theorem words_fit {s : Text} (hs : s.length < maxline) :
    ∀ b ∈ (scanWords 3 (s.takeWhile (· ≠ nul))).map (⟨·, maxline⟩ : Text → Built), b.Fits := by
  intro b hb
  obtain ⟨w, hw, rfl⟩ := List.mem_map.mp hb
  have h₁ := scanWords_length hw
  have h₂ := (List.takeWhile_sublist (l := s) (· ≠ nul)).length_le
  show w.length + 1 ≤ maxline
  omega

/-- The length of an error message without its cause. -/
def errorBase (errnum shortmsg longmsg : String) : ℕ := (errorBody [] errnum shortmsg longmsg).length

theorem errorBody_length (cause : Text) (errnum shortmsg longmsg : String) :
    (errorBody cause errnum shortmsg longmsg).length =
      errorBase errnum shortmsg longmsg + cause.length := by
  have happend : ∀ a b c : String, (a ++ String.ofList cause ++ b ++ c).length =
      (a ++ String.ofList [] ++ b ++ c).length + cause.length := by
    intro a b c
    simp only [String.length_append, String.length_ofList, List.length_nil]
    omega
  unfold errorBase errorBody
  exact happend _ _ _

theorem errorBase_501 : errorBase "501" "Not Implemented"
    "OS-HW3 Server does not implement this method" = 151 := by decide +kernel

/-- The strings of `requestError` fit as soon as the body does. -/
theorem errorStrings_fit {cause : Text} {errnum shortmsg longmsg : String}
    (hstatus : errnum.length + shortmsg.length ≤ 100) :
    (∀ b ∈ errorStrings cause errnum shortmsg longmsg, b.Fits) ↔
      errorBase errnum shortmsg longmsg + cause.length < maxbuf := by
  have hlen := errorBody_length cause errnum shortmsg longmsg
  unfold errorStrings
  generalize errorBody cause errnum shortmsg longmsg = body at hlen
  rw [← hlen]
  simp only [List.forall_mem_cons, Built.Fits, String.length_toList, String.length_append,
    List.not_mem_nil, false_imp_iff, implies_true, and_true]
  have h₁ : "HTTP/1.0 ".length = 9 := by decide
  have h₂ : " ".length = 1 := by decide
  have h₃ : "\r\n".length = 2 := by decide
  have h₄ : "Content-Type: text/html\r\n".length = 25 := by decide
  have h₅ : "Content-Length: ".length = 16 := by decide
  have hbuf : maxbuf = 8192 := rfl
  have hline : maxline = 8192 := rfl
  constructor
  · exact fun h => h.1
  · intro h
    have hrepr : body.length.repr.length ≤ 4 := Nat.length_repr_le_iff (by decide) |>.mpr (by omega)
    omega

/-- The length of the file name for a `uri` without `".."`. -/
def nameLength (uri : Text) : ℕ :=
  9 + if strstr uri "cgi".toList then (uri.takeWhile (· ≠ '?')).length
    else uri.length + if uri.getLast? = some '/' then 9 else 0

/-- The length of the arguments for a `uri` without `".."`. -/
def argsLength (uri : Text) : ℕ :=
  if strstr uri "cgi".toList then (uri.dropWhile (· ≠ '?')).tail.length else 0

/-- The longest name that fits: a name that is reported back has to fit into the message. -/
def nameLimit (files : Files) (isStatic : ℤ) (filename : Text) : ℕ :=
  match files.stat filename with
  | none => 8052
  | some sbuf =>
    if isStatic ≠ 0 then
      if ¬sbuf.isReg ∨ ¬sbuf.ownerRead then 8052 else 8191
    else if ¬sbuf.isReg ∨ ¬sbuf.ownerExec then 8046 else 8191

theorem nameLimit_le (files : Files) (isStatic : ℤ) (filename : Text) :
    8046 ≤ nameLimit files isStatic filename ∧ nameLimit files isStatic filename ≤ 8191 := by
  unfold nameLimit
  split
  · omega
  · split_ifs <;> omega

theorem requestParseURI_parent {uri : Text} (h : strstr uri "..".toList = true) (cgiargs : Text) :
    requestParseURI uri cgiargs = (1, "./public/home.html".toList, cgiargs) := by
  rw [requestParseURI, if_pos h]

theorem requestParseURI_length {uri : Text} (h : ¬strstr uri "..".toList = true) (cgiargs : Text) :
    (requestParseURI uri cgiargs).2.1.length = nameLength uri ∧
      (requestParseURI uri cgiargs).2.2.length = argsLength uri := by
  have h₁ : "./public/".toList.length = 9 := by decide
  have h₂ : "home.html".toList.length = 9 := by decide
  rw [requestParseURI, nameLength, argsLength, if_neg h]
  by_cases hcgi : strstr uri "cgi".toList = true
  · rw [if_neg (not_not.mpr hcgi), if_pos hcgi, if_pos hcgi]
    split
    · exact ⟨by rw [List.length_append, h₁], rfl⟩
    next hq =>
      have hall : ∀ c ∈ uri, decide (c ≠ '?') = true := fun c hc =>
        decide_eq_true fun e => hq (e ▸ hc)
      refine ⟨by rw [List.length_append, h₁, List.takeWhile_eq_self_iff.mpr hall], ?_⟩
      rw [List.dropWhile_eq_nil_iff.mpr hall]
      rfl
  · rw [if_pos hcgi, if_neg hcgi, if_neg hcgi]
    refine ⟨?_, rfl⟩
    split
    · rw [List.length_append, List.length_append, h₁, h₂, Nat.add_assoc]
    · rw [List.length_append, h₁, Nat.add_zero]

theorem parseStrings_fit {uri : Text} (h : ¬strstr uri "..".toList = true) (cgiargs : Text) :
    (∀ b ∈ parseStrings uri cgiargs, b.Fits) ↔ nameLength uri ≤ 8191 ∧ argsLength uri ≤ 8191 := by
  obtain ⟨h₁, h₂⟩ := requestParseURI_length h cgiargs
  rw [parseStrings, if_neg h, ← h₁, ← h₂]
  simp only [List.forall_mem_cons, Built.Fits, List.not_mem_nil, false_imp_iff, implies_true,
    and_true]
  show _ + 1 ≤ 8192 ∧ _ + 1 ≤ 8192 ↔ _
  omega

/-- The message that reports a name back fits if the name stays within the limit. -/
theorem responseStrings_fit {line : RequestLine} {files : Files} {cgiargs : Text} {isStatic : ℤ}
    {filename args : Text} (hget : strcaseeq line.method "GET".toList = true)
    (hp : requestParseURI line.uri cgiargs = (isStatic, filename, args))
    (hname : filename.length ≤ 8191) (stats : Statistics) :
    (∀ b ∈ responseStrings (requestHandle line files cgiargs stats), b.Fits) ↔
      filename.length ≤ nameLimit files isStatic filename := by
  have hfits : ∀ (errnum shortmsg longmsg : String) (limit : ℕ),
      errnum.length + shortmsg.length ≤ 100 → errorBase errnum shortmsg longmsg + limit = 8191 →
      ((∀ b ∈ errorStrings filename errnum shortmsg longmsg, b.Fits) ↔
        filename.length ≤ limit) := by
    intro errnum shortmsg longmsg limit hstatus hlimit
    rw [errorStrings_fit hstatus]
    show _ < 8192 ↔ _
    omega
  have hnone : ∀ b ∈ ([] : List Built), b.Fits := fun b hb => absurd hb List.not_mem_nil
  unfold requestHandle nameLimit
  rw [if_neg (not_not.mpr hget), hp]
  simp only
  cases files.stat filename with
  | none => exact hfits _ _ _ 8052 (by decide) (by decide +kernel)
  | some sbuf =>
      simp only
      by_cases hstatic : isStatic ≠ 0
      · rw [if_pos hstatic, if_pos hstatic]
        by_cases hread : ¬sbuf.isReg = true ∨ ¬sbuf.ownerRead = true
        · rw [if_pos hread, if_pos hread]
          exact hfits _ _ _ 8052 (by decide) (by decide +kernel)
        · rw [if_neg hread, if_neg hread]
          refine iff_of_true ?_ hname
          unfold requestServeStatic
          split <;> exact hnone
      · rw [if_neg hstatic, if_neg hstatic]
        by_cases hexec : ¬sbuf.isReg = true ∨ ¬sbuf.ownerExec = true
        · rw [if_pos hexec, if_pos hexec]
          exact hfits _ _ _ 8046 (by decide) (by decide +kernel)
        · rw [if_neg hexec, if_neg hexec]
          exact iff_of_true hnone hname

/-- The request line is short enough for every buffer.  A method other than `GET` has to fit into
the message that it is not implemented, a file name into its own buffer and into the message
that reports it back. -/
def RequestLine.Short (files : Files) (line : RequestLine) : Prop :=
  if strcaseeq line.method "GET".toList then
    let parsed := requestParseURI line.uri []
    strstr line.uri "..".toList = true ∨
      nameLength line.uri ≤ nameLimit files parsed.1 parsed.2.1 ∧ argsLength line.uri ≤ 8191
  else line.method.length ≤ 8040

theorem requestParseURI_congr (uri cgiargs cgiargs' : Text) :
    (requestParseURI uri cgiargs).1 = (requestParseURI uri cgiargs').1 ∧
      (requestParseURI uri cgiargs).2.1 = (requestParseURI uri cgiargs').2.1 := by
  unfold requestParseURI
  split_ifs <;> exact ⟨rfl, rfl⟩

theorem responseStrings_not_get {line : RequestLine}
    (hget : ¬strcaseeq line.method "GET".toList = true) (files : Files) (cgiargs : Text)
    (stats : Statistics) :
    responseStrings (requestHandle line files cgiargs stats) = errorStrings line.method "501"
      "Not Implemented" "OS-HW3 Server does not implement this method" := by
  rw [requestHandle, if_pos hget]
  rfl

/-- A `GET` for a name without `".."`. -/
theorem get_fit {line : RequestLine} (hget : strcaseeq line.method "GET".toList = true)
    (hup : ¬strstr line.uri "..".toList = true) (files : Files) (cgiargs : Text)
    (stats : Statistics) :
    ((∀ b ∈ parseStrings line.uri cgiargs, b.Fits) ∧
        ∀ b ∈ responseStrings (requestHandle line files cgiargs stats), b.Fits) ↔
      nameLength line.uri ≤ nameLimit files (requestParseURI line.uri cgiargs).1
        (requestParseURI line.uri cgiargs).2.1 ∧ argsLength line.uri ≤ 8191 := by
  obtain ⟨hlen, -⟩ := requestParseURI_length hup cgiargs
  rw [parseStrings_fit hup]
  generalize hp : requestParseURI line.uri cgiargs = parsed at hlen
  obtain ⟨isStatic, filename, args⟩ := parsed
  simp only at hlen ⊢
  obtain ⟨-, hle⟩ := nameLimit_le files isStatic filename
  rw [← hlen]
  constructor
  · rintro ⟨⟨hname, hargs⟩, h⟩
    exact ⟨(responseStrings_fit hget hp hname stats).mp h, hargs⟩
  · rintro ⟨hname, hargs⟩
    have hname' : filename.length ≤ 8191 := Nat.le_trans hname hle
    exact ⟨⟨hname', hargs⟩, (responseStrings_fit hget hp hname' stats).mpr hname⟩

/-- A `GET` for a name with `".."`: the name is that of the home page. -/
theorem parent_fit {line : RequestLine} (hget : strcaseeq line.method "GET".toList = true)
    (hup : strstr line.uri "..".toList = true) (files : Files) (cgiargs : Text)
    (stats : Statistics) :
    (∀ b ∈ parseStrings line.uri cgiargs, b.Fits) ∧
      ∀ b ∈ responseStrings (requestHandle line files cgiargs stats), b.Fits := by
  have hp := requestParseURI_parent hup cgiargs
  have hlen : "./public/home.html".toList.length = 18 := by decide
  constructor
  · rw [parseStrings, if_pos hup, hp]
    intro b hb
    rw [List.mem_singleton.mp hb]
    show _ + 1 ≤ 8192
    rw [hlen]
    decide
  · rw [responseStrings_fit hget hp (by omega)]
    have := nameLimit_le files 1 "./public/home.html".toList
    omega

/-- **Strings and their buffers**: all strings built from a request line fit if and only if it is
short enough. -/
theorem strings_fit_iff {s : Text} (hs : s.length < maxline) (old : RequestLine) (files : Files)
    (cgiargs : Text) (stats : Statistics) :
    (∀ b ∈ handleStrings s old files cgiargs stats, b.Fits) ↔
      (old.scan (scanWords 3 (s.takeWhile (· ≠ nul)))).Short files := by
  have hwords := words_fit hs
  unfold handleStrings RequestLine.Short
  generalize scanWords 3 (s.takeWhile (· ≠ nul)) = words at hwords
  simp only [List.forall_mem_append]
  generalize old.scan words = line
  by_cases hget : strcaseeq line.method "GET".toList = true
  · rw [if_pos hget, if_pos hget, and_assoc]
    obtain ⟨h₁, h₂⟩ := requestParseURI_congr line.uri cgiargs []
    rw [← h₁, ← h₂]
    by_cases hup : strstr line.uri "..".toList = true
    · exact iff_of_true ⟨hwords, parent_fit hget hup files cgiargs stats⟩ (.inl hup)
    · rw [or_iff_right hup, ← get_fit hget hup files cgiargs stats, and_iff_right hwords]
  · rw [if_neg hget, if_neg hget, responseStrings_not_get hget, errorStrings_fit (by decide)]
    rw [errorBase_501]
    show (_ ∧ ∀ b ∈ [], _) ∧ _ < 8192 ↔ _
    constructor
    · exact fun h => by omega
    · exact fun h => ⟨⟨hwords, fun b hb => absurd hb List.not_mem_nil⟩, by omega⟩

/-- A short `GET` for a page that does not exist. -/
theorem strings_fit_get :
    let s := "GET /a.html HTTP/1.0\r\n".toList
    s.length < maxline ∧ ∀ b ∈ handleStrings s ⟨[], [], []⟩
      ⟨fun _ => none, fun _ => true, fun _ _ => true⟩ [] ⟨⟨0, 0⟩, ⟨0, 0⟩, 1, 1, 0, 0⟩, b.Fits := by
  refine ⟨by decide, (strings_fit_iff (by decide) _ _ _ _).mpr ?_⟩
  unfold RequestLine.Short
  rw [if_pos (by decide)]
  exact .inr (by decide)

theorem scanWords_word {s : Text} (hs : s ≠ []) (hspace : ∀ c ∈ s, isspace c = false) (k : ℕ) :
    scanWords (k + 1) s = s :: scanWords k [] := by
  obtain ⟨c, t, rfl⟩ := List.exists_cons_of_ne_nil hs
  have hall : ∀ d ∈ c :: t, (!isspace d) = true := fun d hd => by rw [hspace d hd]; rfl
  rw [scanWords, List.dropWhile_cons_of_neg (by rw [hspace c List.mem_cons_self]; decide)]
  simp only
  rw [List.takeWhile_eq_self_iff.mpr hall, List.dropWhile_eq_nil_iff.mpr hall]

/-- A line that is one long method. -/
theorem strings_overflow :
    ∃ s : Text, s.length < maxline ∧ ∀ old files cgiargs stats,
      ¬∀ b ∈ handleStrings s old files cgiargs stats, b.Fits := by
  refine ⟨List.replicate 8191 'A', by rw [List.length_replicate]; decide, ?_⟩
  intro old files cgiargs stats h
  generalize hs : List.replicate 8191 'A' = s at h
  have hlen : s.length = 8191 := by rw [← hs, List.length_replicate]
  have hne : s ≠ [] := List.ne_nil_of_length_pos (by omega)
  have hmem : ∀ c ∈ s, c = 'A' := fun c hc => List.eq_of_mem_replicate (hs ▸ hc)
  have hword : scanWords 3 (s.takeWhile (· ≠ nul)) = [s] := by
    rw [List.takeWhile_eq_self_iff.mpr fun c hc => by rw [hmem c hc]; decide,
      scanWords_word hne fun c hc => by rw [hmem c hc]; decide]
    rfl
  have hget : ¬strcaseeq s "GET".toList = true := by
    intro he
    have := congrArg List.length (eq_of_beq he)
    rw [List.length_map, hlen] at this
    exact absurd this (by decide)
  unfold handleStrings at h
  rw [hword] at h
  have hget' : ¬strcaseeq (old.scan [s]).method "GET".toList = true := hget
  have hresp := responseStrings_not_get hget' files cgiargs stats
  have hbody := (errorStrings_fit (by decide)).mp fun b hb =>
    h b (List.mem_append_right _ (hresp.symm ▸ hb))
  have hmethod : (old.scan [s]).method.length = 8191 := hlen
  rw [hmethod, errorBase_501] at hbody
  exact absurd hbody (by decide)

end OsProjects.WebServer
