import OsProjects.WebServer.Client

/-! # The server's side of a connection

`requestHandle` of `request.c` with all that it reads from a connection and writes to it, and the
text that `output.c` prints.  The server reads the request of the client, and nothing behind it
(`talk_requestHandle`); what it writes is the text of the response (`talk_send`). -/

namespace OsProjects.WebServer.Exchange

open Segel

/-! ### `request.c` -/

/-- What the server finds: the files, what is in them, and what the programs write. -/
structure Site where
  files : Files
  content : Text → Text
  output : Text → Text → Text

/-- The local variables of `requestHandle` and of `requestReadhdrs`, before they are set. -/
structure Locals where
  buf : Buffer
  hdrs : Buffer
  line : RequestLine
  cgiargs : Text

/-- A field of a header, with what stands behind its name. -/
def fieldLine (sep : String) (field : String × String) : Text :=
  (field.1 ++ sep ++ field.2 ++ "\r\n").toList

/-- The text of `buf_stats`. -/
def statsText (stats : Statistics) (isStatic : ℤ) : Text :=
  (bufStats stats isStatic).flatMap (fieldLine ":: ")

def sendError (cause : Text) (errnum shortmsg longmsg : String) (stats : Statistics) :
    Dialogue Unit := do
  let body := errorBody cause errnum shortmsg longmsg
  write ("HTTP/1.0 " ++ errnum ++ " " ++ shortmsg ++ "\r\n").toList
  write "Content-Type: text/html\r\n".toList
  write ("Content-Length: " ++ toString body.length ++ "\r\n").toList
  write (statsText stats (-1) ++ crlf)
  write body.toList

def sendStatic (site : Site) (filename : Text) (filesize : ℤ) (stats : Statistics) :
    Dialogue Unit := do
  write ("HTTP/1.0 200 OK\r\n" ++ "Server: OS-HW3 Web Server\r\n" ++
    "Content-Length: " ++ toString filesize ++ "\r\n" ++
    "Content-Type: " ++ requestGetFiletype filename ++ "\r\n").toList
  write (statsText stats 1 ++ crlf)
  write ((site.content filename).take filesize.toNat)

/-- The program that is run writes to the connection as well. -/
def sendDynamic (site : Site) (filename cgiargs : Text) (stats : Statistics) : Dialogue Unit := do
  write ("HTTP/1.0 200 OK\r\n" ++ "Server: OS-HW3 Web Server\r\n").toList
  write (statsText stats 0)
  write (site.output filename cgiargs)

/-- The calls of `Rio_writen` for a response. -/
def send (site : Site) (stats : Statistics) : WebServer.Answer → Dialogue Unit
  | .error errnum shortmsg longmsg cause => sendError cause errnum shortmsg longmsg stats
  | .static filename filesize => sendStatic site filename filesize stats
  | .dynamic filename cgiargs => sendDynamic site filename cgiargs stats

/-- `requestReadhdrs` with at most so many calls of the line reader. -/
def requestReadhdrs : ℕ → Buffer → Dialogue Bool
  | 0, _ => pure false
  | calls + 1, buf => do
    let (_, buf) ← readInto buf maxline
    if buf.strcmpEq 0 crlf then pure true else requestReadhdrs calls buf

/-- How `requestHandle` ends. -/
inductive Handled where
  | returns (result : ℤ)
  | exits
  /-- It is still reading the headers. -/
  | reads
deriving DecidableEq, Repr

/-- `requestHandle`: the request line, the headers unless the method is not implemented, and then
the response. -/
def requestHandle (calls : ℕ) (locals : Locals) (site : Site) (stats : Statistics) :
    Dialogue Handled := do
  let (_, buf) ← readInto locals.buf maxline
  let line := locals.line.scan (scanWords 3 (string maxline buf))
  let ready ←
    if strcaseeq line.method "GET".toList then requestReadhdrs calls locals.hdrs else pure true
  if ready then
    match WebServer.requestHandle line site.files locals.cgiargs stats with
    | some (result, response) => do
      send site stats response.answer
      pure (.returns result)
    | none => pure .exits
  else pure .reads

/-! ### `output.c` -/

/-- The page of the CGI program, which has spun for so many seconds. -/
def outputContent (seconds : String) : String :=
  "<p>Welcome to the CGI program</p>\r\n" ++
    "<p>My only purpose is to waste time on the server!</p>\r\n" ++
    ("<p>I spun for " ++ seconds ++ " seconds</p>\r\n")

/-- What it prints. -/
def outputText (seconds : String) : Text :=
  ("Content-length: " ++ toString (outputContent seconds).length ++ "\r\n").toList ++
    "Content-type: text/html\r\n\r\n".toList ++ (outputContent seconds).toList

variable {s t w : Text} {buf : Buffer} {calls : ℕ}

/-! ### What the server sends -/

/-- A field of a response, as it is written. -/
def fieldText (field : String × String) : Text :=
  fieldLine (if "Stat-".toList.isPrefixOf field.1.toList then ":: " else ": ") field

def statusLine (r : Response) : Text := r.status.toList ++ crlf

/-- What follows the header lines that the server writes itself. -/
def page (site : Site) : WebServer.Answer → Text
  | .error errnum shortmsg longmsg cause =>
    crlf ++ (errorBody cause errnum shortmsg longmsg).toList
  | .static filename filesize => crlf ++ (site.content filename).take filesize.toNat
  | .dynamic filename cgiargs => site.output filename cgiargs

def responseText (site : Site) (r : Response) : Text :=
  statusLine r ++ (r.fields.flatMap fieldText ++ page site r.answer)

/-- The three errors behind a `GET`. -/
def getErrors : List (String × String × String) :=
  [("404", "Not found", "OS-HW3 Server could not find this file"),
    ("403", "Forbidden", "OS-HW3 Server could not read this file"),
    ("403", "Forbidden", "OS-HW3 Server could not run this CGI program")]

/-- The responses to a `GET` for a file. -/
inductive Responds (files : Files) (stats : Statistics) (filename cgiargs : Text) : Response → Prop
  | error {errnum shortmsg longmsg : String} (h : (errnum, shortmsg, longmsg) ∈ getErrors) :
    Responds files stats filename cgiargs (requestError filename errnum shortmsg longmsg stats)
  | static {size : ℤ} {r : Response}
    (h : requestServeStatic files filename (toInt size) stats = some r) :
    Responds files stats filename cgiargs r
  | dynamic : Responds files stats filename cgiargs (requestServeDynamic filename cgiargs stats)

variable {site : Site} {stats : Statistics} {line : RequestLine} {cgiargs : Text} {r : Response}
  {result : ℤ}

theorem requestHandle_responds (hget : strcaseeq line.method "GET".toList = true)
    (h : WebServer.requestHandle line site.files cgiargs stats = some (result, r)) :
    Responds site.files stats (requestParseURI line.uri cgiargs).2.1
      (requestParseURI line.uri cgiargs).2.2 r := by
  unfold WebServer.requestHandle at h
  rw [if_neg (not_not.mpr hget)] at h
  simp only at h
  split at h
  · cases h
    exact .error (by simp [getErrors])
  · split at h
    · split at h
      · cases h
        exact .error (by simp [getErrors])
      · obtain ⟨r', hr, he⟩ := Option.map_eq_some_iff.mp h
        cases he
        exact .static hr
    · split at h
      · cases h
        exact .error (by simp [getErrors])
      · cases h
        exact .dynamic

/-- The names of the statistics, and those of the other fields. -/
def statNames : List String :=
  ["Stat-Req-Arrival", "Stat-Req-Dispatch", "Stat-Thread-Id", "Stat-Thread-Count",
    "Stat-Thread-Static", "Stat-Thread-Dynamic"]

def otherNames : List String := ["Server", "Content-Length", "Content-Type"]

theorem fieldText_stat {f : String × String} (h : f.1 ∈ statNames) :
    fieldText f = fieldLine ":: " f := by
  have hall : ∀ name ∈ statNames, "Stat-".toList.isPrefixOf name.toList = true := by decide
  rw [fieldText, if_pos (hall _ h)]

theorem fieldText_other {f : String × String} (h : f.1 ∈ otherNames) :
    fieldText f = fieldLine ": " f := by
  have hall : ∀ name ∈ otherNames, ¬"Stat-".toList.isPrefixOf name.toList = true := by decide
  rw [fieldText, if_neg (hall _ h)]

theorem fieldText_server : fieldText ("Server", "OS-HW3 Web Server") =
    "Server: OS-HW3 Web Server\r\n".toList := by decide

theorem fieldText_contentLength (v : String) : fieldText ("Content-Length", v) =
    ("Content-Length: " ++ v ++ "\r\n").toList := by
  have hname : "Content-Length" ++ ": " = "Content-Length: " := by decide
  rw [fieldText_other (by simp [otherNames]), fieldLine, hname]

theorem fieldText_contentType (v : String) : fieldText ("Content-Type", v) =
    ("Content-Type: " ++ v ++ "\r\n").toList := by
  have hname : "Content-Type" ++ ": " = "Content-Type: " := by decide
  rw [fieldText_other (by simp [otherNames]), fieldLine, hname]

theorem bufStats_names (stats : Statistics) (v : ℤ) : (bufStats stats v).map Prod.fst = statNames :=
  rfl

theorem statsText_eq (stats : Statistics) (v : ℤ) :
    statsText stats v = (bufStats stats v).flatMap fieldText :=
  List.flatMap_congr fun _ hf =>
    (fieldText_stat (bufStats_names stats v ▸ List.mem_map_of_mem hf)).symm

theorem statusLine_eq (r : Response) : statusLine r = (r.status ++ "\r\n").toList := by
  rw [statusLine, String.toList_append]
  rfl

/-- **The server** writes the response. -/
theorem talk_send {filename args : Text} (h : Responds site.files stats filename args r)
    (t : Text) : (send site stats r.answer).talk t = ⟨(), t, responseText site r, 0⟩ := by
  have hok : "HTTP/1.0 200 OK" ++ "\r\n" = "HTTP/1.0 200 OK\r\n" := by decide
  cases h with
  | @error errnum shortmsg longmsg h =>
      have hsend : (sendError filename errnum shortmsg longmsg stats).talk t =
          ⟨(), t, ("HTTP/1.0 " ++ errnum ++ " " ++ shortmsg ++ "\r\n").toList ++
            ("Content-Type: text/html\r\n".toList ++
              (("Content-Length: " ++
                  toString (errorBody filename errnum shortmsg longmsg).length ++ "\r\n").toList ++
                (statsText stats (-1) ++ crlf ++
                  ((errorBody filename errnum shortmsg longmsg).toList ++ [])))), 0⟩ := rfl
      have htype : "Content-Type: text/html\r\n".toList = fieldText ("Content-Type", "text/html") := by
        decide
      rw [responseText, statusLine_eq]
      simp only [send, requestError, page, hsend, htype, ← fieldText_contentLength, statsText_eq,
        List.flatMap_append, List.flatMap_cons, List.flatMap_nil, List.append_assoc,
        List.append_nil]
  | @static size r h =>
      unfold requestServeStatic at h
      split at h
      · cases h
        have hsend : (sendStatic site filename (toInt size) stats).talk t =
            ⟨(), t, ("HTTP/1.0 200 OK\r\n" ++ "Server: OS-HW3 Web Server\r\n" ++
                "Content-Length: " ++ toString (toInt size) ++ "\r\n" ++
                "Content-Type: " ++ requestGetFiletype filename ++ "\r\n").toList ++
              (statsText stats 1 ++ crlf ++
                ((site.content filename).take (toInt size).toNat ++ [])), 0⟩ := rfl
        rw [responseText, statusLine_eq]
        simp only [send, page, hsend, hok, fieldText_server, fieldText_contentLength,
          fieldText_contentType, statsText_eq, String.toList_append, List.flatMap_append,
          List.flatMap_cons, List.flatMap_nil, List.append_assoc, List.append_nil]
      · cases h
  | dynamic =>
      have hsend : (sendDynamic site filename args stats).talk t =
          ⟨(), t, ("HTTP/1.0 200 OK\r\n" ++ "Server: OS-HW3 Web Server\r\n").toList ++
            (statsText stats 0 ++ (site.output filename args ++ [])), 0⟩ := rfl
      rw [responseText, statusLine_eq]
      simp only [send, requestServeDynamic, page, hsend, hok, fieldText_server, statsText_eq,
        String.toList_append, List.flatMap_cons, List.append_assoc, List.append_nil]

/-! ### What the server reads -/

/-- The header loop does on a connection what it does on a stream that arrives in chunks. -/
theorem requestReadhdrs_agrees (calls : ℕ) (rp : Rio) (buf : Buffer) :
    ((requestReadhdrs calls buf).talk rp.stream).result =
        (WebServer.requestReadhdrs calls rp buf).isSome ∧
      ∀ p, WebServer.requestReadhdrs calls rp buf = some p →
        ((requestReadhdrs calls buf).talk rp.stream).rest = p.1.stream := by
  induction calls generalizing rp buf with
  | zero => exact ⟨rfl, nofun⟩
  | succ calls ih =>
      obtain ⟨rc, rp', hrio, hstream⟩ := rioReadlineb_eq rp buf (show 1 < maxline by decide)
      obtain ⟨n, htalk⟩ : ∃ n, (readInto buf maxline).talk rp.stream =
          ⟨(n, if rp.stream = [] then buf else buf.store (lineOf (maxline - 1) rp.stream)),
            rp'.stream, [], 1⟩ := by
        by_cases hs : rp.stream = []
        · rw [hs, List.drop_nil] at hstream
          rw [if_pos hs, hs, hstream, talk_readInto_nil (by decide)]
          exact ⟨0, rfl⟩
        · obtain ⟨n, -, hread⟩ := talk_readInto_cons (show 1 < maxline by decide) buf hs
          rw [if_neg hs, hstream, hread]
          exact ⟨n, rfl⟩
      rw [requestReadhdrs, WebServer.requestReadhdrs, Dialogue.talk_bind, htalk, hrio,
        Dialogue.Talk.andThen_read]
      simp only
      generalize (if rp.stream = [] then buf else _) = buf'
      split
      · exact ⟨rfl, by rintro _ ⟨⟩; rfl⟩
      · exact ih rp' buf'

/-- A name that the client can ask for, and a host that it can be. -/
structure Asks (hostname filename : Text) : Prop where
  ne_nil : filename ≠ []
  word : ∀ c ∈ filename, isspace c = false
  nul_not_mem : nul ∉ filename
  newline_not_mem : '\n' ∉ hostname
  fits : (requestText hostname filename).Fits

variable {hostname filename : Text}

theorem word_of_all {w : Text} (h : (w.all fun c => !isspace c) = true) :
    ∀ c ∈ w, isspace c = false := by simpa using h

/-- The words of a line that begins with a word. -/
theorem scanWords_append (hw : w ≠ []) (hword : ∀ c ∈ w, isspace c = false) {c : Char}
    (hc : isspace c = true) (k : ℕ) (t : Text) :
    scanWords (k + 1) (w ++ c :: t) = w :: scanWords k (c :: t) := by
  obtain ⟨d, w, rfl⟩ := List.exists_cons_of_ne_nil hw
  have hall : ∀ a ∈ d :: w, (!isspace a) = true := fun a ha => by rw [hword a ha]; rfl
  rw [scanWords, List.cons_append, List.dropWhile_cons_of_neg (by simp [hword d])]
  simp only
  rw [← List.cons_append, List.takeWhile_append_of_pos hall, List.dropWhile_append_of_pos hall,
    List.takeWhile_cons_of_neg (by simp [hc]), List.dropWhile_cons_of_neg (by simp [hc]),
    List.append_nil]

theorem scanWords_space {c : Char} (hc : isspace c = true) (k : ℕ) (t : Text) :
    scanWords k (c :: t) = scanWords k t := by
  cases k with
  | zero => rfl
  | succ k => rw [scanWords, scanWords, List.dropWhile_cons_of_pos hc]

/-- The request line of the client. -/
def requestLine (filename : Text) : Text := "GET ".toList ++ filename ++ " HTTP/1.1".toList

theorem scan_requestLine (h : Asks hostname filename) (old : RequestLine) :
    old.scan (scanWords 3 (requestLine filename ++ ['\n'])) =
      ⟨"GET".toList, filename, "HTTP/1.1".toList⟩ := by
  have hsplit : requestLine filename ++ ['\n'] =
      "GET".toList ++ ' ' :: (filename ++ ' ' :: ("HTTP/1.1".toList ++ '\n' :: [])) := by
    show "GET ".toList ++ filename ++ " HTTP/1.1".toList ++ ['\n'] = _
    rw [List.append_assoc, List.append_assoc]
    rfl
  have hspace : isspace ' ' = true := by decide
  rw [hsplit, scanWords_append (by decide) (word_of_all (by decide)) hspace, scanWords_space hspace,
    scanWords_append h.ne_nil h.word hspace, scanWords_space hspace,
    scanWords_append (by decide) (word_of_all (by decide)) (by decide)]
  rfl

/-- The header of the client, and what is behind its request. -/
def hostLine (hostname : Text) : Text := "host: ".toList ++ hostname

theorem requestText_append (hostname filename t : Text) :
    (requestText hostname filename).text ++ t =
      requestLine filename ++ '\n' :: (hostLine hostname ++ '\n' :: (crlf ++ t)) := by
  have hmiddle : " HTTP/1.1\nhost: ".toList = " HTTP/1.1".toList ++ '\n' :: "host: ".toList := rfl
  show "GET ".toList ++ filename ++ " HTTP/1.1\nhost: ".toList ++ hostname ++ '\n' :: crlf ++ t =
    "GET ".toList ++ filename ++ " HTTP/1.1".toList ++
      '\n' :: ("host: ".toList ++ hostname ++ '\n' :: (crlf ++ t))
  rw [hmiddle]
  generalize "GET ".toList ++ filename = a
  generalize " HTTP/1.1".toList = b
  generalize "host: ".toList = d
  simp only [List.append_assoc, List.cons_append]

theorem Asks.length_lt (h : Asks hostname filename) :
    (requestLine filename).length + 1 < maxline ∧ (hostLine hostname).length + 1 < maxline := by
  have hfits := h.fits
  have htext := requestText_append hostname filename []
  rw [List.append_nil] at htext
  rw [Built.Fits, htext] at hfits
  simp only [List.length_append, List.length_cons] at hfits
  have hsize : (requestText hostname filename).size = maxline := rfl
  have hcrlf : crlf.length = 2 := by decide
  omega

theorem Asks.nul_not_mem_line (h : Asks hostname filename) :
    nul ∉ requestLine filename ++ ['\n'] := by
  show nul ∉ "GET ".toList ++ filename ++ " HTTP/1.1".toList ++ ['\n']
  rw [List.mem_append, List.mem_append, List.mem_append]
  rintro (((hmem | hmem) | hmem) | hmem)
  · exact absurd hmem (by decide)
  · exact h.nul_not_mem hmem
  · exact absurd hmem (by decide)
  · exact absurd hmem (by decide)

/-- **The headers** of the client end with its request. -/
theorem talk_requestReadhdrs (h : Asks hostname filename) (hcalls : 2 ≤ calls) (buf : Buffer)
    (t : Text) :
    (requestReadhdrs calls buf).talk (hostLine hostname ++ '\n' :: (crlf ++ t)) =
      ⟨true, t, [], 2⟩ := by
  obtain ⟨calls, rfl⟩ : ∃ k, calls = k + 1 + 1 := Nat.exists_eq_add_of_le' hcalls
  have hline : '\n' ∉ hostLine hostname := by
    show '\n' ∉ "host: ".toList ++ hostname
    rw [List.mem_append]
    rintro (hmem | hmem)
    · exact absurd hmem (by decide)
    · exact h.newline_not_mem hmem
  have hne : ¬(buf.store (hostLine hostname ++ ['\n'])).strcmpEq 0 crlf = true := by
    have hlineOf := lineOf_line hline (Nat.lt_succ_self _) []
    rw [← hlineOf, store_strcmpEq, hlineOf]
    intro heq
    have hhead : (hostLine hostname ++ ['\n']).head? = some 'h' := rfl
    rw [heq] at hhead
    exact absurd hhead (by decide)
  rw [requestReadhdrs, Dialogue.talk_bind, talk_readInto_line hline h.length_lt.2,
    Dialogue.Talk.andThen_read]
  simp only
  rw [if_neg hne, requestReadhdrs, Dialogue.talk_bind, talk_readInto_crlf _ _ (by decide),
    Dialogue.Talk.andThen_read]
  simp only
  rw [if_pos (store_crlf _)]
  rfl

/-- **The server** reads the request of the client, and nothing behind it, before it answers. -/
theorem talk_requestHandle (h : Asks hostname filename) (hcalls : 2 ≤ calls) (locals : Locals)
    (site : Site) (stats : Statistics) (t : Text) :
    (requestHandle calls locals site stats).talk ((requestText hostname filename).text ++ t) =
      match WebServer.requestHandle ⟨"GET".toList, filename, "HTTP/1.1".toList⟩ site.files
        locals.cgiargs stats with
      | some (result, r) => ⟨.returns result, t, responseText site r, 3⟩
      | none => ⟨.exits, t, [], 3⟩ := by
  have hline : '\n' ∉ requestLine filename := by
    show '\n' ∉ "GET ".toList ++ filename ++ " HTTP/1.1".toList
    rw [List.mem_append, List.mem_append]
    rintro ((hmem | hmem) | hmem)
    · exact absurd hmem (by decide)
    · exact absurd (h.word _ hmem) (by decide)
    · exact absurd hmem (by decide)
  have hstring : string maxline (locals.buf.store (requestLine filename ++ ['\n'])) =
      requestLine filename ++ ['\n'] := by
    rw [string_store _ (by simpa using h.length_lt.1), printed_eq_self h.nul_not_mem_line]
  have hget : strcaseeq "GET".toList "GET".toList = true := by decide
  rw [requestText_append, requestHandle, Dialogue.talk_bind,
    talk_readInto_line hline h.length_lt.1]
  simp only
  rw [hstring, scan_requestLine h]
  simp only
  rw [if_pos hget, Dialogue.talk_bind, talk_requestReadhdrs h hcalls]
  simp only [if_true]
  cases hr : WebServer.requestHandle ⟨"GET".toList, filename, "HTTP/1.1".toList⟩ site.files
    locals.cgiargs stats with
  | none => rfl
  | some p =>
      obtain ⟨result, r⟩ := p
      simp only
      rw [Dialogue.talk_bind, talk_send (requestHandle_responds hget hr)]
      simp [Dialogue.Talk.andThen]

end OsProjects.WebServer.Exchange
