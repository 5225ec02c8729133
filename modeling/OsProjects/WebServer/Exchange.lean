import OsProjects.WebServer.Headers

/-! # A request and its response

`client.c` and `requestHandle` of `request.c` as the two ends of a connection.  Whatever the system
calls on both sides do, a client that returns has printed the whole response to what it has asked
for (`client_prints_response`). -/

namespace OsProjects.WebServer.Exchange

open Segel

variable {t : Text} {buf : Buffer} {calls : ℕ} {site : Site} {stats : Statistics} {cgiargs : Text}
  {r : Response} {result : ℤ} {hostname filename : Text}

/-! ### The exchange -/

/-- The words of the request line of the client. -/
def getRequest (filename : Text) : RequestLine := ⟨"GET".toList, filename, "HTTP/1.1".toList⟩

theorem getRequest_get (filename : Text) :
    strcaseeq (getRequest filename).method "GET".toList = true := by
  show strcaseeq "GET".toList "GET".toList = true
  decide

/-- The response to the client is plain, if it does not overflow a buffer. -/
theorem plain_response (hstats : StatsFit stats)
    (hr : WebServer.requestHandle (getRequest filename) site.files cgiargs stats = some (result, r))
    (hfits : ∀ b ∈ responseStrings (some (result, r)), b.Fits) : PlainResponse r := by
  have hresponds := requestHandle_responds (getRequest_get filename) hr
  generalize (requestParseURI (getRequest filename).uri cgiargs).2.1 = name at hresponds
  cases hresponds with
  | @error errnum shortmsg longmsg h =>
      have hall : ∀ e ∈ getErrors, e.1.length + e.2.1.length ≤ 100 := by decide
      refine plain_error h hstats ?_
      rw [errorBody_length]
      exact (errorStrings_fit (hall _ h)).mp hfits
  | static h => exact plain_static hstats h
  | dynamic => exact plain_dynamic hstats _ _

/-- A request that the server answers with `r`, and what follows the header lines of the server:
lines of a program's `own`, an empty line and the body. -/
structure Answered (hostname filename : Text) (site : Site) (locals : Locals) (stats : Statistics)
    (result : ℤ) (r : Response) (own : List Text) (body : Text) : Prop where
  asks : Asks hostname filename
  statsFit : StatsFit stats
  answer : WebServer.requestHandle (getRequest filename) site.files locals.cgiargs stats =
    some (result, r)
  fits : ∀ b ∈ handleStrings (requestLine filename ++ ['\n']) locals.line site.files locals.cgiargs
    stats, b.Fits
  header : ∀ l ∈ own, HeaderLine l
  page : page site r.answer = own.flatten ++ (crlf ++ body)

variable {locals : Locals} {own : List Text} {body : Text}

theorem Answered.plain (h : Answered hostname filename site locals stats result r own body) :
    PlainResponse r := by
  refine plain_response h.statsFit h.answer fun b hb => ?_
  refine h.fits b ?_
  have hprinted : (requestLine filename ++ ['\n']).takeWhile (· ≠ nul) =
      requestLine filename ++ ['\n'] := printed_eq_self h.asks.nul_not_mem_line
  have hanswer : WebServer.requestHandle ⟨"GET".toList, filename, "HTTP/1.1".toList⟩ site.files
    locals.cgiargs stats = some (result, r) := h.answer
  unfold handleStrings
  simp only
  rw [hprinted, scan_requestLine h.asks, hanswer]
  exact List.mem_append_right _ hb

/-- **The server's side** of the exchange. -/
theorem Answered.talk_server (h : Answered hostname filename site locals stats result r own body)
    (hcalls : 2 ≤ calls) :
    (requestHandle calls locals site stats).talk (requestText hostname filename).text =
      ⟨.returns result, [], responseText site r, 3⟩ := by
  have htalk := talk_requestHandle h.asks hcalls locals site stats []
  rw [List.append_nil] at htalk
  have hanswer : WebServer.requestHandle ⟨"GET".toList, filename, "HTTP/1.1".toList⟩ site.files
    locals.cgiargs stats = some (result, r) := h.answer
  rw [htalk, hanswer]

/-- **The client's side**. -/
theorem Answered.talk_client (h : Answered hostname filename site locals stats result r own body)
    (hcalls : (responseText site r).length + 2 ≤ calls) (buf : Buffer) :
    ∃ reads ≤ 2 * calls + 2, (client calls buf hostname filename).talk (responseText site r) =
      ⟨some (printResponse r own body), [], (requestText hostname filename).text, reads⟩ := by
  have htext := h.plain.message_text h.header h.page
  obtain ⟨reads, hreads, htalk⟩ := talk_clientPrint (h.plain.message own body h.header)
    (htext ▸ hcalls) buf
  refine ⟨reads, hreads, ?_⟩
  rw [htext, h.plain.message_print h.header] at htalk
  rw [client, Dialogue.talk_bind, clientSend, talk_write]
  simp only
  rw [htalk]
  simp [Dialogue.Talk.andThen]

/-- If both sides return, then the server has answered what the client has asked, and the client has
printed the answer. -/
theorem Answered.prints {sc sc' cc cc' : Conn} {handled : Handled} {out : Option Text}
    {calls' : ℕ} (h : Answered hostname filename site locals stats result r own body)
    (hcalls : 2 ≤ calls) (hcalls' : (responseText site r).length + 2 ≤ calls')
    (hserver : (requestHandle calls locals site stats).run.run sc = .ok (handled, sc'))
    (hclient : (client calls' buf hostname filename).run.run cc = .ok (out, cc'))
    (hsc : sc.outgoing = []) (hcc : cc.outgoing = []) (hreq : sc.stream = cc'.outgoing)
    (hresp : cc.stream = sc'.outgoing) :
    handled = .returns result ∧ out = some (printResponse r own body) := by
  obtain ⟨hhandled, hsent⟩ := ((requestHandle calls locals site stats).spec_run sc).of_ok hserver
  obtain ⟨hout, hasked⟩ := ((client calls' buf hostname filename).spec_run cc).of_ok hclient
  have hstream : sc.stream = (requestText hostname filename).text := by
    rw [hreq, hasked.outgoing, hcc, List.nil_append, client_written]
  rw [hstream, h.talk_server hcalls] at hhandled hsent
  have hstream' : cc.stream = responseText site r := by
    rw [hresp, hsent.outgoing, hsc, List.nil_append]
  obtain ⟨reads, -, htalk⟩ := h.talk_client hcalls' buf
  rw [hstream', htalk] at hout
  exact ⟨hhandled, hout⟩

/-- With enough transfers that move a byte each, both sides return. -/
theorem Answered.ends {so co : List Outcome} {calls' : ℕ}
    (h : Answered hostname filename site locals stats result r own body) (hcalls : 2 ≤ calls)
    (hcalls' : (responseText site r).length + 2 ≤ calls') (hso : Steady so) (hco : Steady co)
    (hserver : (requestText hostname filename).text.length + (responseText site r).length + 3 ≤
      transfers so)
    (hclient : (requestText hostname filename).text.length + (responseText site r).length +
      2 * calls' + 2 ≤ transfers co) (errno errno' : Errno) :
    ∃ sc' cc', (requestHandle calls locals site stats).run.run
        ⟨(requestText hostname filename).text, [], so, errno, []⟩ = .ok (.returns result, sc') ∧
      (client calls' buf hostname filename).run.run ⟨responseText site r, [], co, errno', []⟩ =
        .ok (some (printResponse r own body), cc') ∧
      sc'.outgoing = responseText site r ∧ cc'.outgoing = (requestText hostname filename).text := by
  have htalk := h.talk_server hcalls
  obtain ⟨reads, hreads, htalk'⟩ := h.talk_client hcalls' buf
  have hs : (⟨(requestText hostname filename).text, [], so, errno, []⟩ : Conn).stream =
    (requestText hostname filename).text := rfl
  have hc : (⟨responseText site r, [], co, errno', []⟩ : Conn).stream = responseText site r := rfl
  have hends := (requestHandle calls locals site stats).run_ends
    (c := ⟨(requestText hostname filename).text, [], so, errno, []⟩) hso (by rw [hs, htalk]; exact hserver)
  have hends' := (client calls' buf hostname filename).run_ends
    (c := ⟨responseText site r, [], co, errno', []⟩) hco (by
      rw [hc, htalk']
      show (responseText site r).length + (requestText hostname filename).text.length + reads ≤
        transfers co
      omega)
  rw [hs, htalk] at hends
  rw [hc, htalk'] at hends'
  obtain ⟨_, sc', hrun, rfl, hsent⟩ := hends
  obtain ⟨_, cc', hrun', rfl, hasked⟩ := hends'
  exact ⟨sc', cc', hrun, hrun', hsent.outgoing, hasked.outgoing⟩

/-- **The exchange**: a server and a client that read what the other one writes.  However the
system calls on both sides come out, if both return then the server has answered what the client
has asked, and the client has printed all of the answer.  And both return if no call fails for
another reason than an interruption and there are enough transfers, of a byte at least. -/
theorem client_prints_response {calls' : ℕ}
    (h : Answered hostname filename site locals stats result r own body) (hcalls : 2 ≤ calls)
    (hcalls' : (responseText site r).length + 2 ≤ calls') (buf : Buffer) :
    (∀ sc sc' cc cc' handled out,
      (requestHandle calls locals site stats).run.run sc = .ok (handled, sc') →
      (client calls' buf hostname filename).run.run cc = .ok (out, cc') →
      sc.outgoing = [] → cc.outgoing = [] → sc.stream = cc'.outgoing → cc.stream = sc'.outgoing →
        handled = .returns result ∧ out = some (printResponse r own body)) ∧
    ∀ so co errno errno', Steady so → Steady co →
      (requestText hostname filename).text.length + (responseText site r).length + 3 ≤
        transfers so →
      (requestText hostname filename).text.length + (responseText site r).length + 2 * calls' + 2 ≤
        transfers co →
      ∃ sc' cc', (requestHandle calls locals site stats).run.run
          ⟨(requestText hostname filename).text, [], so, errno, []⟩ = .ok (.returns result, sc') ∧
        (client calls' buf hostname filename).run.run ⟨responseText site r, [], co, errno', []⟩ =
          .ok (some (printResponse r own body), cc') ∧
        sc'.outgoing = responseText site r ∧
          cc'.outgoing = (requestText hostname filename).text := by
  constructor
  · intro sc sc' cc cc' handled out hserver hclient hsc hcc hreq hresp
    exact h.prints hcalls hcalls' hserver hclient hsc hcc hreq hresp
  · intro so co errno errno' hso hco hserver hclient
    exact h.ends hcalls hcalls' hso hco hserver hclient errno errno'

/-- A site with one small page and a program. -/
def smallSite : Site where
  files := ⟨fun _ => some ⟨true, true, true, 3⟩, fun _ => true, fun _ _ => true⟩
  content := fun _ => "hi\n".toList
  output := fun _ _ => outputText "1.00"

def smallLocals : Locals := ⟨fun _ => nul, fun _ => nul, ⟨[], [], []⟩, []⟩

def smallStats : Statistics := ⟨⟨10, 5⟩, ⟨0, 7⟩, 1, 3, 2, 1⟩

/-- The response to a request for the page. -/
def smallPage : Response where
  answer := .static "./public/a.txt".toList 3
  status := "HTTP/1.0 200 OK"
  fields := [("Server", "OS-HW3 Web Server"), ("Content-Length", "3"), ("Content-Type", "text/plain"),
    ("Stat-Req-Arrival", "10.000005"), ("Stat-Req-Dispatch", "0.000007"), ("Stat-Thread-Id", "1"),
    ("Stat-Thread-Count", "4"), ("Stat-Thread-Static", "3"), ("Stat-Thread-Dynamic", "1")]

theorem asks_small {filename : Text}
    (h : filename ≠ [] ∧ (filename.all fun c => !isspace c) = true ∧ nul ∉ filename ∧
      (requestText "host".toList filename).Fits) : Asks "host".toList filename :=
  ⟨h.1, word_of_all h.2.1, h.2.2.1, by decide, h.2.2.2⟩

theorem small_answered : Answered "host".toList "a.txt".toList smallSite smallLocals smallStats 1
    smallPage [] "hi\n".toList where
  asks := asks_small (by decide +kernel)
  statsFit := by decide
  answer := by decide +kernel
  fits := by decide +kernel
  header := nofun
  page := by decide +kernel

/-- The client asks for the page. -/
theorem client_prints_page :
    ∃ sc' cc', (requestHandle 2 smallLocals smallSite smallStats).run.run
        ⟨(requestText "host".toList "a.txt".toList).text, [], List.replicate 400 (.upTo 3), .other, []⟩ =
          .ok (.returns 1, sc') ∧
      (client 400 (fun _ => nul) "host".toList "a.txt".toList).run.run
        ⟨sc'.outgoing, [], List.replicate 2000 (.upTo 1), .other, []⟩ =
          .ok (some (printResponse smallPage [] "hi\n".toList), cc') := by
  obtain ⟨-, hends⟩ := client_prints_response small_answered (show 2 ≤ 2 by decide)
    (show (responseText smallSite smallPage).length + 2 ≤ 400 by decide +kernel) fun _ => nul
  have hsteady (n k : ℕ) (hk : 0 < k) : Steady (List.replicate n (.upTo k)) := fun a ha =>
    .inr ⟨k, hk, List.eq_of_mem_replicate ha⟩
  obtain ⟨sc', cc', hserver, hclient, hsent, -⟩ := hends (List.replicate 400 (.upTo 3))
    (List.replicate 2000 (.upTo 1)) .other .other (hsteady _ _ (by decide))
    (hsteady _ _ (by decide)) (by decide +kernel) (by decide +kernel)
  exact ⟨sc', cc', hserver, hsent ▸ hclient⟩

/-! ### The page of a program -/

/-- The header lines of `outputText`. -/
def outputHeader (seconds : String) : List Text :=
  [("Content-length: " ++ toString (outputContent seconds).length).toList ++ crlf,
    "Content-type: text/html".toList ++ crlf]

theorem outputText_eq (seconds : String) : outputText seconds =
    (outputHeader seconds).flatten ++ (crlf ++ (outputContent seconds).toList) := by
  have hend : "Content-type: text/html\r\n\r\n".toList = "Content-type: text/html".toList ++ crlf ++ crlf := by
    decide
  have hcrlf : "\r\n".toList = crlf := rfl
  rw [outputText, hend, String.toList_append, hcrlf, outputHeader]
  generalize outputContent seconds = content
  generalize "Content-type: text/html".toList = a
  simp only [List.flatten_cons, List.flatten_nil, List.append_assoc, List.append_nil]

theorem outputContent_length {seconds : String} (h : seconds.length ≤ 1000) :
    (outputContent seconds).length < 2000 := by
  have happend (a b c d : String) : (a ++ b ++ (c ++ seconds ++ d)).length =
      a.length + b.length + (c.length + seconds.length + d.length) := by
    simp only [String.length_append]
  have h₁ : "<p>Welcome to the CGI program</p>\r\n".length ≤ 100 := by decide
  have h₂ : "<p>My only purpose is to waste time on the server!</p>\r\n".length ≤ 100 := by decide
  have h₃ : "<p>I spun for ".length ≤ 100 := by decide
  have h₄ : " seconds</p>\r\n".length ≤ 100 := by decide
  show (_ ++ _ ++ (_ ++ seconds ++ _) : String).length < 2000
  rw [happend]
  omega

theorem outputHeader_ok {seconds : String} (h : seconds.length ≤ 1000) :
    ∀ l ∈ outputHeader seconds, HeaderLine l := by
  have hname : Plain 23 "Content-type: text/html" := ⟨by decide, by decide, by decide⟩
  have hlength : Plain 16 "Content-length: " := ⟨by decide, by decide, by decide⟩
  have hnum : Plain 21 (toString (outputContent seconds).length) := by
    have := outputContent_length h
    generalize (outputContent seconds).length = n at *
    exact plain_int (n := n) (by rw [Int.natAbs_natCast]; omega)
  rw [outputHeader, List.forall_mem_cons, List.forall_mem_singleton]
  refine ⟨(hlength.append hnum).headerLine (by decide) fun hnil => ?_,
    hname.headerLine (by decide) (by decide)⟩
  rw [← String.toList_eq_nil_iff, String.toList_append, List.append_eq_nil_iff] at hnil
  exact absurd hnil.1 (by decide)

/-- The client does not take the field for the one that it looks for: the names of fields are
compared letter by letter. -/
theorem printLines_outputHeader (seconds : String) :
    printLines (outputHeader seconds) = (outputHeader seconds).flatMap (headerMark ++ ·) := by
  have hnone (s : Text) : printLength ("Content-length: ".toList ++ s) = [] ∧
      printLength ("Content-type: text/html".toList ++ s) = [] := by
    constructor
    · rw [printLength, scanLength, not_isPrefixOf_append (by decide) (by decide),
        if_neg Bool.false_ne_true]
    · rw [printLength, scanLength, not_isPrefixOf_append (by decide) (by decide),
        if_neg Bool.false_ne_true]
  refine List.flatMap_congr fun l hl => ?_
  rw [outputHeader, List.mem_cons, List.mem_singleton] at hl
  obtain rfl | rfl := hl
  · rw [String.toList_append, List.append_assoc, List.append_assoc, (hnone _).1, List.nil_append]
  · rw [(hnone _).2, List.nil_append]

/-- The header of the server does not announce the length of what a program writes. -/
theorem lengthText_dynamic {files : Files} {name args args' : Text}
    (h : Responds files stats name args r) (hdynamic : r.answer = .dynamic t args') :
    ∀ f ∈ r.fields, lengthText f = [] := by
  have hstat : ∀ name ∈ statNames, name ≠ "Content-Length" := by decide
  cases h with
  | error h => cases hdynamic
  | static h =>
      unfold requestServeStatic at h
      split at h
      · cases h
        cases hdynamic
      · cases h
  | dynamic =>
      intro f hf
      obtain rfl | hf := List.mem_cons.mp hf
      · rfl
      · exact if_neg (hstat _ (bufStats_mem_names hf))

/-- **The CGI program**: its page is a message with the header of the server, and it announces the
number of bytes of its body; but the client does not see the announcement. -/
theorem cgi_page_printed {seconds : String} {args : Text} (hseconds : Plain 1000 seconds)
    (hask : Asks hostname filename) (hstats : StatsFit stats)
    (hanswer : WebServer.requestHandle (getRequest filename) site.files locals.cgiargs stats =
      some (result, r))
    (hfits : ∀ b ∈ handleStrings (requestLine filename ++ ['\n']) locals.line site.files
      locals.cgiargs stats, b.Fits)
    (hdynamic : r.answer = .dynamic t args) (hprogram : site.output t args = outputText seconds)
    (hcalls : (responseText site r).length + 2 ≤ calls) (buf : Buffer) :
    let printed := headerMark ++ statusLine r ++
      (r.fields.flatMap fun f => headerMark ++ fieldText f) ++
        (outputHeader seconds).flatMap (headerMark ++ ·) ++ (outputContent seconds).toList
    Answered hostname filename site locals stats result r (outputHeader seconds)
        (outputContent seconds).toList ∧
      printResponse r (outputHeader seconds) (outputContent seconds).toList = printed ∧
      ∃ reads ≤ 2 * calls + 2, (client calls buf hostname filename).talk (responseText site r) =
        ⟨some printed, [], (requestText hostname filename).text, reads⟩ := by
  intro printed
  have hlen : seconds.length ≤ 1000 := by
    rw [← String.length_toList]
    exact hseconds.length_le
  have hnul : nul ∉ (outputContent seconds).toList := by
    have happend (a b c d : String) : nul ∉ a.toList → nul ∉ b.toList → nul ∉ c.toList →
        nul ∉ d.toList → nul ∉ (a ++ b ++ (c ++ seconds ++ d)).toList := by
      intro ha hb hc hd
      simp only [String.toList_append, List.mem_append, ha, hb, hc, hd, hseconds.nul_not_mem,
        or_self, not_false_eq_true]
    exact happend _ _ _ _ (by decide) (by decide) (by decide) (by decide)
  have hanswered : Answered hostname filename site locals stats result r (outputHeader seconds)
      (outputContent seconds).toList := by
    refine ⟨hask, hstats, hanswer, hfits, outputHeader_ok hlen, ?_⟩
    rw [hdynamic]
    show site.output t args = _
    rw [hprogram, outputText_eq]
  have hprint : printResponse r (outputHeader seconds) (outputContent seconds).toList = printed := by
    have hfields := lengthText_dynamic (requestHandle_responds (getRequest_get filename) hanswer)
      hdynamic
    have hflat : (r.fields.flatMap fun f => lengthText f ++ headerMark ++ fieldText f) =
        r.fields.flatMap fun f => headerMark ++ fieldText f :=
      List.flatMap_congr fun f hf => by rw [hfields f hf, List.nil_append]
    rw [printResponse, printLines_outputHeader, printText_eq_self hnul, hflat]
  refine ⟨hanswered, hprint, ?_⟩
  rw [← hprint]
  exact hanswered.talk_client hcalls buf

/-- The response to a request for a program. -/
def spinPage : Response := requestServeDynamic "./public/spin.cgi".toList "1".toList smallStats

/-- A program that has spun for a second. -/
theorem cgi_page_printed_spin :
    ∃ reads ≤ 2 * 1000 + 2, (client 1000 (fun _ => nul) "host".toList "spin.cgi?1".toList).talk
        (responseText smallSite spinPage) =
      ⟨some (headerMark ++ statusLine spinPage ++
          (spinPage.fields.flatMap fun f => headerMark ++ fieldText f) ++
          (outputHeader "1.00").flatMap (headerMark ++ ·) ++ (outputContent "1.00").toList), [],
        (requestText "host".toList "spin.cgi?1".toList).text, reads⟩ := by
  have hdynamic : spinPage.answer = .dynamic "./public/spin.cgi".toList "1".toList := rfl
  have hanswer : WebServer.requestHandle (getRequest "spin.cgi?1".toList) smallSite.files
      smallLocals.cgiargs smallStats = some (0, spinPage) := by decide +kernel
  exact (cgi_page_printed ⟨by decide, by decide, by decide⟩ (asks_small (by decide +kernel))
    (by decide) hanswer (by decide +kernel) hdynamic rfl (by decide +kernel) _).2.2

end OsProjects.WebServer.Exchange
