import OsProjects.WebServer.Serve
import OsProjects.WebServer.Static

/-! # The header of a response

Every response to the client is a message: all values in its header are short and plain, and the
client reads the length of the body where the server announces it
(`PlainResponse.printLength`). -/

namespace OsProjects.WebServer.Exchange

open Segel

variable {s t : Text} {site : Site} {stats : Statistics} {r : Response} {filename : Text}

/-! ### The lines of a response -/

/-- Text without a line break or a NUL, of `k` bytes at most. -/
structure Plain (k : ℕ) (s : String) : Prop where
  newline_not_mem : '\n' ∉ s.toList
  nul_not_mem : nul ∉ s.toList
  length_le : s.toList.length ≤ k

theorem Plain.append {a b : String} {j k : ℕ} (ha : Plain j a) (hb : Plain k b) :
    Plain (j + k) (a ++ b) := by
  constructor
  · rw [String.toList_append, List.mem_append]
    exact not_or_intro ha.newline_not_mem hb.newline_not_mem
  · rw [String.toList_append, List.mem_append]
    exact not_or_intro ha.nul_not_mem hb.nul_not_mem
  · rw [String.toList_append, List.length_append]
    exact Nat.add_le_add ha.length_le hb.length_le

theorem Plain.mono {a : String} {j k : ℕ} (h : Plain j a) (hjk : j ≤ k) : Plain k a :=
  ⟨h.newline_not_mem, h.nul_not_mem, Nat.le_trans h.length_le hjk⟩

/-- The text of an integer: a sign and the digits. -/
theorem toList_toString (n : ℤ) :
    (toString n).toList = (if 0 ≤ n then [] else ['-']) ++ Nat.toDigits 10 n.natAbs := by
  rw [Int.toString_eq_repr, Int.repr_eq_if]
  split
  next h =>
    rw [Nat.toList_repr, List.nil_append]
    congr 1
    omega
  next h =>
    rw [String.toList_append, Nat.toList_repr]
    congr 2
    omega

theorem plain_digits {n : ℕ} {c : Char} (hc : c ∈ Nat.toDigits 10 n) :
    c ≠ '\n' ∧ c ≠ nul := by
  have hdigit := Nat.isDigit_of_mem_toDigits (by decide) (by decide) hc
  constructor
  · rintro rfl
    exact absurd hdigit (by decide)
  · rintro rfl
    exact absurd hdigit (by decide)

theorem plain_int {n : ℤ} (h : n.natAbs < 10 ^ 20) : Plain 21 (toString n) := by
  have hlen : (Nat.toDigits 10 n.natAbs).length ≤ 20 :=
    (Nat.length_toDigits_le_iff (by decide) (by decide)).mpr h
  have hsign : ∀ c ∈ (if 0 ≤ n then [] else ['-']), c = '-' := by
    split
    · simp
    · simp
  have hsignlen : (if 0 ≤ n then [] else ['-']).length ≤ 1 := by
    split
    · exact Nat.zero_le 1
    · exact Nat.le_refl 1
  constructor <;> rw [toList_toString]
  · rw [List.mem_append]
    rintro (hmem | hmem)
    · exact absurd (hsign _ hmem) (by decide)
    · exact (plain_digits hmem).1 rfl
  · rw [List.mem_append]
    rintro (hmem | hmem)
    · exact absurd (hsign _ hmem) (by decide)
    · exact (plain_digits hmem).2 rfl
  · rw [List.length_append]
    omega

theorem plain_nat {n : ℕ} (h : n < 10 ^ 20) : Plain 20 (toString n) := by
  have hdigits : (toString n).toList = Nat.toDigits 10 n := Nat.toList_repr
  constructor <;> rw [hdigits]
  · exact fun hmem => (plain_digits hmem).1 rfl
  · exact fun hmem => (plain_digits hmem).2 rfl
  · exact (Nat.length_toDigits_le_iff (by decide) (by decide)).mpr h

theorem plain_pad6 {n : ℤ} (h : n.natAbs < 10 ^ 20) : Plain 27 (pad6 n) := by
  have hsign : Plain 1 (if n < 0 then "-" else "") := by
    split
    · exact ⟨by decide, by decide, by decide⟩
    · exact ⟨by decide, by decide, by decide⟩
  have hzeros (i j : ℕ) : Plain 6 (String.ofList (List.replicate (6 - i - j) '0')) := by
    constructor
    · simp
    · simp [nul]
    · rw [String.toList_ofList, List.length_replicate]
      omega
  exact (hsign.append (hzeros _ _)).append (plain_nat h)

theorem plain_timeval {t : Timeval} (hs : t.tvSec.natAbs < 10 ^ 20) (hu : t.tvUsec.natAbs < 10 ^ 20) :
    Plain 49 t.print := by
  have hdot : Plain 1 "." := ⟨by decide, by decide, by decide⟩
  exact ((plain_int hs).append hdot).append (plain_pad6 hu)

/-- The numbers of the statistics fit in eight bytes. -/
def StatsFit (stats : Statistics) : Prop :=
  ∀ v ∈ [stats.arrivalTime.tvSec, stats.arrivalTime.tvUsec, stats.dispatchInterval.tvSec,
    stats.dispatchInterval.tvUsec, stats.threadId, stats.requestsCount, stats.staticRequestsCount,
    stats.dynamicRequestsCount], v.natAbs < 2 ^ 63

instance (stats : Statistics) : Decidable (StatsFit stats) :=
  inferInstanceAs (Decidable (∀ v ∈ _, _))

theorem plain_bufStats (h : StatsFit stats) (v : ℤ) : ∀ f ∈ bufStats stats v, Plain 49 f.2 := by
  have hbound : (2 : ℕ) ^ 63 < 10 ^ 20 := by decide
  simp only [StatsFit, List.forall_mem_cons, List.not_mem_nil, false_imp_iff, implies_true,
    and_true] at h
  obtain ⟨h₁, h₂, h₃, h₄, h₅, -⟩ := h
  have hcounter (n : ℤ) : Plain 49 (toString (toInt n)) := by
    obtain ⟨hle, hlt⟩ := toInt_bounds n
    exact (plain_int (by omega)).mono (by decide)
  simp only [bufStats, List.forall_mem_cons, List.not_mem_nil, false_imp_iff, implies_true,
    and_true]
  exact ⟨plain_timeval (by omega) (by omega), plain_timeval (by omega) (by omega),
    (plain_int (by omega)).mono (by decide), hcounter _, hcounter _, hcounter _⟩

/-- A response whose lines can be sent. -/
structure PlainResponse (r : Response) : Prop where
  status : r.status ≠ "" ∧ Plain 49 r.status
  names : ∀ f ∈ r.fields, f.1 ∈ otherNames ++ statNames
  values : ∀ f ∈ r.fields, Plain 49 f.2
  length : ∀ f ∈ r.fields, f.1 = "Content-Length" → ∃ n : ℤ, f.2 = toString n ∧ toInt n = n

theorem bufStats_mem_names {f : String × String} {v : ℤ} (hf : f ∈ bufStats stats v) :
    f.1 ∈ statNames := bufStats_names stats v ▸ List.mem_map_of_mem hf

/-- The statistics are the last fields of every response. -/
theorem plainResponse {l : List (String × String)} {v : ℤ} (hr : r.fields = l ++ bufStats stats v)
    (hstats : StatsFit stats) (hne : r.status ≠ "") (hstatus : Plain 49 r.status)
    (hnames : ∀ f ∈ l, f.1 ∈ otherNames) (hvalues : ∀ f ∈ l, Plain 49 f.2)
    (hlength : ∀ f ∈ l, f.1 = "Content-Length" → ∃ n : ℤ, f.2 = toString n ∧ toInt n = n) :
    PlainResponse r where
  status := ⟨hne, hstatus⟩
  names f hf := by
    rw [hr] at hf
    exact List.mem_append.mpr ((List.mem_append.mp hf).imp (hnames f) bufStats_mem_names)
  values f hf := by
    rw [hr] at hf
    exact (List.mem_append.mp hf).elim (hvalues f) (plain_bufStats hstats v f)
  length f hf := by
    rw [hr] at hf
    refine (List.mem_append.mp hf).elim (hlength f) fun hf heq => ?_
    have hstat : ∀ name ∈ statNames, name ≠ "Content-Length" := by decide
    exact absurd heq (hstat _ (bufStats_mem_names hf))

theorem plain_error {errnum shortmsg longmsg : String} (h : (errnum, shortmsg, longmsg) ∈ getErrors)
    (hstats : StatsFit stats)
    (hbody : (errorBody filename errnum shortmsg longmsg).length < maxbuf) :
    PlainResponse (requestError filename errnum shortmsg longmsg stats) := by
  have hall : ∀ e ∈ getErrors, let status := "HTTP/1.0 " ++ e.1 ++ " " ++ e.2.1
      status ≠ "" ∧ '\n' ∉ status.toList ∧ nul ∉ status.toList ∧ status.toList.length ≤ 49 := by
    decide +kernel
  obtain ⟨hne, h₁, h₂, h₃⟩ := hall _ h
  generalize hn : (errorBody filename errnum shortmsg longmsg).length = n at hbody
  have hsize : maxbuf = 8192 := rfl
  have hint : toInt n = n := toInt_of_lt (by omega) (by omega)
  have htype : Plain 49 "text/html" := ⟨by decide, by decide, by decide⟩
  have hnum : Plain 21 (toString (n : ℤ)) := plain_int (by
    rw [Int.natAbs_natCast]
    omega)
  have hfields : (requestError filename errnum shortmsg longmsg stats).fields =
      [("Content-Type", "text/html"), ("Content-Length", toString (n : ℤ))] ++
        bufStats stats (-1) := by rw [← hn]; rfl
  refine plainResponse hfields hstats hne ⟨h₁, h₂, h₃⟩ (by simp [otherNames]) ?_ ?_
  · simp only [List.forall_mem_cons, List.not_mem_nil, false_imp_iff, implies_true, and_true]
    exact ⟨htype, hnum.mono (by decide)⟩
  · simp only [List.forall_mem_cons, List.not_mem_nil, false_imp_iff, implies_true, and_true]
    exact ⟨fun he => absurd he (by decide), fun _ => ⟨n, rfl, hint⟩⟩

theorem plain_static {size : ℤ} (hstats : StatsFit stats)
    (h : requestServeStatic site.files filename (toInt size) stats = some r) : PlainResponse r := by
  obtain ⟨h₁, h₂⟩ := toInt_bounds size
  have hne : "HTTP/1.0 200 OK" ≠ "" := by decide
  have hok : Plain 49 "HTTP/1.0 200 OK" := ⟨by decide, by decide, by decide⟩
  have hserver : Plain 49 "OS-HW3 Web Server" := ⟨by decide, by decide, by decide⟩
  have hnum : Plain 21 (toString (toInt size)) := plain_int (by omega)
  have htype : Plain 49 (requestGetFiletype filename) := by
    unfold requestGetFiletype
    split_ifs <;> exact ⟨by decide, by decide, by decide⟩
  unfold requestServeStatic at h
  split at h
  · cases h
    refine plainResponse (v := 1) (l := [("Server", "OS-HW3 Web Server"),
      ("Content-Length", toString (toInt size)), ("Content-Type", requestGetFiletype filename)])
      rfl hstats hne hok (by simp [otherNames]) ?_ ?_
    · simp only [List.forall_mem_cons, List.not_mem_nil, false_imp_iff, implies_true, and_true]
      exact ⟨hserver, hnum.mono (by decide), htype⟩
    · simp only [List.forall_mem_cons, List.not_mem_nil, false_imp_iff, implies_true, and_true]
      exact ⟨fun he => absurd he (by decide), fun _ => ⟨toInt size, rfl, toInt_toInt size⟩,
        fun he => absurd he (by decide)⟩
  · cases h

theorem plain_dynamic (hstats : StatsFit stats) (filename cgiargs : Text) :
    PlainResponse (requestServeDynamic filename cgiargs stats) := by
  have hne : "HTTP/1.0 200 OK" ≠ "" := by decide
  have hok : Plain 49 "HTTP/1.0 200 OK" := ⟨by decide, by decide, by decide⟩
  have hserver : Plain 49 "OS-HW3 Web Server" := ⟨by decide, by decide, by decide⟩
  refine plainResponse (v := 0) (l := [("Server", "OS-HW3 Web Server")]) rfl hstats hne hok
    (by simp [otherNames]) ?_ ?_
  · simpa only [List.forall_mem_singleton] using hserver
  · simp only [List.forall_mem_singleton]
    exact fun he => absurd he (by decide)

/-- A line of printed text. -/
theorem Plain.headerLine {k : ℕ} {s : String} (h : Plain k s) (hk : k + 2 < maxbuf) (hne : s ≠ "") :
    HeaderLine (s.toList ++ crlf) := by
  have hcrlf : crlf = ['\r', '\n'] := by decide
  have hlen := h.length_le
  constructor
  · refine ⟨s.toList ++ ['\r'], by rw [hcrlf, List.append_assoc]; rfl, ?_⟩
    rw [List.mem_append]
    exact not_or_intro h.newline_not_mem (by decide)
  · rw [List.mem_append]
    exact not_or_intro h.nul_not_mem (by decide)
  · intro heq
    have hnil := congrArg List.length heq
    rw [List.length_append] at hnil
    exact hne (String.toList_eq_nil_iff.mp (List.eq_nil_of_length_eq_zero (by omega)))
  · rw [List.length_append, hcrlf]
    show _ + 2 < _
    omega

theorem fieldText_eq (f : String × String) : ∃ sep, (sep = ": " ∨ sep = ":: ") ∧
    fieldText f = (f.1 ++ sep ++ f.2).toList ++ crlf := by
  have happend (sep : String) : fieldLine sep f = (f.1 ++ sep ++ f.2).toList ++ crlf := by
    rw [fieldLine, String.toList_append]
    rfl
  unfold fieldText
  split
  · exact ⟨_, .inr rfl, happend _⟩
  · exact ⟨_, .inl rfl, happend _⟩

theorem PlainResponse.header (h : PlainResponse r) :
    ∀ l ∈ statusLine r :: r.fields.map fieldText, HeaderLine l := by
  have hnames : ∀ name ∈ otherNames ++ statNames,
      '\n' ∉ name.toList ∧ nul ∉ name.toList ∧ name.toList.length ≤ 19 ∧ name ≠ "" := by
    decide +kernel
  rw [List.forall_mem_cons, List.forall_mem_map]
  refine ⟨h.status.2.headerLine (by decide) h.status.1, fun f hf => ?_⟩
  obtain ⟨h₁, h₂, h₃, h₄⟩ := hnames _ (h.names f hf)
  have hname : Plain 19 f.1 := ⟨h₁, h₂, h₃⟩
  obtain ⟨sep, hsep, he⟩ := fieldText_eq f
  have hplain : Plain 3 sep := by
    obtain rfl | rfl := hsep <;> exact ⟨by decide, by decide, by decide⟩
  rw [he]
  refine ((hname.append hplain).append (h.values f hf)).headerLine (by decide) fun hnil => h₄ ?_
  rw [← String.toList_eq_nil_iff, String.toList_append, String.toList_append, List.append_assoc,
    List.append_eq_nil_iff] at hnil
  exact String.toList_eq_nil_iff.mp hnil.1

/-! ### The announced length -/

/-- What the client says about a field. -/
def lengthText (f : String × String) : Text :=
  if f.1 = "Content-Length" then ("Length = " ++ f.2 ++ "\n").toList else []

/-- What `%d` makes of a number in front of a line end. -/
theorem scanInt_digits {negative : Bool} {digits : Text} {v : ℤ} (hne : digits ≠ [])
    (hdigits : ∀ d ∈ digits, d.isDigit = true)
    (hsign : splitSign (s.dropWhile isspace) = (negative, digits ++ crlf))
    (hv : v = if negative then -(Nat.ofDigitChars 10 digits 0 : ℤ) else Nat.ofDigitChars 10 digits 0)
    (hint : toInt v = v) : scanInt s = some v := by
  have htake : (digits ++ crlf).takeWhile Char.isDigit = digits := by
    have hcrlf : crlf = ['\r', '\n'] := by decide
    rw [List.takeWhile_append_of_pos hdigits, hcrlf, List.takeWhile_cons_of_neg (by decide),
      List.append_nil]
  have hbounds := toInt_bounds v
  rw [hint] at hbounds
  have hclamp : max (-2 ^ 63) (min (2 ^ 63 - 1) v) = v := by omega
  unfold scanInt
  simp only [hsign, htake]
  rw [if_neg hne, ← hv, hclamp, hint]

theorem digit_cases {c : Char} (h : c.isDigit = true) : isspace c = false ∧ c ≠ '-' ∧ c ≠ '+' := by
  refine ⟨?_, ?_, ?_⟩
  · by_contra hspace
    rw [Bool.not_eq_false] at hspace
    have hall : [' ', '\t', '\n', Char.ofNat 11, Char.ofNat 12, '\r'].all (!·.isDigit) = true := by
      decide
    have hdigit := List.all_eq_true.mp hall c (List.contains_iff_mem.mp hspace)
    rw [h] at hdigit
    cases hdigit
  · rintro rfl
    exact absurd h (by decide)
  · rintro rfl
    exact absurd h (by decide)

theorem splitSign_digit {c : Char} (h : c.isDigit = true) (s : Text) :
    splitSign (c :: s) = (false, c :: s) := by
  obtain ⟨-, h₁, h₂⟩ := digit_cases h
  unfold splitSign
  split
  next heq => exact absurd (List.cons.inj heq).1 h₁
  next heq => exact absurd (List.cons.inj heq).1 h₂
  next => rfl

/-- `sscanf` reads back what `sprintf` has written. -/
theorem scanInt_toString {n : ℤ} (hn : toInt n = n) :
    scanInt (' ' :: ((toString n).toList ++ crlf)) = some n := by
  have hdigits : ∀ d ∈ Nat.toDigits 10 n.natAbs, d.isDigit = true := fun d hd =>
    Nat.isDigit_of_mem_toDigits (by decide) (by decide) hd
  have hval : Nat.ofDigitChars 10 (Nat.toDigits 10 n.natAbs) 0 = n.natAbs :=
    Nat.ofDigitChars_ten_toDigits
  have hne : Nat.toDigits 10 n.natAbs ≠ [] := Nat.toDigits_ne_nil
  rw [toList_toString]
  split
  next h =>
    refine scanInt_digits hne hdigits (?_ : splitSign _ = (false, _)) ?_ hn
    · obtain ⟨c, ds, hds⟩ := List.exists_cons_of_ne_nil hne
      have hc := hdigits c (hds ▸ List.mem_cons_self)
      rw [List.dropWhile_cons_of_pos (by decide), hds, List.nil_append, List.cons_append,
        List.dropWhile_cons_of_neg (by simp [(digit_cases hc).1]), splitSign_digit hc]
    · rw [hval, if_neg Bool.false_ne_true]
      omega
  next h =>
    refine scanInt_digits hne hdigits (rfl : splitSign _ = (true, _)) ?_ hn
    rw [hval, if_pos rfl]
    omega

/-- Two texts that differ do not begin alike. -/
theorem not_isPrefixOf_append {a b : Text} (h₁ : ¬a <+: b) (h₂ : ¬b <+: a) (t : Text) :
    a.isPrefixOf (b ++ t) = false := by
  rw [Bool.eq_false_iff, ne_eq, List.isPrefixOf_iff_prefix]
  exact fun h => (List.prefix_or_prefix_of_prefix h (List.prefix_append b t)).elim h₁ h₂

/-- The client finds the length of the body where it is announced, and nowhere else. -/
theorem PlainResponse.printLength (h : PlainResponse r) {f : String × String} (hf : f ∈ r.fields) :
    printLength (fieldText f) = lengthText f := by
  obtain ⟨name, value⟩ := f
  by_cases hname : name = "Content-Length"
  · subst hname
    obtain ⟨n, rfl, hn⟩ := h.length _ hf rfl
    have htext : fieldText ("Content-Length", toString n) =
        "Content-Length:".toList ++ (' ' :: ((toString n).toList ++ crlf)) := by
      rw [fieldText_contentLength, String.toList_append, String.toList_append, List.append_assoc]
      rfl
    have hdrop : (fieldText ("Content-Length", toString n)).drop 15 =
        ' ' :: ((toString n).toList ++ crlf) := by
      rw [htext]
      exact List.drop_left' (by decide)
    have hscan : scanLength (fieldText ("Content-Length", toString n)) = some n := by
      rw [scanLength, hdrop, scanInt_toString hn, if_pos]
      rw [htext, List.isPrefixOf_iff_prefix]
      exact List.prefix_append _ _
    rw [Exchange.printLength, hscan, lengthText, if_pos rfl, String.toList_append,
      String.toList_append]
    rfl
  · have hnames : ∀ name ∈ otherNames ++ statNames, name ≠ "Content-Length" →
        ¬"Content-Length:".toList <+: name.toList ∧ ¬name.toList <+: "Content-Length:".toList := by
      decide +kernel
    obtain ⟨h₁, h₂⟩ := hnames name (h.names _ hf) hname
    obtain ⟨sep, -, htext⟩ := fieldText_eq (name, value)
    have hscan : scanLength (fieldText (name, value)) = none := by
      rw [scanLength, htext, String.toList_append, String.toList_append, List.append_assoc,
        List.append_assoc, not_isPrefixOf_append h₁ h₂, if_neg Bool.false_ne_true]
    rw [Exchange.printLength, hscan, lengthText, if_neg hname]

/-- What the client prints of a response: the lines of its header, the length where it is
announced, and the body, of which each line ends at its first NUL. -/
def printResponse (r : Response) (own : List Text) (body : Text) : Text :=
  headerMark ++ statusLine r ++
    (r.fields.flatMap fun f => lengthText f ++ headerMark ++ fieldText f) ++
      printLines own ++ printText body

/-- A response as a message; a program that is run writes some header lines of its `own`. -/
def PlainResponse.message (h : PlainResponse r) (own : List Text) (body : Text)
    (hown : ∀ l ∈ own, HeaderLine l) : Message where
  first := statusLine r
  others := r.fields.map fieldText ++ own
  body := body
  header := by
    rw [← List.cons_append]
    exact List.forall_mem_append.mpr ⟨h.header, hown⟩

theorem PlainResponse.message_text (h : PlainResponse r) {own : List Text} {body : Text}
    (hown : ∀ l ∈ own, HeaderLine l) (hpage : page site r.answer = own.flatten ++ (crlf ++ body)) :
    (h.message own body hown).text = responseText site r := by
  show statusLine r ++ ((r.fields.map fieldText ++ own).flatten ++ (crlf ++ body)) = _
  rw [responseText, hpage, List.flatten_append, List.append_assoc, List.flatMap_def]

theorem PlainResponse.message_print (h : PlainResponse r) {own : List Text} {body : Text}
    (hown : ∀ l ∈ own, HeaderLine l) :
    (h.message own body hown).print = printResponse r own body := by
  have hlines : printLines (r.fields.map fieldText) =
      r.fields.flatMap fun f => lengthText f ++ headerMark ++ fieldText f := by
    rw [printLines, List.flatMap_map]
    exact List.flatMap_congr fun f hf =>
      congrArg (· ++ headerMark ++ fieldText f) (h.printLength hf)
  have hsplit : printLines (r.fields.map fieldText ++ own) =
      printLines (r.fields.map fieldText) ++ printLines own := List.flatMap_append
  show headerMark ++ statusLine r ++ printLines (r.fields.map fieldText ++ own) ++
    printText body = _
  rw [hsplit, hlines, printResponse]
  simp only [List.append_assoc]

end OsProjects.WebServer.Exchange
