import Mathlib.Algebra.Group.Nat.Defs
import Mathlib.Data.Int.Notation
import Mathlib.Data.List.Basic
import Mathlib.Tactic.Common
import OsProjects.Lib.SizeT

/-! # Handling one request

`requestHandle` of `request.c` with everything it calls.  What it reads is a parameter: the
words of the request line and the file system.  What it writes to the connection is a
`Response`: which of the three functions wrote it, and the header lines in order.  `none`
stands for an exit of the process (`unix_error` of the wrappers in `segel.c`).

The counters of a thread are `int`s, and an addition wraps (`toInt`) where C leaves it undefined.
`requestHandle_predicted` says that the header carries the counters as they are once the returned
code has been counted. -/

namespace OsProjects.WebServer

/-- A NUL-terminated string. -/
abbrev Text := List Char

/-- An `int`: the conversion of an `off_t`, and the result of an addition. -/
def toInt (x : ℤ) : ℤ := x.bmod (2 ^ 32)

/-- `timeval_t` -/
structure Timeval where
  tvSec : ℤ
  tvUsec : ℤ
deriving DecidableEq, Repr

/-- `statistics_t` -/
structure Statistics where
  arrivalTime : Timeval
  dispatchInterval : Timeval
  threadId : ℤ
  requestsCount : ℤ
  staticRequestsCount : ℤ
  dynamicRequestsCount : ℤ
deriving DecidableEq, Repr

/-! ### `enum request_result` -/

def err501 : ℤ := -501
def err404 : ℤ := -404
def err403 : ℤ := -403

/-- `DYNAMIC` -/
def resultDynamic : ℤ := 0

/-- `STATIC` -/
def resultStatic : ℤ := 1

/-! ### What is read and written -/

/-- The buffers `method`, `uri` and `version` after `sscanf`. -/
structure RequestLine where
  method : Text
  uri : Text
  version : Text
deriving DecidableEq, Repr

/-- What `stat` says about a file. -/
structure FileStat where
  isReg : Bool
  ownerRead : Bool
  ownerExec : Bool
  size : ℤ
deriving DecidableEq, Repr

/-- The file system: `stat`, and whether `Open` and `Mmap` of so many bytes succeed. -/
structure Files where
  stat : Text → Option FileStat
  opens : Text → Bool
  maps : Text → ℤ → Bool

/-- What a response answers, with the strings that go into its body. -/
inductive Answer where
  | error (errnum shortmsg longmsg : String) (cause : Text)
  | static (filename : Text) (filesize : ℤ)
  | dynamic (filename cgiargs : Text)
deriving DecidableEq, Repr

/-- A response: its answer, the status line and the header fields in the order in which they
are written. -/
structure Response where
  answer : Answer
  status : String
  fields : List (String × String)
deriving DecidableEq, Repr

/-- The value of a header field. -/
def Response.field (r : Response) (name : String) : Option String := r.fields.lookup name

/-! ### Statistics -/

/-- `%06ld`; the zeros stand behind the sign. -/
def pad6 (n : ℤ) : String :=
  let sign := if n < 0 then "-" else ""
  let digits := toString n.natAbs
  sign ++ String.ofList (List.replicate (6 - sign.length - digits.length) '0') ++ digits

/-- `%ld.%06ld` -/
def Timeval.print (t : Timeval) : String := toString t.tvSec ++ "." ++ pad6 t.tvUsec

def bufStats (stats : Statistics) (isStatic : ℤ) : List (String × String) :=
  [("Stat-Req-Arrival", stats.arrivalTime.print),
    ("Stat-Req-Dispatch", stats.dispatchInterval.print),
    ("Stat-Thread-Id", toString stats.threadId),
    ("Stat-Thread-Count", toString (toInt (stats.requestsCount + 1))),
    ("Stat-Thread-Static",
      toString (toInt (stats.staticRequestsCount + if isStatic = 1 then 1 else 0))),
    ("Stat-Thread-Dynamic",
      toString (toInt (stats.dynamicRequestsCount + if isStatic = 0 then 1 else 0)))]

/-! ### Responses -/

/-- The body of an error message. -/
def errorBody (cause : Text) (errnum shortmsg longmsg : String) : String :=
  "<html><title>OS-HW3 Error</title>" ++ "<body bgcolor=" ++ "fffff" ++ ">\r\n" ++
    errnum ++ ": " ++ shortmsg ++ "\r\n" ++ "<p>" ++ longmsg ++ ": " ++ String.ofList cause ++ "\r\n" ++
    "<hr>OS-HW3 Web Server\r\n"

def requestError (cause : Text) (errnum shortmsg longmsg : String) (stats : Statistics) :
    Response where
  answer := .error errnum shortmsg longmsg cause
  status := "HTTP/1.0 " ++ errnum ++ " " ++ shortmsg
  fields := [("Content-Type", "text/html"),
    ("Content-Length", toString (errorBody cause errnum shortmsg longmsg).length)] ++
      bufStats stats (-1)

/-- `strstr(s, pat) != NULL` -/
def strstr (s pat : Text) : Bool := s.tails.any fun t => pat.isPrefixOf t

/-- `is_static`, `filename` and `cgiargs` for a `uri`; with `".."` in it, `cgiargs` keeps what
it held. -/
def requestParseURI (uri cgiargs : Text) : ℤ × Text × Text :=
  if strstr uri "..".toList then (1, "./public/home.html".toList, cgiargs)
  else if ¬strstr uri "cgi".toList then
    let filename := "./public/".toList ++ uri
    (1, if uri.getLast? = some '/' then filename ++ "home.html".toList else filename, [])
  else if '?' ∈ uri then
    (0, "./public/".toList ++ uri.takeWhile (· ≠ '?'), (uri.dropWhile (· ≠ '?')).tail)
  else (0, "./public/".toList ++ uri, [])

def requestGetFiletype (filename : Text) : String :=
  if strstr filename ".html".toList then "text/html"
  else if strstr filename ".gif".toList then "image/gif"
  else if strstr filename ".jpg".toList then "image/jpeg"
  else "text/plain"

def requestServeDynamic (filename cgiargs : Text) (stats : Statistics) : Response where
  answer := .dynamic filename cgiargs
  status := "HTTP/1.0 200 OK"
  fields := ("Server", "OS-HW3 Web Server") :: bufStats stats 0

/-- The file is opened and mapped before anything is written. -/
def requestServeStatic (files : Files) (filename : Text) (filesize : ℤ) (stats : Statistics) :
    Option Response :=
  if files.opens filename && files.maps filename filesize then
    some
      { answer := .static filename filesize
        status := "HTTP/1.0 200 OK"
        fields := [("Server", "OS-HW3 Web Server"), ("Content-Length", toString filesize),
          ("Content-Type", requestGetFiletype filename)] ++ bufStats stats 1 }
  else none

/-- `strcasecmp(s, t) == 0` -/
def strcaseeq (s t : Text) : Bool := s.map Char.toLower == t.map Char.toLower

/-- The result and the response; `cgiargs` is what the buffer of that name holds before. -/
def requestHandle (line : RequestLine) (files : Files) (cgiargs : Text) (stats : Statistics) :
    Option (ℤ × Response) :=
  if ¬strcaseeq line.method "GET".toList then
    some (err501, requestError line.method "501" "Not Implemented"
      "OS-HW3 Server does not implement this method" stats)
  else
    let (isStatic, filename, cgiargs) := requestParseURI line.uri cgiargs
    match files.stat filename with
    | none => some (err404, requestError filename "404" "Not found"
        "OS-HW3 Server could not find this file" stats)
    | some sbuf =>
      if isStatic ≠ 0 then
        if ¬sbuf.isReg ∨ ¬sbuf.ownerRead then
          some (err403, requestError filename "403" "Forbidden"
            "OS-HW3 Server could not read this file" stats)
        else
          (requestServeStatic files filename (toInt sbuf.size) stats).map fun r => (isStatic, r)
      else if ¬sbuf.isReg ∨ ¬sbuf.ownerExec then
        some (err403, requestError filename "403" "Forbidden"
          "OS-HW3 Server could not run this CGI program" stats)
      else some (isStatic, requestServeDynamic filename cgiargs stats)

/-! ### Values of an `int` -/

theorem toInt_of_lt {n : ℤ} (h₀ : 0 ≤ n) (h : n < 2 ^ 31) : toInt n = n :=
  bmod_of_int (by omega) h

theorem toInt_toInt (n : ℤ) : toInt (toInt n) = toInt n := Int.bmod_bmod

/-- Counting on from a wrapped value. -/
theorem toInt_toInt_add (m n : ℤ) : toInt (toInt m + n) = toInt (m + n) := Int.bmod_add_bmod

theorem toInt_bounds (n : ℤ) : -2 ^ 31 ≤ toInt n ∧ toInt n < 2 ^ 31 := by
  have hle := Int.le_bmod (x := n) (m := 2 ^ 32) (by decide)
  have hlt := Int.bmod_lt (x := n) (m := 2 ^ 32) (by decide)
  unfold toInt
  omega

/-! ### The prediction in the header and the returned code -/

/-- The request was answered with the content of a file. -/
def Answer.isStatic : Answer → Bool
  | static .. => true
  | _ => false

/-- The request was answered by a program. -/
def Answer.isDynamic : Answer → Bool
  | dynamic .. => true
  | _ => false

/-- The response carries these values of the three counters of the thread. -/
structure Response.Carries (r : Response) (count static dynamic : ℤ) : Prop where
  count : r.field "Stat-Thread-Count" = some (toString count)
  static : r.field "Stat-Thread-Static" = some (toString static)
  dynamic : r.field "Stat-Thread-Dynamic" = some (toString dynamic)

/-- The header of the response predicts how the returned code will be counted. -/
structure Predicted (stats : Statistics) (result : ℤ) (r : Response) : Prop where
  static : result = resultStatic ↔ r.answer.isStatic = true
  dynamic : result = resultDynamic ↔ r.answer.isDynamic = true
  carries : r.Carries (toInt (stats.requestsCount + 1))
    (toInt (stats.staticRequestsCount + if r.answer.isStatic then 1 else 0))
    (toInt (stats.dynamicRequestsCount + if r.answer.isDynamic then 1 else 0))

end OsProjects.WebServer
