import OsProjects.WebServer.Request

/-! # Files served

Which files `requestHandle` serves whole.  The size of the file is an `off_t`; it goes through the
`int` parameter of `requestServeStatic` into the header, into the length of the mapping, which is a
`size_t`, and into the length of what is written. -/

namespace OsProjects.WebServer

/-- The bytes that the server writes behind the header: the page of an error, the mapped bytes of a
file, and none itself where a program answers. -/
def Response.body (r : Response) (content : Text → List UInt8) : List UInt8 :=
  match r.answer with
  | .error errnum shortmsg longmsg cause =>
      (errorBody cause errnum shortmsg longmsg).toList.map fun c => UInt8.ofNat c.toNat
  | .static filename filesize => (content filename).take filesize.toNat
  | .dynamic .. => []

/-- A regular file with read permission for its owner.  `mmap` has a mapping of it for every length
between one byte and its size, the length being what the `int` is as a `size_t`.  The size is an
`off_t` and says how many bytes the file has; whether the server may open it is not said. -/
structure Readable (files : Files) (content : Text → List UInt8) (filename : Text)
    (sbuf : FileStat) : Prop where
  stat : files.stat filename = some sbuf
  isReg : sbuf.isReg = true
  ownerRead : sbuf.ownerRead = true
  maps : ∀ n : ℤ, files.maps filename n = true ↔ 1 ≤ n % 2 ^ 64 ∧ n % 2 ^ 64 ≤ sbuf.size
  nonneg : 0 ≤ sbuf.size
  off : sbuf.size < 2 ^ 63
  content : (content filename).length = sbuf.size

/-- The server goes on, the request counts as static, and all of the file is sent behind a header
with its size. -/
def ServedWhole (line : RequestLine) (files : Files) (cgiargs : Text) (stats : Statistics)
    (content : Text → List UInt8) (filename : Text) (size : ℤ) : Prop :=
  ∃ r, requestHandle line files cgiargs stats = some (resultStatic, r) ∧
    r.field "Content-Length" = some (toString size) ∧
    r.body content = content filename

variable {line : RequestLine} {files : Files} {cgiargs args filename : Text} {stats : Statistics}
  {content : Text → List UInt8} {sbuf : FileStat}

/-- A readable file is answered by `requestServeStatic`. -/
theorem requestHandle_readable (hget : strcaseeq line.method "GET".toList = true)
    (huri : requestParseURI line.uri cgiargs = (resultStatic, filename, args))
    (hfile : Readable files content filename sbuf) :
    requestHandle line files cgiargs stats =
      (requestServeStatic files filename (toInt sbuf.size) stats).map fun r => (resultStatic, r) := by
  rw [requestHandle, if_neg (not_not.mpr hget), huri]
  simp [hfile.stat, hfile.isReg, hfile.ownerRead, resultStatic]

/-- **Which files are served whole**: those that the server may open, not empty and smaller than
2 GiB. -/
theorem requestHandle_servedWhole (hget : strcaseeq line.method "GET".toList = true)
    (huri : requestParseURI line.uri cgiargs = (resultStatic, filename, args))
    (hfile : Readable files content filename sbuf) :
    ServedWhole line files cgiargs stats content filename sbuf.size ↔
      files.opens filename = true ∧ 1 ≤ sbuf.size ∧ sbuf.size < 2 ^ 31 := by
  rw [ServedWhole, requestHandle_readable hget huri hfile]
  have hlen := hfile.content
  constructor
  · rintro ⟨r, hr, -, hbody⟩
    obtain ⟨r', hserve, he⟩ := Option.map_eq_some_iff.mp hr
    cases he
    unfold requestServeStatic at hserve
    split at hserve
    next hmap =>
      cases hserve
      rw [Bool.and_eq_true, hfile.maps] at hmap
      obtain ⟨hopens, hmap, -⟩ := hmap
      -- all bytes are sent only if the `int` is not smaller than the size
      have hle : (content filename).length ≤ (toInt sbuf.size).toNat := by
        rw [← hbody]
        exact List.length_take_le _ _
      have hlt := (toInt_bounds sbuf.size).2
      refine ⟨hopens, ?_, by omega⟩
      by_contra hempty
      have hzero : sbuf.size = 0 := by
        have := hfile.nonneg
        omega
      rw [hzero] at hmap
      exact absurd hmap (by decide)
    next => cases hserve
  · rintro ⟨hopens, hpos, hlt⟩
    have hint : toInt sbuf.size = sbuf.size := toInt_of_lt hfile.nonneg hlt
    have hmap : files.maps filename sbuf.size = true := by
      apply (hfile.maps _).mpr
      omega
    rw [requestServeStatic, hint, if_pos (by rw [hopens, hmap]; decide)]
    refine ⟨_, rfl, ?_, ?_⟩
    · simp [Response.field, List.lookup_cons]
    · apply List.take_of_length_le
      omega

/-- Every name is a readable file of so many bytes. -/
def sameFiles (size : ℤ) : Files where
  stat _ := some { isReg := true, ownerRead := true, ownerExec := false, size := size }
  opens _ := true
  maps _ n := decide (1 ≤ n % 2 ^ 64 ∧ n % 2 ^ 64 ≤ size)

def zeros (size : ℤ) (_ : Text) : List UInt8 := List.replicate size.toNat 0

theorem sameFiles_readable {size : ℤ} (h₀ : 0 ≤ size) (h : size < 2 ^ 63) (filename : Text) :
    Readable (sameFiles size) (zeros size) filename
      { isReg := true, ownerRead := true, ownerExec := false, size := size } where
  stat := rfl
  isReg := rfl
  ownerRead := rfl
  maps _ := decide_eq_true_iff
  nonneg := h₀
  off := h
  content := by simp [zeros, h₀]

def getNote : RequestLine where
  method := "GET".toList
  uri := "note.txt".toList
  version := "HTTP/1.0".toList

def noStatistics : Statistics where
  arrivalTime := ⟨0, 0⟩
  dispatchInterval := ⟨0, 0⟩
  threadId := 0
  requestsCount := 0
  staticRequestsCount := 0
  dynamicRequestsCount := 0

theorem requestHandle_servedWhole_note :
    ServedWhole getNote (sameFiles 3) [] noStatistics (zeros 3) "./public/note.txt".toList 3 :=
  have huri : requestParseURI getNote.uri [] = (resultStatic, "./public/note.txt".toList, []) := by
    decide
  (requestHandle_servedWhole (by decide) huri
    (sameFiles_readable (by decide) (by decide) _)).mpr (by decide)

/-- The request for an empty file ends the server. -/
theorem requestHandle_empty_file :
    Readable (sameFiles 0) (zeros 0) "./public/note.txt".toList
        { isReg := true, ownerRead := true, ownerExec := false, size := 0 } ∧
      requestParseURI getNote.uri [] = (resultStatic, "./public/note.txt".toList, []) ∧
      requestHandle getNote (sameFiles 0) [] noStatistics = none ∧
      ¬ServedWhole getNote (sameFiles 0) [] noStatistics (zeros 0) "./public/note.txt".toList 0 := by
  have hnone : requestHandle getNote (sameFiles 0) [] noStatistics = none := by decide
  refine ⟨sameFiles_readable (by decide) (by decide) _, by decide, hnone, ?_⟩
  rintro ⟨r, hr, -⟩
  rw [hnone] at hr
  cases hr

end OsProjects.WebServer
