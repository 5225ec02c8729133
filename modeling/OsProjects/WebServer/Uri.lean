import Mathlib.Data.List.Chain
import Mathlib.Data.List.Infix
import Mathlib.Data.List.TakeWhile
import OsProjects.WebServer.Request

/-! # File names of requests

The file name that `requestParseURI` builds stays under `./public/`: the test for `".."` is made on
the `uri`, and neither the directory in front of it, nor the cut at the first `?`, nor the page
behind it lets two dots meet. -/

namespace OsProjects.WebServer

variable {s t uri cgiargs : Text} {c : Char}

/-! ### Substrings -/

theorem strstr_iff {s pat : Text} : strstr s pat = true ↔ pat <:+: s := by
  rw [strstr, List.any_eq_true]
  constructor
  · rintro ⟨t, ht, hp⟩
    exact (List.isPrefixOf_iff_prefix.mp hp).isInfix.trans ((List.mem_tails _ _).mp ht).isInfix
  · intro h
    obtain ⟨t, hp, hs⟩ := List.infix_iff_prefix_suffix.mp h
    exact ⟨t, (List.mem_tails _ _).mpr hs, List.isPrefixOf_iff_prefix.mpr hp⟩

/-- The character `c` does not stand twice in a row. -/
def Single (c : Char) (s : Text) : Prop := s.IsChain fun a b => ¬(a = c ∧ b = c)

theorem not_infix_iff : ¬[c, c] <:+: s ↔ Single c s := by
  rw [Single, List.isChain_iff_forall_rel_of_append_cons_cons]
  constructor
  · rintro h a b l₁ l₂ rfl ⟨rfl, rfl⟩
    exact h ⟨l₁, l₂, by simp⟩
  · rintro h ⟨l₁, l₂, rfl⟩
    exact @h c c l₁ l₂ (by simp) ⟨rfl, rfl⟩

theorem Single.append (hs : Single c s) (ht : Single c t)
    (hst : s.getLast? ≠ some c ∨ t.head? ≠ some c) : Single c (s ++ t) := by
  refine List.isChain_append.mpr ⟨hs, ht, fun a ha b hb => ?_⟩
  rintro ⟨rfl, rfl⟩
  exact hst.elim (fun h => h ha) fun h => h hb

theorem Single.part (hs : Single c s) (h : t <:+: s) : Single c t := List.IsChain.infix hs h

/-! ### The file name -/

/-- The name starts with the public directory and has no `".."` in it. -/
structure Public (filename : Text) : Prop where
  under : "./public/".toList <+: filename
  noParent : ¬"..".toList <:+: filename

theorem publicDir_eq : "./public/".toList = ['.', '/', 'p', 'u', 'b', 'l', 'i', 'c', '/'] := by
  decide

theorem home_eq : "home.html".toList = ['h', 'o', 'm', 'e', '.', 'h', 't', 'm', 'l'] := by decide

theorem public_of_single (hs : Single '.' s) : Public ("./public/".toList ++ s) := by
  have hdir : Single '.' "./public/".toList := by
    rw [publicDir_eq]
    exact not_infix_iff.mp (by decide)
  have hdots : "..".toList = ['.', '.'] := by decide
  refine ⟨List.prefix_append _ _, ?_⟩
  rw [hdots]
  exact not_infix_iff.mpr (hdir.append hs (.inl (by rw [publicDir_eq]; decide)))

theorem home_single : Single '.' "home.html".toList := by
  rw [home_eq]
  exact not_infix_iff.mp (by decide)

/-- What is in front of the first `?` and what is behind it. -/
theorem takeWhile_query (uri : Text) : uri = uri.takeWhile (· ≠ '?') ++
    if '?' ∈ uri then '?' :: (uri.dropWhile (· ≠ '?')).tail else [] := by
  refine (List.takeWhile_append_dropWhile (p := (· ≠ '?')) (l := uri)).symm.trans ?_
  congr 1
  split
  next h =>
    have hne : uri.dropWhile (· ≠ '?') ≠ [] := by
      intro h₀
      have := List.dropWhile_eq_nil_iff.mp h₀ '?' h
      simp at this
    have hhead : (uri.dropWhile (· ≠ '?')).head hne = '?' := by
      have := List.head_dropWhile_not (· ≠ '?') hne
      simpa using this
    calc uri.dropWhile (· ≠ '?')
        = (uri.dropWhile (· ≠ '?')).head hne :: (uri.dropWhile (· ≠ '?')).tail :=
          (List.cons_head_tail hne).symm
      _ = '?' :: (uri.dropWhile (· ≠ '?')).tail := by rw [hhead]
  next h =>
    refine List.dropWhile_eq_nil_iff.mpr fun d hd => decide_eq_true ?_
    rintro rfl
    exact h hd

theorem not_mem_takeWhile (uri : Text) : '?' ∉ uri.takeWhile (· ≠ '?') := fun h => by
  have := List.mem_takeWhile_imp h
  simp at this

/-- Which requests are for a program. -/
theorem requestParseURI_dynamic_iff (uri cgiargs : Text) :
    (requestParseURI uri cgiargs).1 = resultDynamic ↔
      "cgi".toList <:+: uri ∧ ¬"..".toList <:+: uri := by
  rw [← strstr_iff, ← strstr_iff]
  unfold requestParseURI
  split
  next hup => exact iff_of_false one_ne_zero fun h => h.2 hup
  next hup =>
    split
    next hcgi => exact iff_of_false one_ne_zero fun h => hcgi h.1
    next hcgi =>
      have hdynamic : strstr uri "cgi".toList = true ∧ ¬strstr uri "..".toList = true :=
        ⟨not_not.mp hcgi, hup⟩
      split
      · exact iff_of_true rfl hdynamic
      · exact iff_of_true rfl hdynamic

theorem requestParseURI_filename (uri cgiargs : Text) :
    Public (requestParseURI uri cgiargs).2.1 := by
  unfold requestParseURI
  split
  · have hname : "./public/home.html".toList = "./public/".toList ++ "home.html".toList := by decide
    simp only
    rw [hname]
    exact public_of_single home_single
  next hup =>
    have huri : Single '.' uri := not_infix_iff.mp fun h => hup (strstr_iff.mpr h)
    split
    · simp only
      split
      next hslash =>
        rw [List.append_assoc]
        refine public_of_single (huri.append home_single (.inl ?_))
        rw [hslash]
        decide
      next => exact public_of_single huri
    · split
      · exact public_of_single (huri.part (List.takeWhile_prefix _).isInfix)
      · exact public_of_single huri

/-- The program and its arguments are the two parts of the `uri`. -/
theorem requestParseURI_split {uri : Text} (cgiargs : Text) (hcgi : "cgi".toList <:+: uri)
    (hup : ¬"..".toList <:+: uri) : ∃ path,
      (requestParseURI uri cgiargs).2.1 = "./public/".toList ++ path ∧ '?' ∉ path ∧
      uri = path ++ if '?' ∈ uri then '?' :: (requestParseURI uri cgiargs).2.2 else [] := by
  rw [← strstr_iff] at hcgi hup
  rw [requestParseURI, if_neg hup, if_neg (not_not.mpr hcgi)]
  split
  next hq =>
    refine ⟨_, rfl, not_mem_takeWhile uri, ?_⟩
    have := takeWhile_query uri
    rwa [if_pos hq] at this
  next hq => exact ⟨uri, rfl, hq, (List.append_nil uri).symm⟩

/-- **A request stays in the public directory**; it is for a program exactly if `"cgi"` is in the
`uri` and `".."` is not, and the program gets what is behind the first `?`. -/
theorem requestParseURI_public (uri cgiargs : Text) :
    Public (requestParseURI uri cgiargs).2.1 ∧
      ((requestParseURI uri cgiargs).1 = resultDynamic ↔
        "cgi".toList <:+: uri ∧ ¬"..".toList <:+: uri) ∧
      ("cgi".toList <:+: uri → ¬"..".toList <:+: uri → ∃ path,
        (requestParseURI uri cgiargs).2.1 = "./public/".toList ++ path ∧ '?' ∉ path ∧
        uri = path ++ if '?' ∈ uri then '?' :: (requestParseURI uri cgiargs).2.2 else []) :=
  ⟨requestParseURI_filename uri cgiargs, requestParseURI_dynamic_iff uri cgiargs,
    requestParseURI_split cgiargs⟩

end OsProjects.WebServer
