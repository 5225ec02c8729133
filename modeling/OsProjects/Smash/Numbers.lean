import Mathlib.Data.Nat.Digits.Defs
import OsProjects.Smash.CommandLine
import OsProjects.Smash.Shell

/-! # Numeric arguments

`_strToInt`, which is `std::stoi` without its exceptions, and the arguments of `fg`, `bg` and
`kill`.  A job id is what `stoi` reads of a word: it skips whitespace, takes a sign and all digits
that follow, and does not look at what is behind them. -/

namespace OsProjects.Smash.CommandLine

/-! ### `std::stoi` -/

/-- What `std::stoi` throws. -/
inductive StoiError where
  | invalidArgument
  | outOfRange
deriving DecidableEq, Repr

/-- The values of an `int`. -/
def InRange (n : ℤ) : Prop := -2 ^ 31 ≤ n ∧ n < 2 ^ 31

instance : DecidablePred InRange := fun _ => inferInstanceAs (Decidable (_ ∧ _))

/-- A minus sign was there, and what is behind the sign. -/
def splitSign : Text → Bool × Text
  | '-' :: s => (true, s)
  | '+' :: s => (false, s)
  | s => (false, s)

/-- The digits from the left, as they are read. -/
def readDigits (digits : Text) : ℕ := digits.foldl (fun n c => 10 * n + (c.toNat - '0'.toNat)) 0

def stoi (str : Text) : Except StoiError ℤ :=
  let (negative, s) := splitSign (str.dropWhile isSpace)
  let digits := s.takeWhile Char.isDigit
  if digits.isEmpty then .error .invalidArgument
  else
    let n : ℤ := if negative then -readDigits digits else readDigits digits
    if InRange n then .ok n else .error .outOfRange

/-- `_strToInt`: the result, if it returns true. -/
def strToInt (str : Text) : Option ℤ :=
  match stoi str with
  | .ok result => some result
  | .error _ => none

/-! ### Arguments of the commands -/

def invalidArguments : String := "invalid arguments"

/-- What `ForegroundCommand::execute` is to do, or its error. -/
def foregroundExecute (args : List Text) : Except String Smash.Command :=
  match args with
  | [_, jobId] =>
    match strToInt jobId with
    | some jobId => .ok (.fg (some jobId))
    | none => .error invalidArguments
  | [_] => .ok (.fg none)
  | _ => .error invalidArguments

def backgroundExecute (args : List Text) : Except String Smash.Command :=
  match args with
  | [_, jobId] =>
    match strToInt jobId with
    | some jobId => .ok (.bg (some jobId))
    | none => .error invalidArguments
  | [_] => .ok (.bg none)
  | _ => .error invalidArguments

def killExecute (args : List Text) : Except String Smash.Command :=
  match args with
  | [_, signal, jobId] =>
    if signal.head? = some '-' then
      match strToInt signal.tail, strToInt jobId with
      | some signal, some jobId => .ok (.kill jobId signal)
      | _, _ => .error invalidArguments
    else .error invalidArguments
  | _ => .error invalidArguments

/-! ### Integers -/

/-- The value of decimal digits. -/
def decimal (digits : Text) : ℕ :=
  Nat.ofDigits 10 (digits.reverse.map fun c => c.toNat - '0'.toNat)

/-- `s` is a decimal integer with or without a sign, and `v` is its value and fits an `int`. -/
structure IsInteger (s : Text) (v : ℤ) : Prop where
  parts : ∃ sign digits, s = sign ++ digits ∧ digits ≠ [] ∧ (∀ c ∈ digits, c.isDigit = true) ∧
    (sign = [] ∧ v = decimal digits ∨ sign = ['+'] ∧ v = decimal digits ∨
      sign = ['-'] ∧ v = -decimal digits)
  inRange : InRange v

variable {s t digits rest : Text} {c : Char} {v : ℤ}

theorem readDigits_eq (digits : Text) : readDigits digits = decimal digits := by
  rw [readDigits, decimal, Nat.ofDigits_eq_foldr, List.foldr_map, List.foldr_reverse]
  congr 1
  funext n c
  simp [Nat.add_comm]

theorem isDigit_ne_sign (h : c.isDigit = true) : c ≠ '-' ∧ c ≠ '+' := by
  constructor
  · rintro rfl
    exact absurd h (by decide)
  · rintro rfl
    exact absurd h (by decide)

theorem splitSign_of_digit (h : c.isDigit = true) : splitSign (c :: s) = (false, c :: s) := by
  obtain ⟨h₁, h₂⟩ := isDigit_ne_sign h
  unfold splitSign
  split
  · simp_all
  · simp_all
  · rfl

/-- What is behind the sign, for every string. -/
theorem splitSign_cases (s : Text) :
    (splitSign s).1 = true ∧ s = ['-'] ++ (splitSign s).2 ∨
      (splitSign s).1 = false ∧ (s = ['+'] ++ (splitSign s).2 ∨ s = [] ++ (splitSign s).2) := by
  unfold splitSign
  split
  · exact .inl ⟨rfl, rfl⟩
  · exact .inr ⟨rfl, .inl rfl⟩
  · exact .inr ⟨rfl, .inr rfl⟩

/-- `stoi` on a word, with the sign and the digits that it finds. -/
theorem strToInt_eq_some_iff (hword : ∀ c ∈ s, isSpace c = false) :
    strToInt s = some v ↔ (splitSign s).2.takeWhile Char.isDigit ≠ [] ∧
      v = (if (splitSign s).1 then -decimal ((splitSign s).2.takeWhile Char.isDigit)
        else decimal ((splitSign s).2.takeWhile Char.isDigit) : ℤ) ∧ InRange v := by
  have hskip : s.dropWhile isSpace = s := by
    cases s with
    | nil => rfl
    | cons c s => rw [List.dropWhile_cons_of_neg (by simp [hword c])]
  unfold strToInt stoi
  simp only [hskip, readDigits_eq, List.isEmpty_iff]
  split_ifs with hnil hneg hr hr <;> simp [hnil] <;> grind

/-- **What is accepted**: a number, whatever follows its last digit. -/
theorem strToInt_eq_some (hword : ∀ c ∈ s, isSpace c = false) :
    strToInt s = some v ↔
      ∃ n rest, s = n ++ rest ∧ IsInteger n v ∧ ∀ c ∈ rest.head?, c.isDigit = false := by
  rw [strToInt_eq_some_iff hword]
  constructor
  · rintro ⟨hnil, hv, hr⟩
    generalize ht : (splitSign s).2 = t at hnil hv
    have hrest : ∀ c ∈ (t.dropWhile Char.isDigit).head?, c.isDigit = false := by
      intro c hc
      have := List.head?_dropWhile_not Char.isDigit t
      rw [Option.mem_def.mp hc] at this
      simpa using this
    have hdigits : ∀ c ∈ t.takeWhile Char.isDigit, c.isDigit = true :=
      fun c hc => List.mem_takeWhile_imp hc
    have hsplit : ∀ sign : Text, sign ++ t =
        (sign ++ t.takeWhile Char.isDigit) ++ t.dropWhile Char.isDigit := fun sign => by
      rw [List.append_assoc, List.takeWhile_append_dropWhile]
    obtain ⟨hneg, hs⟩ | ⟨hneg, hs | hs⟩ := splitSign_cases s
    · rw [ht] at hs
      rw [hneg, if_pos rfl] at hv
      exact ⟨_, _, hs.trans (hsplit _), ⟨⟨_, _, rfl, hnil, hdigits, .inr (.inr ⟨rfl, hv⟩)⟩, hr⟩, hrest⟩
    · rw [ht] at hs
      rw [hneg, if_neg Bool.false_ne_true] at hv
      exact ⟨_, _, hs.trans (hsplit _), ⟨⟨_, _, rfl, hnil, hdigits, .inr (.inl ⟨rfl, hv⟩)⟩, hr⟩, hrest⟩
    · rw [ht] at hs
      rw [hneg, if_neg Bool.false_ne_true] at hv
      exact ⟨_, _, hs.trans (hsplit _), ⟨⟨_, _, rfl, hnil, hdigits, .inl ⟨rfl, hv⟩⟩, hr⟩, hrest⟩
  · rintro ⟨n, rest, rfl, ⟨⟨sign, digits, rfl, hnil, hdigits, hsign⟩, hr⟩, hrest⟩
    have hstop : rest.takeWhile Char.isDigit = [] := by
      cases rest with
      | nil => rfl
      | cons c rest => rw [List.takeWhile_cons_of_neg (by simp [hrest c rfl])]
    have htake : (digits ++ rest).takeWhile Char.isDigit = digits := by
      rw [List.takeWhile_append_of_pos hdigits, hstop, List.append_nil]
    rw [List.append_assoc]
    obtain ⟨rfl, rfl⟩ | ⟨rfl, rfl⟩ | ⟨rfl, rfl⟩ := hsign
    · obtain ⟨c, digits, rfl⟩ := List.exists_cons_of_ne_nil hnil
      have hc := splitSign_of_digit (s := digits ++ rest) (hdigits c List.mem_cons_self)
      rw [List.nil_append, List.cons_append, hc, ← List.cons_append, htake]
      exact ⟨hnil, rfl, hr⟩
    · rw [List.singleton_append, splitSign, htake]
      exact ⟨hnil, rfl, hr⟩
    · rw [List.singleton_append, splitSign, htake]
      exact ⟨hnil, rfl, hr⟩

/-- Behind its first character an integer has digits only. -/
theorem IsInteger.tail_isDigit (h : IsInteger s v) : ∀ c ∈ s.tail, c.isDigit = true := by
  obtain ⟨⟨sign, digits, rfl, -, hdigits, hsign⟩, -⟩ := h
  intro c hc
  obtain ⟨rfl, -⟩ | ⟨rfl, -⟩ | ⟨rfl, -⟩ := hsign
  · exact hdigits c (List.mem_of_mem_tail hc)
  · exact hdigits c hc
  · exact hdigits c hc

theorem IsInteger.ne_nil (h : IsInteger s v) : s ≠ [] := by
  obtain ⟨⟨sign, digits, rfl, hnil, -⟩, -⟩ := h
  simp [hnil]

/-- A word is taken for the number that it is, and refused by the commands if it is none. -/
structure ReadsNumber (s : Text) : Prop where
  iff : ∀ v, strToInt s = some v ↔ IsInteger s v
  fg : (∀ v, ¬IsInteger s v) → ∀ name, foregroundExecute [name, s] = .error invalidArguments
  bg : (∀ v, ¬IsInteger s v) → ∀ name, backgroundExecute [name, s] = .error invalidArguments
  killJob : (∀ v, ¬IsInteger s v) → ∀ name signal,
    killExecute [name, signal, s] = .error invalidArguments
  killSignal : (∀ v, ¬IsInteger s v) → ∀ name jobId,
    killExecute [name, '-' :: s, jobId] = .error invalidArguments

theorem readsNumber_of_iff (h : ∀ v, strToInt s = some v ↔ IsInteger s v) : ReadsNumber s := by
  have hnone : (∀ v, ¬IsInteger s v) → strToInt s = none := by
    intro hno
    apply Option.eq_none_iff_forall_ne_some.mpr
    intro v hv
    exact hno v ((h v).mp hv)
  refine ⟨h, ?_, ?_, ?_, ?_⟩
  · intro hno name
    rw [foregroundExecute, hnone hno]
  · intro hno name
    rw [backgroundExecute, hnone hno]
  · intro hno name signal
    rw [killExecute, hnone hno]
    split
    · cases strToInt signal.tail <;> rfl
    · rfl
  · intro hno name jobId
    rw [killExecute, List.tail_cons, hnone hno]
    simp

/-- **When a numeric argument is read right**: unless it goes on behind a number. -/
theorem strToInt_readsNumber (hword : ∀ c ∈ s, isSpace c = false) :
    ReadsNumber s ↔
      ¬∃ n c rest v, s = n ++ c :: rest ∧ IsInteger n v ∧ c.isDigit = false := by
  constructor
  · rintro h ⟨n, c, rest, v, hs, hn, hc⟩
    have hsome : strToInt s = some v :=
      (strToInt_eq_some hword).mpr ⟨n, c :: rest, hs, hn, by simpa using hc⟩
    have hdigits := ((h.iff v).mp hsome).tail_isDigit
    rw [hs, List.tail_append_of_ne_nil hn.ne_nil] at hdigits
    rw [hdigits c (by simp)] at hc
    cases hc
  · intro h
    apply readsNumber_of_iff
    intro v
    rw [strToInt_eq_some hword]
    constructor
    · rintro ⟨n, rest, hs, hn, hrest⟩
      cases rest with
      | nil => rwa [hs, List.append_nil]
      | cons c rest => exact absurd ⟨n, c, rest, v, hs, hn, hrest c rfl⟩ h
    · intro hv
      exact ⟨s, [], (List.append_nil s).symm, hv, by simp⟩

theorem strToInt_readsNumber_kill : ReadsNumber "-12".toList ↔
    ¬∃ n c rest v, "-12".toList = n ++ c :: rest ∧ IsInteger n v ∧ c.isDigit = false :=
  strToInt_readsNumber (by simp [isSpace, WHITESPACE])

/-- `fg 12abc` continues job 12, and `kill -9x 1` sends signal 9. -/
theorem strToInt_accepts_prefixes :
    strToInt "12abc".toList = some 12 ∧ (∀ v, ¬IsInteger "12abc".toList v) ∧
      foregroundExecute ["fg".toList, "12abc".toList] = .ok (.fg (some 12)) ∧
      killExecute ["kill".toList, "-9x".toList, "1".toList] = .ok (.kill 1 9) := by
  refine ⟨by decide, fun v h => ?_, by decide, by decide⟩
  exact absurd (h.tail_isDigit 'a' (by decide)) (by decide)

end OsProjects.Smash.CommandLine
