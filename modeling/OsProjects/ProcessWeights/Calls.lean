import OsProjects.ProcessWeights.HeaviestAncestor
import OsProjects.ProcessWeights.LeafSum

/-! # Calls from user space

The wrappers of `hw2_test.cxx` reach the kernel through `syscall` and the numbers of
`syscall_64.tbl`.  Tasks call them in any order.  Whatever has been called, each call answers from
the family of the tasks, which no call changes, and from the weight that each task has set last
(`calls_answer`). -/

namespace OsProjects.ProcessWeights

variable {tasks tasks' tasks'' : Tasks} {current t : ℕ}

/-! ### The calls -/

def sysHello : ℤ := 0

def sysGetWeight (tasks : Tasks) (current : ℕ) : ℤ := (tasks current).weight.toInt

/-- The new system calls. -/
inductive SysCall where
  | hello
  | setWeight
  | getWeight
  | getLeafChildrenSum
  | getHeaviestAncestor
deriving DecidableEq, Repr

/-- `syscall_64.tbl`, the entries behind those of the kernel. -/
def syscall64 : ℕ → Option SysCall
  | 333 => some .hello
  | 334 => some .setWeight
  | 335 => some .getWeight
  | 336 => some .getLeafChildrenSum
  | 337 => some .getHeaviestAncestor
  | _ => none

/-- What the kernel returns to `current`; `weight` is the argument, for the call that has one. -/
def SysCall.run (tasks : Tasks) (steps current : ℕ) (weight : Int32) : SysCall → Option (ℤ × Tasks)
  | hello => some (sysHello, tasks)
  | setWeight => some (sysSetWeight tasks current weight)
  | getWeight => some (sysGetWeight tasks current, tasks)
  | getLeafChildrenSum => (sysGetLeafChildrenSum tasks steps current).map fun r => (r, tasks)
  | getHeaviestAncestor => (sysGetHeaviestAncestor tasks steps current).map fun r => (r, tasks)

/-- What a caller gets: the value of the wrapper, and `errno` if it has been set. -/
structure Answer where
  value : ℤ
  errno : Option ℤ
deriving DecidableEq, Repr

/-- `syscall` of the C library, and the conversion of its result to `int`. -/
def answer (r : ℤ) : Answer :=
  if -4095 ≤ r ∧ r < 0 then ⟨-1, some (-r)⟩ else ⟨r.bmod (2 ^ 32), none⟩

/-- The wrappers of `hw2_test.cxx`. -/
inductive Call where
  | setWeight (weight : Int32)
  | getWeight
  | getLeafChildrenSum
  | getHeaviestAncestor
deriving DecidableEq, Repr

/-- The number that a wrapper passes. -/
def Call.number : Call → ℕ
  | setWeight _ => 334
  | getWeight => 335
  | getLeafChildrenSum => 336
  | getHeaviestAncestor => 337

/-- The argument that a wrapper passes. -/
def Call.weight : Call → Int32
  | setWeight weight => weight
  | _ => 0

/-- A wrapper called by `current`. -/
def Call.run (tasks : Tasks) (steps current : ℕ) (c : Call) : Option (Answer × Tasks) := do
  let sys ← syscall64 c.number
  let (r, tasks') ← sys.run tasks steps current c.weight
  some (answer r, tasks')

/-- The call returns, whenever the recursion and the loop may be long enough. -/
def Returns (tasks : Tasks) (current : ℕ) (c : Call) (a : Answer) (tasks' : Tasks) : Prop :=
  ∃ n, ∀ steps ≥ n, c.run tasks steps current = some (a, tasks')

/-- The calls `cs` have been made, one after the other, by the tasks named. -/
inductive History (tasks : Tasks) : List (ℕ × Call) → Tasks → Prop
  | start : History tasks [] tasks
  | call {cs : List (ℕ × Call)} {tasks' tasks'' : Tasks} {current : ℕ} {c : Call} {a : Answer} :
      History tasks cs tasks' → Returns tasks' current c a tasks'' →
      History tasks (cs ++ [(current, c)]) tasks''

/-! ### What the calls are for -/

/-- The kernel's table: the tasks are finite trees, and upwards there is always a task with
pid 0.  A pid is a `pid_t` that is not negative. -/
structure Family (tasks : Tasks) : Prop where
  tree : ∀ a, FiniteTree tasks.children a
  root : ∀ a, ∃ k, (tasks (ancestor tasks a k)).pid = 0
  pid : ∀ a, 0 ≤ (tasks a).pid ∧ (tasks a).pid < 2 ^ 31

/-- The weight that a call sets. -/
def Call.sets : Call → Option ℤ
  | setWeight weight => if weight < 0 then none else some weight.toInt
  | _ => none

/-- The weight that a call sets, if `t` has made it. -/
def setBy (t : ℕ) (c : ℕ × Call) : Option ℤ := if c.1 = t then c.2.sets else none

/-- The weight that `t` has set last, or the one that it has had from the start. -/
def lastSet (tasks : Tasks) (cs : List (ℕ × Call)) (t : ℕ) : ℤ :=
  (cs.filterMap (setBy t)).getLast?.getD (tasks t).weight.toInt

/-- The answer to a call of `current`, with the weights `w`. -/
inductive Answers (tasks : Tasks) (w : ℕ → ℤ) (current : ℕ) : Call → Answer → Prop
  | set {weight : Int32} : 0 ≤ weight → Answers tasks w current (.setWeight weight) ⟨0, none⟩
  | negative {weight : Int32} : weight < 0 →
      Answers tasks w current (.setWeight weight) ⟨-1, some EINVAL⟩
  | get : Answers tasks w current .getWeight ⟨w current, none⟩
  | childless : (tasks current).children = [] →
      Answers tasks w current .getLeafChildrenSum ⟨-1, some ECHILD⟩
  | leaves {leaves : Finset ℕ} : (tasks current).children ≠ [] →
      (∀ b, b ∈ leaves ↔ Leaf tasks.children current b) →
      Answers tasks w current .getLeafChildrenSum (answer ((∑ b ∈ leaves, w b).bmod (2 ^ 32)))
  | heaviest {k m : ℕ} : (tasks (ancestor tasks current k)).pid = 0 →
      (∀ j < k, (tasks (ancestor tasks current j)).pid ≠ 0) →
      FirstMax (fun i => w (ancestor tasks current i)) k m →
      Answers tasks w current .getHeaviestAncestor ⟨(tasks (ancestor tasks current m)).pid, none⟩

/-! ### Tables with the same family -/

theorem sysSetWeight_neg {weight : Int32} (h : weight < 0) :
    sysSetWeight tasks current weight = (-EINVAL, tasks) := if_pos h

theorem sysSetWeight_nonneg {weight : Int32} (h : ¬weight < 0) :
    sysSetWeight tasks current weight =
      (0, Function.update tasks current { tasks current with weight := weight }) := if_neg h

/-- Nothing but weights differs. -/
structure SameFamily (tasks tasks' : Tasks) : Prop where
  pid : ∀ a, (tasks' a).pid = (tasks a).pid
  parent : ∀ a, (tasks' a).parent = (tasks a).parent
  children : ∀ a, (tasks' a).children = (tasks a).children

namespace SameFamily

theorem refl (tasks : Tasks) : SameFamily tasks tasks := ⟨fun _ => rfl, fun _ => rfl, fun _ => rfl⟩

theorem trans (h : SameFamily tasks tasks') (h' : SameFamily tasks' tasks'') :
    SameFamily tasks tasks'' :=
  ⟨fun a => (h'.pid a).trans (h.pid a), fun a => (h'.parent a).trans (h.parent a),
    fun a => (h'.children a).trans (h.children a)⟩

theorem ancestor_eq (h : SameFamily tasks tasks') (current i : ℕ) :
    ancestor tasks' current i = ancestor tasks current i := by
  unfold ancestor
  rw [show (fun a => (tasks' a).parent) = fun a => (tasks a).parent from funext h.parent]

theorem children_eq (h : SameFamily tasks tasks') : tasks'.children = tasks.children :=
  funext h.children

theorem family (h : SameFamily tasks tasks') (hf : Family tasks) : Family tasks' where
  tree a := by
    rw [h.children_eq]
    exact hf.tree a
  root a := by
    obtain ⟨k, hk⟩ := hf.root a
    exact ⟨k, by rw [h.ancestor_eq, h.pid, hk]⟩
  pid a := by
    rw [h.pid]
    exact hf.pid a

/-- An answer is one from the family. -/
theorem answers (h : SameFamily tasks tasks') {w : ℕ → ℤ} {c : Call} {a : Answer}
    (ha : Answers tasks' w current c a) : Answers tasks w current c a := by
  cases ha with
  | set hw => exact .set hw
  | negative hw => exact .negative hw
  | get => exact .get
  | childless hc => exact .childless (by rw [← h.children, hc])
  | leaves hc hl =>
      rw [h.children] at hc
      rw [h.children_eq] at hl
      exact .leaves hc hl
  | heaviest hk hlt hm =>
      simp only [h.ancestor_eq, h.pid] at hk hlt hm ⊢
      exact .heaviest hk hlt hm

theorem setWeight (tasks : Tasks) (current : ℕ) (weight : Int32) :
    SameFamily tasks (sysSetWeight tasks current weight).2 := by
  by_cases hw : weight < 0
  · rw [sysSetWeight_neg hw]
    exact refl tasks
  · rw [sysSetWeight_nonneg hw]
    refine ⟨fun a => ?_, fun a => ?_, fun a => ?_⟩
    all_goals
      simp only
      by_cases ha : a = current
      · rw [ha, Function.update_self]
      · rw [Function.update_of_ne ha]

end SameFamily

/-! ### One call -/

theorem answer_of_range {r : ℤ} (h₀ : 0 ≤ r) (h : r < 2 ^ 31) : answer r = ⟨r, none⟩ := by
  unfold answer
  rw [if_neg (by omega), bmod_of_int (by omega) h]

theorem answer_error {e : ℤ} (h₀ : 0 < e) (h : e ≤ 4095) : answer (-e) = ⟨-1, some e⟩ := by
  unfold answer
  rw [if_pos (by omega), neg_neg]

/-- The first task with pid 0 above a task. -/
theorem Family.exists_first (h : Family tasks) (current : ℕ) :
    ∃ k, (tasks (ancestor tasks current k)).pid = 0 ∧
      ∀ j < k, (tasks (ancestor tasks current j)).pid ≠ 0 := by
  classical
  have hex := h.root current
  exact ⟨Nat.find hex, Nat.find_spec hex, fun j hj => Nat.find_min hex hj⟩

theorem toInt_nonneg {weight : Int32} (h : ¬weight < 0) : 0 ≤ weight.toInt := by
  have hle : (0 : Int32) ≤ weight := by simpa using h
  exact Int32.le_iff_toInt_le.mp hle

theorem Call.sets_nonneg {c : Call} : ∀ x ∈ c.sets, 0 ≤ x := by
  intro x hx
  unfold sets at hx
  split at hx
  · split at hx
    · cases hx
    next hw =>
      cases hx
      exact toInt_nonneg hw
  · cases hx

/-- The weight of `t` after a call. -/
def Call.weightAfter (tasks : Tasks) (current : ℕ) (c : Call) (t : ℕ) : ℤ :=
  (setBy t (current, c)).getD (tasks t).weight.toInt

/-- **`sys_set_weight`** sets the weight of its caller, or refuses a negative one. -/
theorem weight_sysSetWeight (tasks : Tasks) (current : ℕ) (weight : Int32) (t : ℕ) :
    ((sysSetWeight tasks current weight).2 t).weight.toInt =
      (Call.setWeight weight).weightAfter tasks current t := by
  unfold Call.weightAfter setBy Call.sets
  simp only
  by_cases hw : weight < 0
  · rw [sysSetWeight_neg hw, if_pos hw, ite_self, Option.getD_none]
  · rw [sysSetWeight_nonneg hw, if_neg hw]
    by_cases ht : current = t
    · rw [if_pos ht, Option.getD_some, ← ht]
      simp only [Function.update_self]
    · rw [if_neg ht, Option.getD_none]
      simp only [Function.update_of_ne (Ne.symm ht)]

theorem returns_leafChildrenSum {r : ℤ} (h : LeafChildrenSum tasks current r) :
    Returns tasks current .getLeafChildrenSum (answer r) tasks := by
  obtain ⟨n, hn⟩ := h
  refine ⟨n, fun steps hs => ?_⟩
  simp [Call.run, Call.number, syscall64, SysCall.run, hn steps hs]

/-- **Every call returns**, answers from the table, and changes nothing but the weight it sets. -/
theorem Family.returns (h : Family tasks) (hpos : ∀ a, 0 ≤ (tasks a).weight.toInt) (current : ℕ)
    (c : Call) : ∃ a tasks', Returns tasks current c a tasks' ∧
      Answers tasks (fun b => (tasks b).weight.toInt) current c a ∧ SameFamily tasks tasks' ∧
      ∀ t, (tasks' t).weight.toInt = c.weightAfter tasks current t := by
  cases c with
  | setWeight weight =>
      refine ⟨answer (sysSetWeight tasks current weight).1, (sysSetWeight tasks current weight).2,
        ⟨0, fun steps _ => rfl⟩, ?_, .setWeight tasks current weight,
        weight_sysSetWeight tasks current weight⟩
      by_cases hw : weight < 0
      · rw [sysSetWeight_neg hw, answer_error (by decide) (by decide)]
        exact .negative hw
      · rw [sysSetWeight_nonneg hw]
        exact .set (by simpa using hw)
  | getWeight =>
      have hanswer : answer (sysGetWeight tasks current) = ⟨(tasks current).weight.toInt, none⟩ :=
        answer_of_range (hpos current) (Int32.toInt_lt _)
      exact ⟨_, tasks, ⟨0, fun steps _ => rfl⟩, hanswer ▸ .get, .refl tasks, fun t => by
        unfold Call.weightAfter setBy Call.sets
        rw [ite_self, Option.getD_none]⟩
  | getLeafChildrenSum =>
      have hsame : ∀ t, (tasks t).weight.toInt = Call.getLeafChildrenSum.weightAfter tasks current t := by
        intro t
        unfold Call.weightAfter setBy Call.sets
        rw [ite_self, Option.getD_none]
      by_cases hparent : (tasks current).children = []
      · refine ⟨_, tasks, returns_leafChildrenSum (leafChildrenSum_none hparent), ?_, .refl tasks,
          hsame⟩
        rw [answer_error (by decide) (by decide)]
        exact .childless hparent
      · obtain ⟨x, leaves, hleaves, rfl⟩ :=
          (h.tree current).exists_leafSum fun b => (tasks b).weight.toInt
        exact ⟨_, tasks, returns_leafChildrenSum (leafChildrenSum_some (h.tree current) hparent
          ⟨leaves, hleaves, rfl⟩), .leaves hparent hleaves, .refl tasks, hsame⟩
  | getHeaviestAncestor =>
      obtain ⟨k, hk, hlt⟩ := h.exists_first current
      have hloop : ∀ steps > k, ∃ m, FirstMax (chainWeight tasks current) k m ∧
          sysGetHeaviestAncestor tasks steps current = some (tasks (ancestor tasks current m)).pid :=
        fun steps hs =>
          heaviestLoop_firstMax (i := 0) hk hlt (Nat.zero_le k) (by omega) (.zero _)
      obtain ⟨m, hm, -⟩ := hloop (k + 1) (Nat.lt_succ_self k)
      have hpid := h.pid (ancestor tasks current m)
      refine ⟨⟨(tasks (ancestor tasks current m)).pid, none⟩, tasks, ⟨k + 1, fun steps hs => ?_⟩,
        .heaviest hk hlt hm, .refl tasks, fun t => ?_⟩
      · obtain ⟨m', hm', hr⟩ := hloop steps hs
        rw [← answer_of_range hpid.1 hpid.2]
        simp [Call.run, Call.number, syscall64, SysCall.run, hr, hm.unique hm']
      · unfold Call.weightAfter setBy Call.sets
        rw [ite_self, Option.getD_none]

/-! ### All calls -/

theorem lastSet_snoc (tasks : Tasks) (cs : List (ℕ × Call)) (current : ℕ) (c : Call) (t : ℕ) :
    lastSet tasks (cs ++ [(current, c)]) t =
      (setBy t (current, c)).getD (lastSet tasks cs t) := by
  unfold lastSet
  rw [List.filterMap_append]
  cases hx : setBy t (current, c) with
  | none => rw [List.filterMap_cons_none hx, List.filterMap_nil, List.append_nil, Option.getD_none]
  | some x =>
      rw [List.filterMap_cons_some hx, List.filterMap_nil, List.getLast?_append,
        List.getLast?_singleton, Option.some_or, Option.getD_some, Option.getD_some]

/-- What every history keeps. -/
structure Kept (tasks : Tasks) (cs : List (ℕ × Call)) (tasks' : Tasks) : Prop where
  same : SameFamily tasks tasks'
  weight : ∀ t, (tasks' t).weight.toInt = lastSet tasks cs t
  nonneg : ∀ t, 0 ≤ lastSet tasks cs t

/-- One more call. -/
theorem Kept.call {cs : List (ℕ × Call)} (hf : Family tasks) (h : Kept tasks cs tasks')
    (current : ℕ) (c : Call) :
    ∃ a tasks'', Returns tasks' current c a tasks'' ∧
      Answers tasks (lastSet tasks cs) current c a ∧ Kept tasks (cs ++ [(current, c)]) tasks'' := by
  have hw : (fun b => (tasks' b).weight.toInt) = lastSet tasks cs := funext h.weight
  obtain ⟨a, tasks'', hret, hanswers, hsame, hweight⟩ :=
    (h.same.family hf).returns (fun b => (h.weight b).symm ▸ h.nonneg b) current c
  rw [hw] at hanswers
  refine ⟨a, tasks'', hret, h.same.answers hanswers, h.same.trans hsame, fun t => ?_, fun t => ?_⟩
  · rw [lastSet_snoc, hweight, Call.weightAfter, h.weight]
  · rw [lastSet_snoc]
    cases hx : setBy t (current, c) with
    | none => exact h.nonneg t
    | some x =>
        have hset : x ∈ c.sets := by
          unfold setBy at hx
          split at hx
          · exact hx
          · cases hx
        exact Call.sets_nonneg x hset

theorem Returns.unique {c : Call} {a a' : Answer} (h : Returns tasks current c a tasks')
    (h' : Returns tasks current c a' tasks'') : a = a' ∧ tasks' = tasks'' := by
  obtain ⟨n, hn⟩ := h
  obtain ⟨n', hn'⟩ := h'
  have he := (hn (max n n') (le_max_left _ _)).symm.trans (hn' (max n n') (le_max_right _ _))
  exact Prod.mk.inj (Option.some.inj he)

theorem History.kept {cs : List (ℕ × Call)} (hf : Family tasks)
    (hpos : ∀ a, 0 ≤ (tasks a).weight.toInt) (h : History tasks cs tasks') :
    Kept tasks cs tasks' := by
  induction h with
  | start => exact ⟨.refl tasks, fun t => rfl, hpos⟩
  | call _ hret ih =>
      obtain ⟨a, tasks₁, hret₁, -, hkept⟩ := ih.call hf _ _
      rwa [(hret.unique hret₁).2]

/-- **The calls of all tasks together.**  Whatever calls have been made, by whichever tasks, every
further call returns; it answers from the family that there was at the start and from the weights
that the tasks have set last, and afterwards the weights are again those set last. -/
theorem calls_answer {cs : List (ℕ × Call)} (hf : Family tasks)
    (hpos : ∀ a, 0 ≤ (tasks a).weight.toInt) (h : History tasks cs tasks') (current : ℕ) (c : Call) :
    ∃ a tasks'', Returns tasks' current c a tasks'' ∧ Answers tasks (lastSet tasks cs) current c a ∧
      SameFamily tasks tasks'' ∧
      ∀ t, (tasks'' t).weight.toInt = lastSet tasks (cs ++ [(current, c)]) t := by
  obtain ⟨a, tasks'', hret, hanswers, hkept⟩ := (h.kept hf hpos).call hf current c
  exact ⟨a, tasks'', hret, hanswers, hkept.same, hkept.weight⟩

theorem family_family : Family family where
  tree := table_finiteTree (by decide)
  root a := by
    by_cases ha : a < 6
    · have hall : ∀ a < 6, (family (ancestor family a 3)).pid = 0 := by decide
      exact ⟨3, hall a ha⟩
    · refine ⟨0, ?_⟩
      show (family a).pid = 0
      rw [family, table_of_le (by simpa using ha), initTask]
  pid a := by
    by_cases ha : a < 6
    · have hall : ∀ a < 6, 0 ≤ (family a).pid ∧ (family a).pid < 2 ^ 31 := by decide
      exact hall a ha
    · rw [family, table_of_le (by simpa using ha)]
      exact ⟨le_rfl, (by decide : (0 : ℤ) < 2 ^ 31)⟩

theorem family_nonneg (a : ℕ) : 0 ≤ (family a).weight.toInt := by
  by_cases ha : a < 6
  · have hall : ∀ a < 6, 0 ≤ (family a).weight.toInt := by decide
    exact hall a ha
  · rw [family, table_of_le (by simpa using ha)]
    exact (by decide : 0 ≤ (0 : Int32).toInt)

/-- A grandchild sets its weight, and then the sum over the leaves is asked for. -/
theorem calls_answer_family :
    ∃ a tasks', Returns (sysSetWeight family 4 10).2 1 .getLeafChildrenSum a tasks' ∧
      Answers family (lastSet family [(4, .setWeight 10)]) 1 .getLeafChildrenSum a ∧
      lastSet family [(4, .setWeight 10)] 4 = 10 := by
  have hret : Returns family 4 (.setWeight 10) ⟨0, none⟩ (sysSetWeight family 4 10).2 :=
    ⟨0, fun steps _ => rfl⟩
  obtain ⟨a, tasks', h₁, h₂, -⟩ :=
    calls_answer family_family family_nonneg (.call .start hret) 1 .getLeafChildrenSum
  exact ⟨a, tasks', h₁, h₂, by decide⟩

end OsProjects.ProcessWeights
