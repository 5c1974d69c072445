import LexicalPath.Proofs.Failure
import LexicalPath.Proofs.Testing.Selection
import Mathlib.Algebra.Ring.Nat
import Mathlib.Data.List.Induction
import Mathlib.Data.List.Infix
import Mathlib.Tactic.Push

/-!
# What a run of tests reports

The failures of a run are counted here from the suites alone: `Suite.failureCount` does not say how
they are collected. The runner keeps the count of failed suites apart from the list of failures, so
its result is right only because a case fails exactly if it leaves a failure (`SuiteReport.Tallies`).
-/

namespace LexicalPath.Testing

/-! ## What counts as a failure -/

def Action.thrown? : Action → Option ExceptionType
  | .throw type _ => some type
  | _ => none

/-- The exception that ends a piece of a test. -/
def ending (actions : List Action) : Option ExceptionType := actions.findSome? Action.thrown?

/-- The failed assertions that are reached before an exception ends the piece. -/
def reached (actions : List Action) : List Action := actions.takeWhile (·.thrown?.isNone)

def Case.failureCount (c : Case) : Nat :=
  (reached c.body).length + if ending c.body = c.expects then 0 else 1

/-- No exception is expected of init and cleanup. -/
def aroundCount (actions : List Action) : Nat :=
  (reached actions).length + if ending actions = none then 0 else 1

namespace Suite

def casesWith (filter : Bytes) (s : Suite) : List Case := s.cases.filter (filter <:+: ·.name)

def failureCount (filter : Bytes) (s : Suite) : Nat :=
  aroundCount s.init +
    (if ending s.init = none then ((s.casesWith filter).map Case.failureCount).sum else 0) +
    aroundCount s.cleanup

end Suite

namespace Entry

def failureCount (e : Entry) : Nat := e.suite.failureCount e.filter

def IsIdle (e : Entry) : Prop := ∀ c ∈ e.suite.cases, ¬ e.filter <:+: c.name

instance : DecidablePred IsIdle := fun e =>
  inferInstanceAs (Decidable (∀ c ∈ e.suite.cases, ¬ e.filter <:+: c.name))

structure Passes (e : Entry) : Prop where
  init : ending e.suite.init = none
  selected : ∃ c ∈ e.suite.cases, e.filter <:+: c.name
  noFailure : e.failureCount = 0

end Entry

/-! ## Pieces of a test -/

section Pieces

variable (verbose : Bool) (suite case : Bytes) (actions : List Action)

theorem perform_failures_length :
    (perform verbose suite case actions).failures.length = (reached actions).length := by
  induction actions with
  | nil => rfl
  | cons a rest ih =>
    cases a with
    | throw type message => rfl
    | fail file line message => simpa [perform, Action.assertion?, reached, Action.thrown?] using ih
    | assume file line expr actual why expected =>
      simpa [perform, Action.assertion?, reached, Action.thrown?] using ih

theorem perform_thrown :
    (perform verbose suite case actions).thrown.map Prod.fst = ending actions := by
  induction actions with
  | nil => rfl
  | cons a rest ih =>
    cases a with
    | throw type message => rfl
    | fail file line message =>
      simpa [perform, Action.assertion?, ending, Action.thrown?, List.findSome?_cons] using ih
    | assume file line expr actual why expected =>
      simpa [perform, Action.assertion?, ending, Action.thrown?, List.findSome?_cons] using ih

end Pieces

namespace SuiteReport

/-- A report on `cases` cases that left `count` failures. -/
structure Tallies (r : SuiteReport) (count cases : Nat) : Prop where
  failures : r.failures.length = count
  numRun : r.numRun = cases
  numFailed : r.numFailed = 0 ↔ count = 0

end SuiteReport

namespace Suite

variable (verbose : Bool) (filter : Bytes) (s : Suite)

theorem exceptionFailure?_length (c : Case) (o : Outcome) :
    (s.exceptionFailure? c o).toList.length =
      if o.thrown.map Prod.fst = c.expects then 0 else 1 := by
  unfold exceptionFailure?
  cases o.thrown with
  | none => cases c.expects <;> simp
  | some thrown =>
    obtain ⟨type, message⟩ := thrown
    by_cases h : c.expects = some type
    · simp [h]
    · have hne : some type ≠ c.expects := Ne.symm h
      simp [h, hne]

theorem runCase_tallies (c : Case) : (s.runCase verbose c).Tallies c.failureCount 1 := by
  have hlen : (s.runCase verbose c).failures.length = c.failureCount := by
    simp only [runCase, caseFailures, List.length_append, perform_failures_length,
      exceptionFailure?_length, perform_thrown, Case.failureCount]
  refine ⟨hlen, rfl, ?_⟩
  rw [← hlen]
  simp [runCase]

theorem joinReports_cons {r : SuiteReport} {rs : List SuiteReport} {count count' cases cases' : Nat}
    (hr : r.Tallies count cases) (hrs : (joinReports rs).Tallies count' cases') :
    (joinReports (r :: rs)).Tallies (count + count') (cases + cases') where
  failures := by simp [joinReports, hr.failures, hrs.failures]
  numRun := by simp [joinReports, hr.numRun, hrs.numRun]
  numFailed := by
    have h := hr.numFailed
    have h' := hrs.numFailed
    simp only [joinReports]
    omega

theorem joinReports_tallies (cases : List Case) :
    (joinReports (cases.map (s.runCase verbose))).Tallies (cases.map Case.failureCount).sum
      cases.length := by
  induction cases with
  | nil => exact ⟨rfl, rfl, by simp [joinReports]⟩
  | cons c cases ih =>
    have h := joinReports_cons (s.runCase_tallies verbose c) ih
    rwa [Nat.add_comm 1] at h

theorem runAround_thrown (part what : Bytes) (actions : List Action) :
    (s.runAround verbose part what actions).thrown =
      (perform verbose s.name part actions).thrown := by
  unfold runAround
  dsimp only
  split <;> rfl

theorem runAround_failures_length (part what : Bytes) (actions : List Action) :
    (s.runAround verbose part what actions).failures.length = aroundCount actions := by
  unfold aroundCount
  rw [← perform_thrown verbose s.name part actions, ← perform_failures_length verbose s.name part]
  unfold runAround
  dsimp only
  cases (perform verbose s.name part actions).thrown <;> simp

theorem selectedCases_eq : s.selectedCases filter = s.casesWith filter := by
  unfold selectedCases casesWith
  apply List.filter_congr
  intro c _
  rw [Bool.eq_iff_iff, isSelected, Bool.or_eq_true, Search.block?_isSome_iff]
  simp +contextual

/-! ## Suites -/

theorem initThrows_iff (part what : Bytes) :
    (s.runAround verbose part what s.init).thrown.isSome ↔ ending s.init ≠ none := by
  rw [runAround_thrown, ← perform_thrown verbose s.name part, Option.isSome_iff_ne_none]
  simp

theorem runCases_failures_length :
    (s.runCases verbose filter).failures.length = s.failureCount filter := by
  have hcases := (joinReports_tallies verbose s (s.casesWith filter)).failures
  unfold runCases failureCount
  simp only [initThrows_iff, selectedCases_eq]
  by_cases hinit : ending s.init = none
  · simp [hinit, hcases, runAround_failures_length, Nat.add_assoc]
  · simp [hinit, runAround_failures_length]

theorem runCases_succeeded_iff :
    (s.runCases verbose filter).succeeded ↔ ending s.init = none ∧ s.casesWith filter ≠ [] ∧
      ((s.casesWith filter).map Case.failureCount).sum = 0 := by
  have hcases := joinReports_tallies verbose s (s.casesWith filter)
  unfold runCases SuiteReport.succeeded
  simp only [initThrows_iff, selectedCases_eq]
  by_cases hinit : ending s.init = none
  · simp [hinit, hcases.numRun, hcases.numFailed, List.length_pos_iff, and_comm]
  · simp [hinit]

theorem run_of_built (h : ending s.construction = none) :
    ∃ r, s.run verbose filter = .ok r ∧ r.failures = (s.runCases verbose filter).failures ∧
      r.succeeded = (s.runCases verbose filter).succeeded := by
  rw [← perform_thrown verbose s.name [], Option.map_eq_none_iff] at h
  unfold run
  simp only [h]
  exact ⟨_, rfl, rfl, rfl⟩

theorem run_of_not_built (type : ExceptionType) (h : ending s.construction = some type) :
    ∃ x, s.run verbose filter = .error x ∧ x.type = type := by
  rw [← perform_thrown verbose s.name [], Option.map_eq_some_iff] at h
  obtain ⟨⟨_, message⟩, hthrown, rfl⟩ := h
  unfold run
  simp only [hthrown]
  exact ⟨_, rfl, rfl⟩

end Suite

namespace Entry

variable (verbose : Bool) (e : Entry)

theorem failures_length : (e.suite.runCases verbose e.filter).failures.length = e.failureCount :=
  e.suite.runCases_failures_length verbose e.filter

theorem casesWith_eq_nil_iff : e.suite.casesWith e.filter = [] ↔ e.IsIdle := by
  simp [Suite.casesWith, IsIdle]

theorem init_of_noFailure (h : e.failureCount = 0) : ending e.suite.init = none := by
  unfold failureCount Suite.failureCount aroundCount at h
  by_contra hinit
  simp [hinit] at h

/-- Without failures, a suite can only fail for want of cases. -/
theorem succeeded_iff (h : e.failureCount = 0) :
    (e.suite.runCases verbose e.filter).succeeded ↔ ¬ e.IsIdle := by
  have hinit := e.init_of_noFailure h
  have hrun := e.suite.runCases_succeeded_iff verbose e.filter
  have hsum : ((e.suite.casesWith e.filter).map Case.failureCount).sum = 0 := by
    unfold failureCount Suite.failureCount at h
    rw [if_pos hinit] at h
    omega
  rw [← casesWith_eq_nil_iff]
  exact hrun.trans ⟨fun h => h.2.1, fun h => ⟨hinit, h, hsum⟩⟩

theorem passes_iff : e.Passes ↔ e.failureCount = 0 ∧ ¬ e.IsIdle := by
  constructor
  · rintro ⟨-, ⟨c, hc, hname⟩, hnone⟩
    exact ⟨hnone, fun hidle => hidle c hc hname⟩
  · rintro ⟨hnone, hidle⟩
    refine ⟨e.init_of_noFailure hnone, ?_, hnone⟩
    unfold IsIdle at hidle
    push Not at hidle
    exact hidle

instance : DecidablePred Passes := fun e => decidable_of_iff _ e.passes_iff.symm

end Entry

/-! ## Runs -/

namespace Report

/-- What a report says after the suites of `done` have run. -/
structure Accounts (verbose : Bool) (r : Report) (done : List Entry) : Prop where
  suitesRun : r.suitesRun = done.length
  suitesFailed :
    r.suitesFailed = done.countP fun e => !(e.suite.runCases verbose e.filter).succeeded
  failures : r.failures = done.flatMap fun e => (e.suite.runCases verbose e.filter).failures

variable {verbose : Bool} {r : Report} {done : List Entry}

theorem Accounts.addSuite (h : r.Accounts verbose done) (e : Entry) (s : SuiteReport)
    (hfailures : s.failures = (e.suite.runCases verbose e.filter).failures)
    (hsucceeded : s.succeeded = (e.suite.runCases verbose e.filter).succeeded) :
    (r.addSuite s).Accounts verbose (done ++ [e]) where
  suitesRun := by simp [Report.addSuite, h.suitesRun]
  suitesFailed := by
    rw [List.countP_append, ← h.suitesFailed]
    cases hrun : s.succeeded <;> simp [Report.addSuite, hrun, ← hsucceeded]
  failures := by simp [Report.addSuite, h.failures, hfailures]

theorem Accounts.failures_length (h : r.Accounts verbose done) :
    r.failures.length = (done.map Entry.failureCount).sum := by
  rw [h.failures, List.length_flatMap]
  congr 1
  apply List.map_congr_left
  intro e _
  exact e.failures_length verbose

theorem Accounts.noFailures_iff (h : r.Accounts verbose done) :
    r.failures = [] ↔ ∀ e ∈ done, e.failureCount = 0 := by
  rw [h.failures, List.flatMap_eq_nil_iff]
  simp [← Entry.failures_length verbose]

theorem Accounts.suitesFailed_eq (h : r.Accounts verbose done) (hnone : r.failures = []) :
    r.suitesFailed = done.countP (·.IsIdle) := by
  rw [h.suitesFailed]
  apply List.countP_congr
  intro e he
  have hrun := e.succeeded_iff verbose (h.noFailures_iff.mp hnone e he)
  simp [← Bool.not_eq_true, hrun]

theorem Accounts.code_eq (h : r.Accounts verbose done) :
    r.code =
      if 0 < (done.map Entry.failureCount).sum then (done.map Entry.failureCount).sum
      else if 0 < done.countP (·.IsIdle) then done.countP (·.IsIdle)
      else if done = [] then 1 else 0 := by
  rw [← h.failures_length]
  unfold code
  by_cases hnone : r.failures = []
  · simp [hnone, h.suitesFailed_eq hnone, h.suitesRun]
  · simp [hnone, List.length_pos_iff]

theorem Accounts.code_eq_zero_iff (h : r.Accounts verbose done) :
    r.code = 0 ↔ done ≠ [] ∧ ∀ e ∈ done, e.Passes := by
  have hpass : (∀ e ∈ done, e.Passes) ↔ r.failures = [] ∧ done.countP (·.IsIdle) = 0 := by
    rw [h.noFailures_iff, List.countP_eq_zero]
    simp [Entry.passes_iff, forall_and]
  rw [hpass, h.code_eq, ← h.failures_length]
  by_cases hnone : r.failures = []
  · by_cases hidle : done.countP (·.IsIdle) = 0
    · simp [hnone, hidle]
    · simp [hnone, hidle, Nat.pos_of_ne_zero hidle]
  · simp [hnone, List.length_pos_iff]

end Report

namespace Session

theorem foldlM_runNext_of_built (verbose : Bool) (chosen : List Entry)
    (h : ∀ e ∈ chosen, ending e.suite.construction = none) :
    ∃ report output, chosen.foldlM (runNext verbose) ({}, {}) = .ok (report, output) ∧
      report.Accounts verbose chosen := by
  induction chosen using List.reverseRecOn with
  | nil => exact ⟨{}, {}, rfl, rfl, rfl, rfl⟩
  | append_singleton chosen e ih =>
    rw [List.forall_mem_append, List.forall_mem_singleton] at h
    obtain ⟨report, output, hrun, haccounts⟩ := ih h.1
    obtain ⟨r, hr, hfailures, hsucceeded⟩ := e.suite.run_of_built verbose e.filter h.2
    have hnext : runNext verbose (report, output) e =
        .ok (report.addSuite r, output ++ r.output) := by
      simp only [runNext, hr]
    refine ⟨report.addSuite r, output ++ r.output, ?_, haccounts.addSuite e r hfailures hsucceeded⟩
    rw [List.foldlM_append, hrun, ok_bind, List.foldlM_cons, hnext, ok_bind, List.foldlM_nil,
      pure_eq_ok]

theorem foldlM_runNext_of_not_built (verbose : Bool) (before after : List Entry) (e : Entry)
    (type : ExceptionType) (hbefore : ∀ b ∈ before, ending b.suite.construction = none)
    (he : ending e.suite.construction = some type) :
    ∃ x, (before ++ e :: after).foldlM (runNext verbose) ({}, {}) = .error x ∧ x.type = type := by
  obtain ⟨report, output, hrun, -⟩ := foldlM_runNext_of_built verbose before hbefore
  obtain ⟨x, hx, htype⟩ := e.suite.run_of_not_built verbose e.filter type he
  have hnext : runNext verbose (report, output) e = .error (x.behind output) := by
    simp only [runNext, hx]
  refine ⟨x.behind output, ?_, htype⟩
  rw [List.foldlM_append, hrun, ok_bind, List.foldlM_cons, hnext, error_bind]

theorem runTests_of_runEntries (s : Session) (args : List Bytes)
    (hargs : ∀ a ∈ args, isHelp a.untilNul = false) :
    (∀ report printed,
        runEntries (s.runTests args).1.verbose (s.runTests args).1.entries = .ok (report, printed) →
        ∃ output, (s.runTests args).2 = .ok (.finished report.code output)) ∧
      ∀ x, runEntries (s.runTests args).1.verbose (s.runTests args).1.entries = .error x →
        ∃ y, (s.runTests args).2 = .error y ∧ y.type = x.type := by
  have hno : (args.map Bytes.untilNul).any isHelp = false := by simpa using hargs
  unfold runTests
  simp only [hno, Bool.false_eq_true, if_false]
  constructor
  · intro report printed h
    rw [h]
    exact ⟨_, rfl⟩
  · intro x h
    rw [h]
    exact ⟨_, rfl, rfl⟩

theorem runTests_verbose (s : Session) (args : List Bytes)
    (hargs : ∀ a ∈ args, isHelp a.untilNul = false) :
    (s.runTests args).1.verbose = true ↔
      s.verbose = true ∨ ∃ a ∈ args, a.untilNul = ascii "-v" := by
  have hno : (args.map Bytes.untilNul).any isHelp = false := by simpa using hargs
  unfold runTests
  simp only [hno, Bool.false_eq_true, if_false]
  simp [isVerbose]

/-- **The result of a run.** Each entry is decided by the last argument that matches its suite. If
the chosen suites can be built, each leaves as many failures as its pieces make, and the result is 0
exactly if a suite was chosen and all chosen ones pass. Otherwise it is the number of failures,
without failures that of the suites that had no case to run, and 1 if no suite was chosen. The first
suite that cannot be built ends the run with its exception. -/
theorem runTests_result (s : Session) (args : List Bytes)
    (hargs : ∀ a ∈ args, isHelp a.untilNul = false) :
    let s' := (s.runTests args).1
    let chosen := s'.entries.filter Entry.enabled
    let recorded := (chosen.map Entry.failureCount).sum
    List.Forall₂ (DecidedByLast (selectors (args.map Bytes.untilNul))) s.entries s'.entries ∧
      (s'.verbose = true ↔ s.verbose = true ∨ ∃ a ∈ args, a.untilNul = ascii "-v") ∧
      ((∀ e ∈ chosen, ending e.suite.construction = none) →
        ∃ report printed output, runEntries s'.verbose s'.entries = .ok (report, printed) ∧
          (s.runTests args).2 = .ok (.finished report.code output) ∧
          report.failures =
            chosen.flatMap (fun e => (e.suite.runCases s'.verbose e.filter).failures) ∧
          (∀ e ∈ chosen,
            (e.suite.runCases s'.verbose e.filter).failures.length = e.failureCount) ∧
          report.failures.length = recorded ∧
          (report.code = 0 ↔ chosen ≠ [] ∧ ∀ e ∈ chosen, e.Passes) ∧
          (report.code ≠ 0 → report.code =
            if 0 < recorded then recorded
            else if 0 < chosen.countP (·.IsIdle) then chosen.countP (·.IsIdle)
            else 1)) ∧
      ∀ before e after type, chosen = before ++ e :: after →
        (∀ b ∈ before, ending b.suite.construction = none) →
        ending e.suite.construction = some type →
        ∃ x, (s.runTests args).2 = .error x ∧ x.type = type := by
  intro s' chosen recorded
  obtain ⟨hfinished, hleft⟩ := s.runTests_of_runEntries args hargs
  refine ⟨?_, s.runTests_verbose args hargs, ?_, ?_⟩
  · rw [s.runTests_entries args hargs]
    exact select_decided _ s.entries
  · intro hbuilt
    obtain ⟨report, printed, hrun, h⟩ := foldlM_runNext_of_built s'.verbose chosen hbuilt
    obtain ⟨output, houtput⟩ := hfinished report printed hrun
    refine ⟨report, printed, output, hrun, houtput, h.failures,
      fun e _ => e.failures_length s'.verbose, h.failures_length, h.code_eq_zero_iff, ?_⟩
    intro hcode
    rw [h.code_eq] at hcode ⊢
    split_ifs at hcode ⊢ <;> first | rfl | contradiction
  · intro before e after type hchosen hbefore he
    obtain ⟨x, hrun, rfl⟩ :=
      foldlM_runNext_of_not_built s'.verbose before after e type hbefore he
    rw [← hchosen] at hrun
    exact hleft x hrun

theorem runTests_result_expected :
    let paths : Suite :=
      ⟨ascii "paths", [], [], [⟨ascii "concat", [.throw .unsanitizedPath []], some .unsanitizedPath⟩],
        []⟩
    let charset : Suite :=
      ⟨ascii "charset", [], [], [⟨ascii "encode", [.fail [] 1 (ascii "wrong")], none⟩], []⟩
    let broken : Suite := ⟨ascii "host", [.throw .logicError []], [], [], []⟩
    let s : Session := { entries := [{ suite := paths }, { suite := charset }] }
    let unbuilt : Session := { entries := [{ suite := paths }, { suite := broken }] }
    let named := [ascii "paths.con"]
    (∀ a ∈ named, isHelp a.untilNul = false) ∧
      (s.runTests named).1.entries =
        [{ suite := paths, filter := ascii "con" }, { suite := charset, enabled := false }] ∧
      (∃ output, (s.runTests named).2 = .ok (.finished 0 output)) ∧
      (∃ output, (s.runTests []).2 = .ok (.finished 1 output)) ∧
      ∃ x, (unbuilt.runTests []).2 = .error x ∧ x.type = .logicError := by
  intro paths charset broken s unbuilt named
  have hnamed : ∀ a ∈ named, isHelp a.untilNul = false := by decide +kernel
  have hentries : (s.runTests named).1.entries =
      [{ suite := paths, filter := ascii "con" }, { suite := charset, enabled := false }] := by
    decide +kernel
  obtain ⟨-, -, hnamedRun, -⟩ := s.runTests_result named hnamed
  obtain ⟨-, -, hallRun, -⟩ := s.runTests_result [] (by simp)
  obtain ⟨-, -, -, hbroken⟩ := unbuilt.runTests_result [] (by simp)
  obtain ⟨report, -, output, -, hrun, -, -, -, hcode, -⟩ := hnamedRun (by decide +kernel)
  rw [hcode.mpr (by decide +kernel)] at hrun
  refine ⟨hnamed, hentries, ⟨output, hrun⟩, ?_, ?_⟩
  · obtain ⟨report, -, output, -, hrun, -, -, -, hcode, hfailed⟩ := hallRun (by decide +kernel)
    rw [hfailed (mt hcode.mp (by decide +kernel))] at hrun
    exact ⟨output, hrun⟩
  · exact hbroken [{ suite := paths }] { suite := broken } [] .logicError (by decide +kernel)
      (by decide +kernel) (by decide +kernel)

end Session

end LexicalPath.Testing
