import LexicalPath.Testing.Session
import Mathlib.Data.List.Forall2
import Mathlib.Data.List.Infix
import Mathlib.Data.List.TakeWhile

/-!
# Selection by the last match

Whether an argument matches a suite is said here from its text alone, cut at its first dot. The
arguments are applied one after another to all suites, and whether some of them names suites to be
run is decided before. Both together come to one rule: the last argument that matches a suite
decides, and without one a suite stays as it is as long as nothing is named to be run.
-/

namespace LexicalPath.Testing

/-! ## What an argument says -/

/-- The first dot of an argument parts it in two. Without a dot nothing is behind it. -/
def CutAtDot (arg front back : Bytes) : Prop :=
  dotByte ∉ front ∧ (arg = front ++ dotByte :: back ∨ arg = front ∧ back = [])

def dropHyphen : Bytes → Bytes
  | [] => []
  | b :: rest => if b = hyphen then rest else b :: rest

/-- A pattern is the marked name of a suite or, without the mark, a piece of it. -/
def NamesSuite (pattern name : Bytes) : Prop :=
  pattern.fold = exactMark.fold ++ name.fold ∨
    ¬ exactMark.fold <+: pattern.fold ∧ pattern.fold <:+: name.fold

def Matches (arg name : Bytes) : Prop :=
  ∃ front back, CutAtDot arg front back ∧ NamesSuite (dropHyphen front) name

theorem cutAtDot_self (arg : Bytes) :
    CutAtDot arg (arg.takeWhile (· != dotByte)) ((arg.dropWhile (· != dotByte)).drop 1) := by
  induction arg with
  | nil => exact ⟨by simp, Or.inr ⟨rfl, rfl⟩⟩
  | cons b arg ih =>
    by_cases hb : b = dotByte
    · simp [CutAtDot, hb]
    · obtain ⟨hdot, hcut⟩ := ih
      simp only [List.takeWhile_cons, List.dropWhile_cons, bne_iff_ne.mpr hb, if_true]
      refine ⟨by simp [hdot, Ne.symm hb], ?_⟩
      rcases hcut with hcut | ⟨hfront, hback⟩
      · exact Or.inl (congrArg (b :: ·) hcut)
      · exact Or.inr ⟨congrArg (b :: ·) hfront, hback⟩

theorem CutAtDot.eq {arg front back : Bytes} (h : CutAtDot arg front back) :
    front = arg.takeWhile (· != dotByte) ∧ back = (arg.dropWhile (· != dotByte)).drop 1 := by
  obtain ⟨hdot, hcut⟩ := h
  have hfront : ∀ b ∈ front, (b != dotByte) = true := fun b hb =>
    bne_iff_ne.mpr fun h => hdot (h ▸ hb)
  rcases hcut with rfl | ⟨rfl, rfl⟩
  · rw [List.takeWhile_append_of_pos hfront, List.dropWhile_append_of_pos hfront]
    simp
  · rw [List.takeWhile_eq_self_iff.mpr hfront, List.dropWhile_eq_nil_iff.mpr hfront]
    exact ⟨rfl, rfl⟩

theorem CutAtDot.isExclusion {arg front back : Bytes} (h : CutAtDot arg front back) :
    isExclusion front = isExclusion arg := by
  rcases h.2 with rfl | ⟨rfl, -⟩
  · cases front with
    | nil => rfl
    | cons b front => rfl
  · rfl

namespace Selector

theorem pattern_drop (front : Bytes) :
    (if isExclusion front then front.drop 1 else front) = dropHyphen front := by
  cases front with
  | nil => rfl
  | cons b rest => simp [isExclusion, dropHyphen]

theorem isMatch_iff (arg name : Bytes) : (ofArgument arg).isMatch name ↔ Matches arg name := by
  have hcut := cutAtDot_self arg
  have hmatches : Matches arg name ↔
      NamesSuite (dropHyphen (arg.takeWhile (· != dotByte))) name := by
    constructor
    · rintro ⟨front, back, h, hnames⟩
      rwa [← h.eq.1]
    · exact fun h => ⟨_, _, hcut, h⟩
  rw [hmatches]
  simp only [ofArgument, isMatch, pattern_drop]
  generalize dropHyphen (arg.takeWhile (· != dotByte)) = pattern
  unfold NamesSuite
  by_cases hexact : exactMark.fold <+: pattern.fold
  · -- Only the rest behind the mark is compared, so the mark has to be put back in front of it.
    have hstarts : pattern.startsWithFold exactMark = true := List.isPrefixOf_iff_prefix.mpr hexact
    obtain ⟨rest, hrest⟩ := hexact
    have hdrop : Bytes.fold (pattern.drop exactMark.length) = rest := by
      have hfold : Bytes.fold (pattern.drop exactMark.length) =
          pattern.fold.drop exactMark.length := List.map_drop
      rw [hfold, ← hrest]
      exact List.drop_left' (by simp [Bytes.fold])
    simp only [hstarts, if_true, Bytes.equalFold, hdrop, beq_iff_eq, ← hrest]
    simp [eq_comm]
  · have hstarts : pattern.startsWithFold exactMark = false :=
      Bool.eq_false_iff.mpr fun h => hexact (List.isPrefixOf_iff_prefix.mp h)
    have hne : pattern.fold ≠ exactMark.fold ++ name.fold := fun h => hexact ⟨_, h.symm⟩
    simp only [hstarts, Bool.false_eq_true, if_false, Search.block?_isSome_iff, hexact, hne,
      not_false_eq_true, true_and, false_or]

theorem disables_eq (arg : Bytes) : (ofArgument arg).disables = isExclusion arg :=
  (cutAtDot_self arg).isExclusion

theorem filter_eq {arg front back : Bytes} (h : CutAtDot arg front back) :
    (ofArgument arg).filter = back := h.eq.2.symm

end Selector

/-! ## One argument after the other -/

/-- What the arguments make of one entry. -/
def applyAll (args : List Bytes) (e : Entry) : Entry :=
  args.foldl (fun e arg => (Selector.ofArgument arg).applyTo e) e

/-- An entry before the arguments are applied. -/
def prepare (args : List Bytes) (e : Entry) : Entry :=
  if args.any (!isExclusion ·) then { e with enabled := false } else e

theorem applyAll_cons (arg : Bytes) (args : List Bytes) (e : Entry) :
    applyAll (arg :: args) e = applyAll args ((Selector.ofArgument arg).applyTo e) := rfl

theorem applyAll_append (front back : List Bytes) (e : Entry) :
    applyAll (front ++ back) e = applyAll back (applyAll front e) := List.foldl_append ..

theorem select_eq (args : List Bytes) (entries : List Entry) :
    (select args entries).1 = entries.map fun e => applyAll args (prepare args e) := by
  have hfold : (select args entries).1 =
      args.foldl (fun entries arg => entries.map (Selector.ofArgument arg).applyTo)
        (clearFor args entries) :=
    (List.foldl_hom Prod.fst fun _ _ => rfl).symm
  have hrun (row : List Bytes) (entries : List Entry) :
      row.foldl (fun entries arg => entries.map (Selector.ofArgument arg).applyTo) entries =
        entries.map (applyAll row) := by
    induction row generalizing entries with
    | nil => exact (List.map_id entries).symm
    | cons arg row ih => exact (ih _).trans List.map_map
  have hclear : clearFor args entries = entries.map (prepare args) := by
    unfold clearFor prepare
    split <;> simp
  rw [hfold, hrun, hclear, List.map_map]
  rfl

section

variable (arg : Bytes) (e : Entry)

theorem applyTo_suite : ((Selector.ofArgument arg).applyTo e).suite = e.suite := by
  unfold Selector.applyTo
  split <;> rfl

theorem applyTo_of_matches {front back : Bytes} (h : Matches arg e.suite.name)
    (hcut : CutAtDot arg front back) :
    (Selector.ofArgument arg).applyTo e =
      { e with enabled := !isExclusion arg, filter := back } := by
  unfold Selector.applyTo
  rw [if_pos ((Selector.isMatch_iff arg e.suite.name).mpr h), Selector.disables_eq,
    Selector.filter_eq hcut]

theorem applyTo_of_not_matches (h : ¬ Matches arg e.suite.name) :
    (Selector.ofArgument arg).applyTo e = e := by
  unfold Selector.applyTo
  rw [if_neg (mt (Selector.isMatch_iff arg e.suite.name).mp h)]

variable (args : List Bytes)

theorem applyAll_suite : (applyAll args e).suite = e.suite := by
  induction args generalizing e with
  | nil => rfl
  | cons arg args ih => exact (ih _).trans (applyTo_suite arg e)

theorem applyAll_of_not_matches (h : ∀ arg ∈ args, ¬ Matches arg e.suite.name) :
    applyAll args e = e := by
  induction args with
  | nil => rfl
  | cons arg args ih =>
    rw [List.forall_mem_cons] at h
    rw [applyAll_cons, applyTo_of_not_matches arg e h.1]
    exact ih h.2

end

/-! ## The last argument that matches -/

/-- No argument behind this one matches. -/
def IsLastMatch (args : List Bytes) (name arg : Bytes) : Prop :=
  ∃ before after, args = before ++ arg :: after ∧ Matches arg name ∧
    ∀ later ∈ after, ¬ Matches later name

theorem isLastMatch_or_none (args : List Bytes) (name : Bytes) :
    (∃ arg, IsLastMatch args name arg) ∨ ∀ arg ∈ args, ¬ Matches arg name := by
  have hnot {arg : Bytes} (h : (Selector.ofArgument arg).isMatch name = false) :
      ¬ Matches arg name := by
    rw [← Selector.isMatch_iff, h]
    decide
  rcases Search.last?_cases (fun arg => (Selector.ofArgument arg).isMatch name) args with
    ⟨-, hnone⟩ | ⟨before, arg, after, hargs, harg, hafter, -⟩
  · exact Or.inr fun arg hmem => hnot (hnone arg hmem)
  · exact Or.inl ⟨arg, before, after, hargs, (Selector.isMatch_iff arg name).mp harg,
      fun later hmem => hnot (hafter later hmem)⟩

theorem IsLastMatch.applyAll_eq {args : List Bytes} {arg front back : Bytes} {e : Entry}
    (h : IsLastMatch args e.suite.name arg) (hcut : CutAtDot arg front back) :
    (applyAll args e).enabled = !isExclusion arg ∧ (applyAll args e).filter = back := by
  obtain ⟨before, after, rfl, hmatch, hafter⟩ := h
  have hsuite := applyAll_suite e before
  have hstep := applyTo_of_matches arg (applyAll before e) (hsuite ▸ hmatch) hcut
  have hrest := applyAll_of_not_matches
    { applyAll before e with enabled := !isExclusion arg, filter := back } after
    (fun later hmem => hsuite ▸ hafter later hmem)
  rw [applyAll_append, applyAll_cons, hstep, hrest]
  exact ⟨rfl, rfl⟩

/-- What the arguments make of an entry, said from the last one that matches its suite. -/
structure DecidedByLast (args : List Bytes) (e e' : Entry) : Prop where
  suite : e'.suite = e.suite
  enabled : e'.enabled = true ↔
    (∃ arg, IsLastMatch args e.suite.name arg ∧ arg.head? ≠ some hyphen) ∨
      (∀ arg ∈ args, ¬ Matches arg e.suite.name) ∧ e.enabled = true ∧
        ∀ arg ∈ args, arg.head? = some hyphen
  filter : ∀ arg front back, IsLastMatch args e.suite.name arg → CutAtDot arg front back →
    e'.filter = back
  keptFilter : (∀ arg ∈ args, ¬ Matches arg e.suite.name) → e'.filter = e.filter

theorem prepare_suite (args : List Bytes) (e : Entry) : (prepare args e).suite = e.suite := by
  unfold prepare
  split <;> rfl

theorem prepare_filter (args : List Bytes) (e : Entry) : (prepare args e).filter = e.filter := by
  unfold prepare
  split <;> rfl

theorem prepare_enabled (args : List Bytes) (e : Entry) :
    (prepare args e).enabled = true ↔ e.enabled = true ∧ ∀ arg ∈ args, arg.head? = some hyphen := by
  have hall : args.any (!isExclusion ·) = false ↔ ∀ arg ∈ args, arg.head? = some hyphen := by
    simp [isExclusion]
  rw [← hall]
  unfold prepare
  split <;> simp_all

theorem decidedByLast_applyAll (args : List Bytes) (e : Entry) :
    DecidedByLast args e (applyAll args (prepare args e)) := by
  have hname : (prepare args e).suite.name = e.suite.name := by rw [prepare_suite]
  -- The last match sets the entry anew, whatever was decided before.
  have hlast {arg front back : Bytes} (h : IsLastMatch args e.suite.name arg)
      (hcut : CutAtDot arg front back) :
      (applyAll args (prepare args e)).enabled = !isExclusion arg ∧
        (applyAll args (prepare args e)).filter = back :=
    IsLastMatch.applyAll_eq (hname ▸ h) hcut
  -- Only where nothing matches is it left as the arguments found it.
  have hkept (h : ∀ arg ∈ args, ¬ Matches arg e.suite.name) :
      applyAll args (prepare args e) = prepare args e := applyAll_of_not_matches _ _ (hname ▸ h)
  refine ⟨by rw [applyAll_suite, prepare_suite], ?enabled, fun _ _ _ h hcut => (hlast h hcut).2,
    fun h => by rw [hkept h, prepare_filter]⟩
  case enabled =>
    constructor
    · intro henabled
      rcases isLastMatch_or_none args e.suite.name with ⟨arg, h⟩ | hnone
      · rw [(hlast h (cutAtDot_self arg)).1] at henabled
        exact Or.inl ⟨arg, h, by simpa [isExclusion] using henabled⟩
      · rw [hkept hnone, prepare_enabled] at henabled
        exact Or.inr ⟨hnone, henabled⟩
    · rintro (⟨arg, h, hhead⟩ | ⟨hnone, hkeeps⟩)
      · rw [(hlast h (cutAtDot_self arg)).1]
        simpa [isExclusion] using hhead
      · rw [hkept hnone, prepare_enabled]
        exact hkeeps

/-! ## The selection of a run -/

/-- An argument that has no meaning of its own to a run of tests. -/
structure IsSelector (arg : Bytes) : Prop where
  nonempty : arg ≠ []
  noNul : (0 : UInt8) ∉ arg
  notHelp : Session.isHelp arg = false
  notVerbose : Session.isVerbose arg = false

instance : DecidablePred IsSelector := fun arg =>
  decidable_of_iff
    (arg ≠ [] ∧ 0 ∉ arg ∧ Session.isHelp arg = false ∧ Session.isVerbose arg = false)
    ⟨fun ⟨h₁, h₂, h₃, h₄⟩ => ⟨h₁, h₂, h₃, h₄⟩, fun h => ⟨h.1, h.2, h.3, h.4⟩⟩

theorem Session.runTests_entries (s : Session) (args : List Bytes)
    (hargs : ∀ a ∈ args, isHelp a.untilNul = false) :
    (s.runTests args).1.entries = (select (selectors (args.map Bytes.untilNul)) s.entries).1 := by
  have hno : (args.map Bytes.untilNul).any isHelp = false := by simpa using hargs
  unfold runTests
  simp only [hno, Bool.false_eq_true, if_false]
  cases selectors (args.map Bytes.untilNul) <;> rfl

theorem IsSelector.untilNul {arg : Bytes} (h : IsSelector arg) : arg.untilNul = arg :=
  List.takeWhile_eq_self_iff.mpr fun _ hb => bne_iff_ne.mpr fun hzero => h.noNul (hzero ▸ hb)

theorem Session.runTests_entries_of_selectors (s : Session) {args : List Bytes}
    (harg : ∀ arg ∈ args, IsSelector arg) :
    (s.runTests args).1.entries = (select args s.entries).1 := by
  have hhelp : ∀ a ∈ args, isHelp a.untilNul = false := by
    intro a ha
    rw [(harg a ha).untilNul]
    exact (harg a ha).notHelp
  have huntil : args.map Bytes.untilNul = args :=
    (List.map_congr_left fun a ha => (harg a ha).untilNul).trans (List.map_id args)
  have hselectors : Session.selectors args = args :=
    List.filter_eq_self.mpr fun arg hmem => by
      simp [(harg arg hmem).notVerbose, (harg arg hmem).nonempty]
  rw [s.runTests_entries args hhelp, huntil, hselectors]

theorem select_decided (args : List Bytes) (entries : List Entry) :
    List.Forall₂ (DecidedByLast args) entries (select args entries).1 := by
  rw [select_eq, List.forall₂_map_right_iff, List.forall₂_same]
  exact fun e _ => decidedByLast_applyAll args e

/-- **Selection by the last match.** Each entry is decided by the last argument that matches its
suite, in the order of the register, and a run of tests goes by that selection. -/
theorem select_by_last_match (s : Session) (args : List Bytes) :
    List.Forall₂ (DecidedByLast args) s.entries (select args s.entries).1 ∧
      ((∀ arg ∈ args, IsSelector arg) →
        (s.runTests args).1.entries = (select args s.entries).1) :=
  ⟨select_decided args s.entries, s.runTests_entries_of_selectors⟩

theorem select_by_last_match_contradictory :
    let s : Session :=
      { entries :=
          [{ suite := ⟨ascii "paths", [], [], [], []⟩ },
            { suite := ⟨ascii "charset", [], [], [], []⟩, filter := ascii "old" }] }
    let args := [ascii "path.con", ascii "-Test:PATHS", ascii "test:paths.abs.x"]
    (∀ arg ∈ args, IsSelector arg) ∧
      List.Forall₂ (DecidedByLast args) s.entries (s.runTests args).1.entries ∧
      (s.runTests args).1.entries.map (fun e => (e.enabled, e.filter)) =
        [(true, ascii "abs.x"), (false, ascii "old")] := by
  intro s args
  have hargs : ∀ arg ∈ args, IsSelector arg := by decide +kernel
  obtain ⟨hdecided, hrun⟩ := select_by_last_match s args
  rw [hrun hargs]
  exact ⟨hargs, hdecided, by decide +kernel⟩

end LexicalPath.Testing
