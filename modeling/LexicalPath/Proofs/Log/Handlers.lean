import LexicalPath.Log.Basic
import Mathlib.Data.List.Count
import Mathlib.Data.List.Induction
import Mathlib.Data.List.Nodup

/-!
# The handlers of a log

The table of handlers is bounded and holds nobody twice. A callback gets into it only by being set,
which takes the old one out first, so there is at most one. This holds after every row of commands,
and with it each record goes once to everyone in the table, or to the console if nobody is there.
-/

namespace LexicalPath.Log

/-! ## The table -/

structure Sound (log : Log) : Prop where
  bounded : log.handlers.length ≤ capacity
  nodup : log.handlers.Nodup
  oneCallback : log.handlers.countP Handler.isCallback ≤ 1

/-- The handlers that were added and not set. -/
def listeners (log : Log) : List Handler := log.handlers.filter (!·.isCallback)

theorem eraseP_eq_filter {α : Type} (p : α → Bool) (l : List α) (h : l.countP p ≤ 1) :
    l.eraseP p = l.filter (!p ·) := by
  induction l with
  | nil => rfl
  | cons a l ih =>
    cases ha : p a with
    | true =>
      have hnone : l.countP p = 0 := by
        rw [List.countP_cons_of_pos ha] at h
        omega
      have hrest : l.filter (!p ·) = l := by
        rw [List.filter_eq_self]
        intro b hb
        simpa using List.countP_eq_zero.mp hnone b hb
      simp [ha, hrest]
    | false =>
      rw [List.countP_cons_of_neg (by simp [ha])] at h
      simp [ha, ih h]

theorem listeners_countP (log : Log) : log.listeners.countP Handler.isCallback = 0 := by
  rw [List.countP_eq_zero]
  intro h hmem
  simpa using (List.mem_filter.mp hmem).2

section

variable (log : Log) (h : log.Sound)

include h

theorem Sound.of_sublist (handlers : List Handler) (hsub : handlers.Sublist log.handlers) :
    Sound { log with handlers := handlers } where
  bounded := Nat.le_trans hsub.length_le h.bounded
  nodup := hsub.nodup h.nodup
  oneCallback := Nat.le_trans hsub.countP_le h.oneCallback

theorem remove_handlers (out : Handler) :
    (log.remove out).handlers = log.handlers.filter (· != out) :=
  h.nodup.erase_eq_filter out

theorem eraseP_isCallback : log.handlers.eraseP Handler.isCallback = log.listeners :=
  eraseP_eq_filter _ _ h.oneCallback

theorem add_sound (new : Handler)
    (hnew : new.isCallback = true → log.handlers.countP Handler.isCallback = 0) :
    (log.add new).Sound := by
  unfold add
  split
  · next hroom =>
    refine ⟨?_, ?_, ?_⟩
    · rw [List.length_append, List.length_singleton]
      exact hroom.1
    · simpa using h.nodup.concat hroom.2
    · have hold := h.oneCallback
      rw [List.countP_append, List.countP_singleton]
      split
      · next hcallback => simp [hnew hcallback]
      · exact hold
  · exact h

theorem setCallback_sound (id : Option Nat) : (log.setCallback id).Sound := by
  have hout := Sound.of_sublist log h log.listeners List.filter_sublist
  unfold setCallback
  rw [eraseP_isCallback log h]
  cases id with
  | none => exact hout
  | some id => exact add_sound _ hout _ fun _ => listeners_countP log

theorem setCallback_handlers (id : Option Nat) :
    (log.setCallback id).handlers = log.listeners ++
      if log.listeners.length < capacity then id.toList.map Handler.callback else [] := by
  unfold setCallback
  rw [eraseP_isCallback log h]
  cases id with
  | none => simp
  | some id =>
    have hnew : Handler.callback id ∉ log.listeners := fun hmem =>
      List.countP_eq_zero.mp (listeners_countP log) _ hmem rfl
    unfold add
    by_cases hroom : log.listeners.length < capacity
    · simp [hroom, hnew]
    · simp [hroom]

end

/-! ## Runs -/

namespace Command

/-- The function that calls a callback belongs to the log, and nobody else can add it. -/
def AddsNoCallback : Command → Prop
  | add h => h.isCallback = false
  | _ => True

def filter? : Command → Option Nat
  | setFilter rank => some rank
  | _ => none

end Command

theorem step_sound (log : Log) (h : log.Sound) (c : Command) (hc : c.AddsNoCallback) :
    (log.step c).1.Sound := by
  cases c with
  | setFilter rank => exact ⟨h.bounded, h.nodup, h.oneCallback⟩
  | setCallback id => exact setCallback_sound log h id
  | add new =>
    have hlistener : new.isCallback = false := hc
    exact add_sound log h new fun hnew => absurd hnew (by simp [hlistener])
  | remove out => exact Sound.of_sublist log h _ List.erase_sublist
  | record severity message => exact h

theorem run_sound (log : Log) (h : log.Sound) (commands : List Command)
    (hc : ∀ c ∈ commands, c.AddsNoCallback) : (log.run commands).Sound := by
  induction commands generalizing log with
  | nil => exact h
  | cons c commands ih =>
    rw [List.forall_mem_cons] at hc
    exact ih _ (step_sound log h c hc.1) hc.2

theorem add_filter (log : Log) (h : Handler) : (log.add h).filter = log.filter := by
  unfold add
  split <;> rfl

theorem step_filter (log : Log) (c : Command) :
    (log.step c).1.filter = c.filter?.getD log.filter := by
  cases c with
  | setCallback id =>
    cases id with
    | none => rfl
    | some id => exact add_filter _ _
  | add h => exact add_filter log h
  | _ => rfl

theorem run_filter (log : Log) (commands : List Command) :
    (log.run commands).filter = (commands.filterMap Command.filter?).getLast?.getD log.filter := by
  induction commands using List.reverseRecOn with
  | nil => rfl
  | append_singleton commands c ih =>
    have hrun : log.run (commands ++ [c]) = ((log.run commands).step c).1 := by simp [run]
    rw [hrun, step_filter, ih, List.filterMap_append, List.getLast?_append]
    cases hfilter : c.filter? <;> simp [hfilter]

/-! ## Records -/

def lineEnd : Bytes := [0x0A]

def yellow : Bytes := [0x1B, 0x5B, 0x39, 0x33, 0x6D]

def red : Bytes := [0x1B, 0x5B, 0x39, 0x31, 0x6D]

def plain : Bytes := [0x1B, 0x5B, 0x30, 0x6D]

/-- A line about a text on the console. Nothing but its colour and its stream, which is that of
errors for an error only, depends on the severity. -/
inductive Shows (text : Bytes) : Severity → Output → Prop where
  | info : Shows text .info { out := text ++ lineEnd }
  | warn : Shows text .warn { out := yellow ++ text ++ plain ++ lineEnd }
  | error : Shows text .error { err := red ++ text ++ plain ++ lineEnd }

/-- What becomes of a record with this text. -/
structure Delivers (log : Log) (severity : Severity) (text : Bytes) (d : Delivery) : Prop where
  dropped : d = {} ↔ severity.rank < log.filter
  inOrder : log.filter ≤ severity.rank → d.calls = log.handlers.map fun h => (h, severity, text)
  once : log.filter ≤ severity.rank → ∀ h ∈ log.handlers, (d.calls.map Prod.fst).count h = 1
  console : d.console ≠ {} ↔ log.filter ≤ severity.rank ∧ log.handlers = []
  shown : d.console ≠ {} → Shows text severity d.console

theorem consoleLine_shows (severity : Severity) (text : Bytes) :
    Shows text severity (consoleLine severity text) := by
  have hyellow : ascii "\x1b[93m" = yellow := by decide
  have hred : ascii "\x1b[91m" = red := by decide
  have hplain : ascii "\x1b[0m\n" = plain ++ lineEnd := by decide
  cases severity with
  | info => exact .info
  | warn =>
    rw [consoleLine, hyellow, hplain, ← List.append_assoc]
    exact .warn
  | error =>
    rw [consoleLine, hred, hplain, ← List.append_assoc]
    exact .error

theorem Shows.ne_empty (text : Bytes) (severity : Severity) (o : Output)
    (h : Shows text severity o) : o ≠ {} := by
  cases h <;> simp [lineEnd]

theorem deliver_delivers (log : Log) (h : log.Sound) (severity : Severity) (text : Bytes) :
    log.Delivers severity text (log.deliver severity text) := by
  unfold deliver
  by_cases hbelow : severity.rank < log.filter
  · have hfilter : ¬ log.filter ≤ severity.rank := Nat.not_le.mpr hbelow
    rw [if_pos hbelow]
    constructor <;> simp [hbelow, hfilter]
  · have hfilter : log.filter ≤ severity.rank := Nat.not_lt.mp hbelow
    rw [if_neg hbelow]
    by_cases hnobody : log.handlers = []
    · rw [hnobody, List.isEmpty_nil, if_pos rfl]
      have hshows := consoleLine_shows severity text
      have hconsole := hshows.ne_empty
      constructor <;> simp [hnobody, hfilter, hshows, hconsole]
    · rw [if_neg (by simpa using hnobody)]
      constructor
      case once =>
        intro _ handler hmem
        rw [List.map_map, show Prod.fst ∘ (fun h => (h, severity, text)) = id from rfl, List.map_id]
        exact List.count_eq_one_of_mem h.nodup hmem
      all_goals simp [hnobody, hfilter]

/-- **The log over a run.** After every row of commands the table is sound, taking somebody out of
it keeps the order of the others, and the next record goes to those who are in it then. -/
theorem run_delivers_to_table (commands : List Command) (hc : ∀ c ∈ commands, c.AddsNoCallback) :
    ((run {} commands).Sound ∧
      (run {} commands).filter = (commands.filterMap Command.filter?).getLast?.getD 0) ∧
    (∀ out, (step (run {} commands) (.remove out)).1.handlers =
      (run {} commands).handlers.filter (· != out)) ∧
    (∀ id, (step (run {} commands) (.setCallback id)).1.handlers = (run {} commands).listeners ++
      if (run {} commands).listeners.length < capacity then id.toList.map Handler.callback else []) ∧
    ∀ severity message, Delivers (run {} commands) severity
      (message.render.take Message.lineLimit)
      (step (run {} commands) (.record severity message)).2 := by
  have hempty : Sound {} := ⟨by decide, by decide, by decide⟩
  have hsound := run_sound {} hempty commands hc
  refine ⟨⟨hsound, run_filter {} commands⟩, remove_handlers _ hsound,
    setCallback_handlers _ hsound, ?_⟩
  intro severity message
  exact deliver_delivers _ hsound severity _

theorem run_delivers_to_two :
    (∀ c ∈ [Command.setCallback (some 0), .add (.listener 1 0), .setCallback (some 1)],
      c.AddsNoCallback) ∧
    (run {} [.setCallback (some 0), .add (.listener 1 0), .setCallback (some 1)]).handlers =
      [.listener 1 0, .callback 1] ∧
    Delivers (run {} [.setCallback (some 0), .add (.listener 1 0), .setCallback (some 1)]) .warn
      [0x61]
      { calls := [(.listener 1 0, .warn, [0x61]), (.callback 1, .warn, [0x61])] } ∧
    (∀ c ∈ [Command.add (.listener 1 0), .setFilter 1, .remove (.listener 1 0)],
      c.AddsNoCallback) ∧
    (run {} [.add (.listener 1 0), .setFilter 1, .remove (.listener 1 0)]).handlers = [] ∧
    Delivers (run {} [.add (.listener 1 0), .setFilter 1, .remove (.listener 1 0)]) .info [0x61]
      {} ∧
    Delivers (run {} [.add (.listener 1 0), .setFilter 1, .remove (.listener 1 0)]) .error [0x61]
      { console := { err := red ++ [0x61] ++ plain ++ lineEnd } } := by
  have htwo : ∀ c ∈ [Command.setCallback (some 0), .add (.listener 1 0), .setCallback (some 1)],
      c.AddsNoCallback := by
    simp [Command.AddsNoCallback, Handler.isCallback]
  have hnobody : ∀ c ∈ [Command.add (.listener 1 0), .setFilter 1, .remove (.listener 1 0)],
      c.AddsNoCallback := by
    simp [Command.AddsNoCallback, Handler.isCallback]
  obtain ⟨-, -, -, hrecord⟩ := run_delivers_to_table _ htwo
  obtain ⟨-, -, -, hconsole⟩ := run_delivers_to_table _ hnobody
  exact ⟨htwo, by decide, hrecord .warn [.bytes [0x61]], hnobody, by decide,
    hconsole .info [.bytes [0x61]], hconsole .error [.bytes [0x61]]⟩

end LexicalPath.Log
