import LexicalPath.Proofs.Log.Handlers

/-!
# The callback of a log

A callback takes a place in the table like any listener. Setting it takes the old one out first, so
it takes effect exactly if the listeners have left a place free. From then on it is called until
the next one is set, whatever listeners come and go.
-/

namespace LexicalPath.Log

/-! ## Setting a callback -/

def callbacks (log : Log) : List Handler := log.handlers.filter Handler.isCallback

section

variable (log : Log) (h : log.Sound) (id : Option Nat)

include h

theorem setCallback_listeners : (log.setCallback id).listeners = log.listeners := by
  have hold : log.listeners.filter (!·.isCallback) = log.listeners := by simp [listeners]
  have hnew : (id.toList.map Handler.callback).filter (!·.isCallback) = [] := by
    cases id <;> simp [Handler.isCallback]
  rw [listeners, setCallback_handlers log h id, List.filter_append, hold]
  split <;> simp [hnew]

theorem setCallback_callbacks :
    (log.setCallback id).callbacks =
      if log.listeners.length < capacity then id.toList.map Handler.callback else [] := by
  have hold : log.listeners.filter Handler.isCallback = [] := by simp [listeners]
  have hnew : (id.toList.map Handler.callback).filter Handler.isCallback =
      id.toList.map Handler.callback := by
    cases id <;> simp [Handler.isCallback]
  rw [callbacks, setCallback_handlers log h id, List.filter_append, hold, List.nil_append]
  split
  · exact hnew
  · rfl

end

/-! ## Runs that set no callback -/

/-- Only the log itself can take a callback out, and it does so to set another one. -/
def Command.KeepsCallback : Command → Prop
  | setCallback _ => False
  | add h => h.isCallback = false
  | remove h => h.isCallback = false
  | _ => True

theorem add_callbacks (log : Log) (new : Handler) (hnew : new.isCallback = false) :
    (log.add new).callbacks = log.callbacks := by
  unfold add callbacks
  split
  · simp [hnew]
  · rfl

theorem remove_callbacks (log : Log) (h : log.Sound) (out : Handler)
    (hout : out.isCallback = false) : (log.remove out).callbacks = log.callbacks := by
  unfold callbacks
  rw [remove_handlers log h, List.filter_filter]
  apply List.filter_congr
  intro handler _
  cases hcallback : handler.isCallback with
  | false => rfl
  | true =>
    have hne : handler ≠ out := by
      rintro rfl
      rw [hout] at hcallback
      cases hcallback
    simpa using hne

theorem Command.KeepsCallback.addsNoCallback {c : Command} (hc : c.KeepsCallback) :
    c.AddsNoCallback := by
  cases c with
  | add h => exact hc
  | _ => trivial

theorem step_callbacks (log : Log) (h : log.Sound) (c : Command) (hc : c.KeepsCallback) :
    (log.step c).1.callbacks = log.callbacks := by
  cases c with
  | setCallback id => exact hc.elim
  | add new => exact add_callbacks log new hc
  | remove out => exact remove_callbacks log h out hc
  | setFilter rank => rfl
  | record severity message => rfl

theorem run_callbacks (log : Log) (h : log.Sound) (commands : List Command)
    (hc : ∀ c ∈ commands, c.KeepsCallback) : (log.run commands).callbacks = log.callbacks := by
  induction commands generalizing log with
  | nil => rfl
  | cons c commands ih =>
    rw [List.forall_mem_cons] at hc
    have hsound := step_sound log h c hc.1.addsNoCallback
    exact (ih _ hsound hc.2).trans (step_callbacks log h c hc.1)

/-! ## Records -/

theorem deliver_calls (log : Log) (severity : Severity) (text : Bytes)
    (hpass : log.filter ≤ severity.rank) :
    (log.deliver severity text).calls = log.handlers.map fun h => (h, severity, text) := by
  unfold deliver
  rw [if_neg (Nat.not_lt.mpr hpass)]
  split
  · next hnobody => simp [List.isEmpty_iff.mp hnobody]
  · rfl

theorem deliver_parts (log : Log) (severity : Severity) (text : Bytes)
    (hpass : log.filter ≤ severity.rank) :
    (log.deliver severity text).calls.filter (·.1.isCallback) =
        log.callbacks.map (fun h => (h, severity, text)) ∧
      (log.deliver severity text).calls.filter (!·.1.isCallback) =
        log.listeners.map (fun h => (h, severity, text)) := by
  rw [deliver_calls log severity text hpass, List.filter_map, List.filter_map]
  exact ⟨rfl, rfl⟩

/-- Of all callbacks only `id` is called, once and with this record. -/
def Delivery.CallsBack (d : Delivery) (severity : Severity) (text : Bytes) (id : Option Nat) :
    Prop :=
  d.calls.filter (·.1.isCallback) = id.toList.map fun id => (.callback id, severity, text)

/-- **Setting a callback takes effect** on every record that passes the filter until the next one
is set, exactly if there is a place for it beside the listeners. No earlier callback is called in
any case, and the listeners are called as before. -/
theorem setCallback_takes_effect_iff (commands between : List Command)
    (hc : ∀ c ∈ commands, c.AddsNoCallback) (hb : ∀ c ∈ between, c.KeepsCallback)
    (id : Option Nat) (severity : Severity) (message : Message) :
    let log := run {} commands
    let log' := run (log.setCallback id) between
    let text := message.render.take Message.lineLimit
    let d := (step log' (.record severity message)).2
    (log.setCallback id).listeners = log.listeners ∧ log'.listeners.Nodup ∧
      (log'.filter ≤ severity.rank →
        (d.CallsBack severity text id ↔ id = none ∨ log.listeners.length < capacity) ∧
          (d.CallsBack severity text id ∨ d.CallsBack severity text none) ∧
          d.calls.filter (!·.1.isCallback) = log'.listeners.map fun h => (h, severity, text)) := by
  intro log log' text d
  have hlog : log.Sound := run_sound {} ⟨by decide, by decide, by decide⟩ commands hc
  have hset : (log.setCallback id).Sound := setCallback_sound log hlog id
  have hlog' : log'.Sound := run_sound _ hset between fun c h => (hb c h).addsNoCallback
  have hcallbacks : log'.callbacks =
      if log.listeners.length < capacity then id.toList.map Handler.callback else [] :=
    (run_callbacks _ hset between hb).trans (setCallback_callbacks log hlog id)
  refine ⟨setCallback_listeners log hlog id, hlog'.nodup.filter _, fun hpass => ?_⟩
  obtain ⟨hback, hlisteners⟩ := deliver_parts log' severity text hpass
  rw [hcallbacks] at hback
  have hcalled (other : Option Nat) : d.CallsBack severity text other ↔
      (if log.listeners.length < capacity then id else none) = other := by
    unfold Delivery.CallsBack
    rw [show d.calls.filter (·.1.isCallback) = _ from hback]
    split <;> cases id <;> cases other <;> simp
  refine ⟨?_, ?_, hlisteners⟩
  · rw [hcalled]
    cases id <;> simp
  · rw [hcalled, hcalled]
    by_cases hroom : log.listeners.length < capacity <;> simp [hroom]

theorem setCallback_takes_effect_second :
    let log := run {} [.setCallback (some 0), .add (.listener 1 0)]
    let log' := run (log.setCallback (some 1)) [.add (.listener 2 0), .setFilter 1]
    (∀ c ∈ [Command.setCallback (some 0), .add (.listener 1 0)], c.AddsNoCallback) ∧
      (∀ c ∈ [Command.add (.listener 2 0), .setFilter 1], c.KeepsCallback) ∧
      (step log' (.record .warn [.bytes [0x61]])).2.CallsBack .warn [0x61] (some 1) ∧
      (step log' (.record .warn [.bytes [0x61]])).2.calls.filter (!·.1.isCallback) =
        [(.listener 1 0, .warn, [0x61]), (.listener 2 0, .warn, [0x61])] := by
  intro log log'
  have hc : ∀ c ∈ [Command.setCallback (some 0), .add (.listener 1 0)], c.AddsNoCallback := by
    simp [Command.AddsNoCallback, Handler.isCallback]
  have hb : ∀ c ∈ [Command.add (.listener 2 0), .setFilter 1], c.KeepsCallback := by
    simp [Command.KeepsCallback, Handler.isCallback]
  obtain ⟨-, -, heffect⟩ :=
    setCallback_takes_effect_iff _ _ hc hb (some 1) .warn [.bytes [0x61]]
  obtain ⟨hback, -, hlisteners⟩ := heffect (by decide)
  exact ⟨hc, hb, hback.mpr (Or.inr (by decide)), hlisteners⟩

/-- With as many listeners as the table has places, a callback that is set is not called. -/
theorem setCallback_without_place :
    let commands := (List.range 16).map fun context => Command.add (.listener context 0)
    let log := (run {} commands).setCallback (some 0)
    (∀ c ∈ commands, c.AddsNoCallback) ∧ log.filter ≤ Severity.error.rank ∧
      ((step log (.record .error [])).2.calls.map Prod.fst).count (.callback 0) ≠ 1 := by
  intro commands log
  refine ⟨?_, by decide, by decide⟩
  simp [commands, Command.AddsNoCallback, Handler.isCallback]

end LexicalPath.Log
