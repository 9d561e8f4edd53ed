import LspGraph.Channels
import LspGraph.Keys
import LspGraph.Runs
import LspGraph.Worker

/-! A session (`main.rs`): the interface's loop and the worker's, joined by two channels. -/
namespace LspGraph
open Runs

/-- Where the worker's thread is. -/
inductive WorkerState where
  | starting
  | idle
  | serving (r : Request)
  /-- The loop has ended; the engine is being shut down. -/
  | stopping
  | finished
  deriving DecidableEq

/-- Where the interface's loop is: receiving events, waiting for a key, or past its end. -/
inductive LoopState where
  | draining
  | polling
  | left
  deriving DecidableEq

structure Session (σ : Type*) where
  app : App
  /-- What is sent to a worker that has finished stays in the queue, received by nobody. -/
  requests : Channel Request
  events : Channel Event
  worker : WorkerState
  engine : σ
  loop : LoopState

inductive SessionAction where
  /-- The worker's first event. -/
  | announce
  | take
  | serve
  /-- `recv` fails: the interface has dropped its end and the queue is empty. -/
  | hangUp
  | finish
  /-- The interface receives an event. -/
  | event
  /-- `try_recv` finds nothing, or the worker gone. -/
  | drained
  | key (k : KeyEvent)
  | noKey
  /-- Drawing or reading the terminal fails. -/
  | fail
  deriving DecidableEq

/-- The steps with which the interface's loop ends a round. -/
def SessionAction.isInput : SessionAction → Bool
  | .key _ | .noKey | .fail => true
  | _ => false

namespace Session

variable {σ : Type*}

/-- The steps of a run so far. -/
abbrev History (σ : Type*) := List (Session σ × SessionAction)

def start (engine : σ) : Session σ := ⟨.new, .empty, .empty, .starting, engine, .draining⟩

/-- The interface's loop ends: it sends `Shutdown` and drops its end of the channel. -/
def leave (s : Session σ) : Session σ :=
  { s with requests := s.requests.send [.shutdown], loop := .left }

/-- The end of a round of the loop. -/
def checkQuit (s : Session σ) : Session σ :=
  if s.app.shouldQuit then s.leave else { s with loop := .draining }

variable (ops : EngineOps σ)

/-- The transitions; `none` where the action is not the next one of its thread. -/
def step (s : Session σ) : SessionAction → Option (Session σ)
  | .announce =>
    if s.worker = .starting then
      some { s with events := s.events.send [.ready (ops.canSearch s.engine)], worker := .idle }
    else none
  -- `recv`
  | .take =>
    if s.worker = .idle then
      s.requests.receive.map fun (r, c) => { s with requests := c, worker := .serving r }
    else none
  | .serve =>
    match s.worker with
    | .serving r =>
      let (evs, goesOn, engine) := serveRequest ops s.engine r
      some { s with events := s.events.send evs, engine := engine,
                    worker := if goesOn then .idle else .stopping }
    | _ => none
  | .hangUp =>
    if s.worker = .idle ∧ s.loop = .left ∧ s.requests.queue = [] then
      some { s with worker := .stopping }
    else none
  | .finish => if s.worker = .stopping then some { s with worker := .finished } else none
  -- `try_recv`, and the requests of the reducer sent on
  | .event =>
    if s.loop = .draining then
      s.events.receive.map fun (ev, c) =>
        { s with app := (s.app.onEvent ev).2, events := c,
                 requests := s.requests.send (s.app.onEvent ev).1 }
    else none
  | .drained =>
    if s.loop = .draining ∧ s.events.queue = [] then
      some { s with
        -- `Disconnected` once the worker has dropped its sender
        app := { s.app with shouldQuit := s.app.shouldQuit || s.worker = .finished }
        loop := .polling }
    else none
  | .key k =>
    if s.loop = .polling then
      some { s with app := (handleKey s.app k).2,
                    requests := s.requests.send (handleKey s.app k).1 }.checkQuit
    else none
  | .noKey => if s.loop = .polling then some s.checkQuit else none
  | .fail => if s.loop = .left then none else some s.leave

/-- What a step can do. -/
inductive StepCase (s : Session σ) : SessionAction → Session σ → Prop where
  | announce : s.worker = .starting → StepCase s .announce
      { s with events := s.events.send [.ready (ops.canSearch s.engine)], worker := .idle }
  | take (r : Request) (c : Channel Request) : s.worker = .idle →
      s.requests.receive = some (r, c) →
      StepCase s .take { s with requests := c, worker := .serving r }
  | serve (r : Request) : s.worker = .serving r → StepCase s .serve
      { s with events := s.events.send (serveRequest ops s.engine r).1
               engine := (serveRequest ops s.engine r).2.2
               worker := if (serveRequest ops s.engine r).2.1 then .idle else .stopping }
  | hangUp : s.worker = .idle → s.loop = .left → s.requests.queue = [] →
      StepCase s .hangUp { s with worker := .stopping }
  | finish : s.worker = .stopping → StepCase s .finish { s with worker := .finished }
  | event (ev : Event) (c : Channel Event) (reqs : List Request) (app : App) :
      s.loop = .draining → s.events.receive = some (ev, c) → EventCase s.app ev reqs app →
      StepCase s .event { s with app := app, events := c, requests := s.requests.send reqs }
  | drained (quit : Bool) : s.events.queue = [] → StepCase s .drained
      { s with app := { s.app with shouldQuit := s.app.shouldQuit || quit }, loop := .polling }
  | key (a : SessionAction) (reqs : List Request) (app : App) (tail : List Request)
      (loop : LoopState) : a.isInput = true → KeyCase s.app reqs app →
      tail = [] ∧ loop = .draining ∨ tail = [.shutdown] ∧ loop = .left →
      StepCase s a
        { s with app := app, requests := s.requests.send (reqs ++ tail), loop := loop }

variable {ops} {s t : Session σ}

theorem checkQuit_case {a : SessionAction} (ha : a.isInput = true) {reqs : List Request}
    {app : App} (hk : KeyCase s.app reqs app) :
    StepCase ops s a { s with app := app, requests := s.requests.send reqs }.checkQuit := by
  unfold checkQuit
  split_ifs
  · have hc : StepCase ops s a _ := .key a reqs app [.shutdown] .left ha hk (.inr ⟨rfl, rfl⟩)
    rwa [← Channel.send_send] at hc
  · have hc : StepCase ops s a _ := .key a reqs app [] .draining ha hk (.inl ⟨rfl, rfl⟩)
    rwa [List.append_nil] at hc

theorem expand_notMem_tail {tail : List Request} {loop : LoopState}
    (h : tail = [] ∧ loop = .draining ∨ tail = [.shutdown] ∧ loop = .left) (id : NodeId) :
    .expand id ∉ tail := by
  rcases h with ⟨rfl, -⟩ | ⟨rfl, -⟩ <;> simp

theorem step_case {a : SessionAction} (h : s.step ops a = some t) : StepCase ops s a t := by
  have hsame : { s with requests := s.requests.send [] } = s := by rw [Channel.send_nil]
  cases a with
  | announce =>
    obtain ⟨hw, ⟨⟩⟩ := Option.ite_none_right_eq_some.mp h
    exact .announce hw
  | take =>
    obtain ⟨hw, h⟩ := Option.ite_none_right_eq_some.mp h
    obtain ⟨⟨r, c⟩, hr, ⟨⟩⟩ := Option.map_eq_some_iff.mp h
    exact .take r c hw hr
  | serve =>
    cases hw : s.worker with
    | serving r =>
      simp only [step, hw] at h
      obtain rfl := Option.some.inj h
      exact .serve r hw
    | _ => simp [step, hw] at h
  | hangUp =>
    obtain ⟨⟨hw, hl, hq⟩, ⟨⟩⟩ := Option.ite_none_right_eq_some.mp h
    exact .hangUp hw hl hq
  | finish =>
    obtain ⟨hw, ⟨⟩⟩ := Option.ite_none_right_eq_some.mp h
    exact .finish hw
  | event =>
    obtain ⟨hl, h⟩ := Option.ite_none_right_eq_some.mp h
    obtain ⟨⟨ev, c⟩, hr, ⟨⟩⟩ := Option.map_eq_some_iff.mp h
    exact .event ev c _ _ hl hr (onEvent_case s.app ev)
  | drained =>
    obtain ⟨⟨-, hq⟩, ⟨⟩⟩ := Option.ite_none_right_eq_some.mp h
    exact .drained _ hq
  | key k =>
    obtain ⟨-, ⟨⟩⟩ := Option.ite_none_right_eq_some.mp h
    exact checkQuit_case rfl (handleKey_case s.app k)
  | noKey =>
    obtain ⟨-, ⟨⟩⟩ := Option.ite_none_right_eq_some.mp h
    have hc : StepCase ops s .noKey _ := checkQuit_case rfl (.same s.app)
    rwa [hsame] at hc
  | fail =>
    obtain ⟨-, ⟨⟩⟩ := Option.ite_none_left_eq_some.mp h
    exact .key .fail [] s.app [.shutdown] .left rfl (.same s.app) (.inr ⟨rfl, rfl⟩)

/-- A search, and the seeding of what it found. -/
def searchAndSeed : List SessionAction :=
  [.announce, .event, .drained, .key ⟨.char 'f', false⟩, .drained, .key ⟨.enter, false⟩,
    .take, .serve, .event, .drained, .key ⟨.enter, false⟩, .take, .serve, .event]

/-- The same, up to the answered expansion. -/
def searchSeedExpand : List SessionAction :=
  searchAndSeed ++ [.take, .serve, .event]

end Session

end LspGraph
