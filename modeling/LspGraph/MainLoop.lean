import LspGraph.Session

/-! The loop of `run` (`main.rs`) on any sequence of worker events and terminal events, and the
interface's part of a session as such a loop. -/
namespace LspGraph
open Runs

inductive KeyEventKind where
  | press
  | repeated
  | release
  deriving DecidableEq

/-- A key event as the terminal reports it. -/
structure TerminalKey extends KeyEvent where
  kind : KeyEventKind
  deriving DecidableEq

/-- What the loop meets at its calls, in their order. -/
inductive LoopInput where
  /-- `try_recv` gives an event. -/
  | event (ev : Event)
  /-- `try_recv` gives none, and whether the worker has gone. -/
  | drained (disconnected : Bool)
  /-- `poll` and `read` give a key event. -/
  | key (k : TerminalKey)
  /-- `poll` times out, or `read` gives another kind of event. -/
  | noKey
  /-- Drawing, `poll` or `read` fails. -/
  | fail
  deriving DecidableEq

structure MainLoop where
  app : App
  /-- The requests sent so far. -/
  sent : List Request
  loop : LoopState

namespace MainLoop

def start : MainLoop := ⟨.new, [], .draining⟩

/-- The loop ends, and `Shutdown` is sent. -/
def leave (m : MainLoop) : MainLoop :=
  { m with sent := m.sent ++ [.shutdown], loop := .left }

def checkQuit (m : MainLoop) : MainLoop :=
  if m.app.shouldQuit then m.leave else { m with loop := .draining }

/-- The loop takes an input; `none` where it is at another call. -/
def step (m : MainLoop) : LoopInput → Option MainLoop
  | .event ev =>
    if m.loop = .draining then
      some { m with app := (m.app.onEvent ev).2, sent := m.sent ++ (m.app.onEvent ev).1 }
    else none
  | .drained disconnected =>
    if m.loop = .draining then
      some { m with app := { m.app with shouldQuit := m.app.shouldQuit || disconnected }
                    loop := .polling }
    else none
  | .key k =>
    -- the kind of the event is not looked at
    if m.loop = .polling then
      some { m with app := (handleKey m.app k.toKeyEvent).2
                    sent := m.sent ++ (handleKey m.app k.toKeyEvent).1 }.checkQuit
    else none
  | .noKey => if m.loop = .polling then some m.checkQuit else none
  | .fail => if m.loop = .left then none else some m.leave

end MainLoop

namespace Session

variable {σ : Type*} {ops : EngineOps σ} {s t : Session σ} {h : List (Session σ × SessionAction)}

/-- The interface's part of a session. -/
def mainLoop (s : Session σ) : MainLoop := ⟨s.app, s.requests.sent, s.loop⟩

/-- What the loop meets in a step of the session, the key events being of some kind; `none` where
the step is the worker's. -/
def loopInput (kind : KeyEventKind) (s : Session σ) : SessionAction → Option LoopInput
  | .event => s.events.queue.head?.map .event
  | .drained => some (.drained (s.worker = .finished))
  | .key k => some (.key ⟨k, kind⟩)
  | .noKey => some .noKey
  | .fail => some .fail
  | .announce | .take | .serve | .hangUp | .finish => none

theorem mainLoop_checkQuit (s : Session σ) : s.checkQuit.mainLoop = s.mainLoop.checkQuit := by
  unfold checkQuit MainLoop.checkQuit
  change (if s.app.shouldQuit = true then s.leave else { s with loop := .draining }).mainLoop =
    if s.app.shouldQuit = true then s.mainLoop.leave else { s.mainLoop with loop := .draining }
  split_ifs <;> rfl

/-- A step of the session is one of the loop, or leaves the loop as it is. -/
theorem mainLoop_step (kind : KeyEventKind) {a : SessionAction} (h : s.step ops a = some t) :
    match s.loopInput kind a with
    | some i => s.mainLoop.step i = some t.mainLoop
    | none => t.mainLoop = s.mainLoop := by
  cases a with
  | announce =>
    obtain ⟨-, ⟨⟩⟩ := Option.ite_none_right_eq_some.mp h
    rfl
  | take =>
    obtain ⟨-, h⟩ := Option.ite_none_right_eq_some.mp h
    obtain ⟨⟨r, c⟩, hr, ⟨⟩⟩ := Option.map_eq_some_iff.mp h
    change MainLoop.mk s.app c.sent s.loop = _
    rw [(Channel.receive_some hr).1]
    rfl
  | serve =>
    cases hw : s.worker with
    | serving r =>
      simp only [step, hw] at h
      obtain rfl := Option.some.inj h
      rfl
    | _ => simp [step, hw] at h
  | hangUp =>
    obtain ⟨-, ⟨⟩⟩ := Option.ite_none_right_eq_some.mp h
    rfl
  | finish =>
    obtain ⟨-, ⟨⟩⟩ := Option.ite_none_right_eq_some.mp h
    rfl
  | event =>
    obtain ⟨hl, h⟩ := Option.ite_none_right_eq_some.mp h
    obtain ⟨⟨ev, c⟩, hr, ⟨⟩⟩ := Option.map_eq_some_iff.mp h
    have hi : s.loopInput kind .event = some (.event ev) := by
      unfold loopInput
      rw [Channel.queue_receive hr]
      rfl
    rw [hi]
    exact if_pos hl
  | drained =>
    obtain ⟨⟨hl, -⟩, ⟨⟩⟩ := Option.ite_none_right_eq_some.mp h
    exact if_pos hl
  | key k =>
    obtain ⟨hl, ⟨⟩⟩ := Option.ite_none_right_eq_some.mp h
    dsimp only [loopInput]
    rw [mainLoop_checkQuit]
    exact if_pos hl
  | noKey =>
    obtain ⟨hl, ⟨⟩⟩ := Option.ite_none_right_eq_some.mp h
    dsimp only [loopInput]
    rw [mainLoop_checkQuit]
    exact if_pos hl
  | fail =>
    obtain ⟨hl, ⟨⟩⟩ := Option.ite_none_left_eq_some.mp h
    exact if_neg hl

/-- Whatever the worker does, the interface's part of a session is a run of the loop, on the inputs
that it meets. -/
theorem mainLoop_of_run (kind : KeyEventKind) {engine : σ}
    (hr : Run (Steps (step ops)) (start engine) h s) :
    ∃ h', Run (Steps MainLoop.step) .start h' s.mainLoop ∧
      h'.map Prod.snd = h.filterMap fun p => p.1.loopInput kind p.2 := by
  induction hr with
  | nil => exact ⟨[], .nil, rfl⟩
  | @snoc h s t a _ hst ih =>
    obtain ⟨h', hr', ha⟩ := ih
    have hstep := mainLoop_step kind hst
    rw [List.filterMap_append, ← ha]
    cases hi : s.loopInput kind a with
    | none =>
      rw [hi] at hstep
      refine ⟨h', hstep ▸ hr', ?_⟩
      simp [hi]
    | some i =>
      rw [hi] at hstep
      refine ⟨h' ++ [(s.mainLoop, i)], hr'.snoc hstep, ?_⟩
      simp [hi]

end Session

end LspGraph
