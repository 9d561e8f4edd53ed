import LspGraph.FiniteMaps
import LspGraph.Framing
import LspGraph.Runs

/-! The connection to the server (`transport/mod.rs`): the threads that call `request` and the
reader thread, as one transition system. A step is a stretch of one thread between two points
where the others can be noticed. -/
namespace LspGraph
open FiniteMaps Runs

/-- `serde_json::to_vec` and `serde_json::from_slice`. -/
structure Json where
  toVec : Value → Except String Bytes
  fromSlice : Bytes → Option Value

structure Notification where
  method : String
  params : Value

/-- How a write to the server's stdin ends; a failed one may have got some bytes out. -/
inductive WriteOutcome where
  | done
  | failed (accepted : Nat) (text : String)

/-- Where a call of `request` is. -/
inductive Phase where
  /-- The id is drawn, the sender not yet registered. -/
  | drawn
  | registered
  | waiting
  /-- `recv_timeout` gave up; the sender is yet to be removed. -/
  | timedOut
  | returned (result : Result Value)

/-- A call of `request`; `mailbox` is what was sent to its receiver and not yet received. -/
structure Call where
  id : Int64
  method : String
  params : Value
  timeout : Duration
  phase : Phase
  mailbox : List Value

/-- Where the reader thread is. -/
inductive ReaderState where
  | reading
  | decoding
  | left
  | writerDropped
  | cleared
  /-- `next_message` panicked: nothing is cleared. -/
  | panicked
  deriving DecidableEq

/-- The connection. A sender in `pending` is named by the index of its call, and a sender is
dropped when it leaves the map. -/
structure Connection where
  nextId : Int64
  pending : FMap Int64 Nat
  calls : List Call
  reader : ReaderState
  decoder : Decoder
  written : Bytes
  notifications : List Notification

inductive Action where
  /-- Draw an id and make the channel. -/
  | call (method : String) (params : Value) (timeout : Duration)
  | register (c : Nat)
  | write (c : Nat) (outcome : WriteOutcome)
  /-- `recv_timeout` gets a message or finds the sender dropped. -/
  | receive (c : Nat)
  | expire (c : Nat)
  /-- Remove the sender after a timeout. -/
  | unregister (c : Nat)
  | notify (method : String) (params : Value) (outcome : WriteOutcome)
  | read (chunk : Bytes)
  /-- End of file or a read error. -/
  | readEnd
  /-- One round of the inner loop of `read_loop`; the outcome is that of a reply, if one is
  written. -/
  | decode (outcome : WriteOutcome)
  | dropWriter
  | clear

/-- The call whose thread takes the step. -/
def Action.ofCall : Action → Option Nat
  | .register c | .write c _ | .receive c | .expire c | .unregister c => some c
  | _ => none

def requestMessage (id : Int64) (method : String) (params : Value) : Value :=
  .object [("jsonrpc", .string "2.0"), ("id", .ofI64 id), ("method", .string method),
    ("params", params)]

def notifyMessage (method : String) (params : Value) : Value :=
  .object [("jsonrpc", .string "2.0"), ("method", .string method), ("params", params)]

def replyMessage (id : Value) : Value :=
  .object [("jsonrpc", .string "2.0"), ("id", id), ("result", .null)]

/-- The id of a message: present and not `null`. -/
def messageId (msg : Value) : Option Value := (msg.get "id").filter fun v => !v.isNull

/-- Whether a message carries `result` or `error`. -/
def isResponse (msg : Value) : Bool := (msg.get "result").isSome || (msg.get "error").isSome

/-- The id that a response is correlated by. -/
def responseId (msg : Value) : Option Int64 :=
  if isResponse msg then (messageId msg).bind (·.asI64) else none

/-- What `request` makes of the message it receives. -/
def answerOf (method : String) (msg : Value) : Result Value :=
  match msg.get "error" with
  | some e =>
    if (e.get "code").bind (·.asI64) = some (-32801) then .error (.contentModified method)
    else .error (.protocol (method ++ ": " ++ ((e.get "message").bind (·.asStr)).getD "unknown"))
  | none => .ok ((msg.get "result").getD .null)

namespace Connection

def new : Connection := ⟨0, ∅, [], .reading, .new, [], []⟩

def setPhase (s : Connection) (c : Nat) (phase : Phase) : Connection :=
  { s with calls := s.calls.modify c fun call => { call with phase := phase } }

/-- `sender.send(msg)`, which is lost where the receiver is gone. -/
def deliver (s : Connection) (c : Nat) (msg : Value) : Connection :=
  { s with calls := s.calls.modify c fun call =>
      match call.phase with
      -- the receiver went out of scope when the call returned
      | .returned _ => call
      | _ => { call with mailbox := call.mailbox ++ [msg] } }

/-- `write_all` of a frame. -/
def writeFrame (s : Connection) (bytes : Bytes) : WriteOutcome → Connection
  | .done => { s with written := s.written ++ encode bytes }
  | .failed accepted _ => { s with written := s.written ++ (encode bytes).take accepted }

/-- `Connection::write`. -/
def writeMessage (json : Json) (s : Connection) (msg : Value) (outcome : WriteOutcome) :
    Result Unit × Connection :=
  match json.toVec msg with
  | .error text => (.error (.json text), s)
  | .ok bytes =>
    match outcome with
    | .done => (.ok (), s.writeFrame bytes outcome)
    | .failed _ text => (.error (.io text), s.writeFrame bytes outcome)

/-- What `read_loop` does with a message. The sender is taken out and used under one lock. -/
def dispatch (json : Json) (s : Connection) (msg : Value) (outcome : WriteOutcome) :
    Connection :=
  match responseId msg with
  | some id =>
    match s.pending.lookup id with
    | some c => { s with pending := s.pending.erase id }.deliver c msg
    -- an id that nobody waits under: the message is dropped
    | none => s
  | none =>
    match (msg.get "method").bind (·.asStr) with
    -- neither a response under an integer id nor a request or notification
    | none => s
    | some method =>
      match messageId msg with
      -- a request of the server, answered with its id whatever its type
      | some id =>
        s.writeFrame ((json.toVec (replyMessage id)).toOption.getD []) outcome
      | none =>
        { s with notifications :=
            s.notifications ++ [⟨method, (msg.get "params").getD .null⟩] }

/-- One round of the inner loop of `read_loop`. -/
def decodeNext (json : Json) (s : Connection) (outcome : WriteOutcome) : Connection :=
  match s.decoder.nextMessage with
  | none => { s with reader := .panicked }
  -- a frame that cannot be parsed ends the loop
  | some (.error _, d) => { s with decoder := d, reader := .left }
  | some (.ok none, d) => { s with decoder := d, reader := .reading }
  | some (.ok (some body), d) =>
    match json.fromSlice body with
    -- a body that is not JSON is skipped
    | none => { s with decoder := d }
    | some msg => dispatch json { s with decoder := d } msg outcome

/-- Whether the sender of a call is still in the map: it can only be under the call's id. -/
def senderAlive (s : Connection) (c : Nat) (call : Call) : Bool :=
  s.pending.lookup call.id = some c

/-- The size of the buffer of `read_loop`. -/
def chunkSize : Nat := 8192

/-- Put the sender of a call into the map. -/
def registerCall (s : Connection) (c : Nat) (call : Call) : Option Connection :=
  match call.phase with
  | .drawn => some ({ s with pending := s.pending.insert call.id c }.setPhase c .registered)
  | _ => none

/-- Write the frame of a call; a failure returns with the sender still in the map. -/
def writeCall (json : Json) (outcome : WriteOutcome) (s : Connection) (c : Nat) (call : Call) :
    Option Connection :=
  match call.phase with
  | .registered =>
    match s.writeMessage json (requestMessage call.id call.method call.params) outcome with
    | (.ok (), s) => some (s.setPhase c .waiting)
    -- `?` returns before anything removes the sender
    | (.error e, s) => some (s.setPhase c (.returned (.error e)))
  | _ => none

/-- `recv_timeout` gets a message, or finds the sender dropped. -/
def receiveCall (s : Connection) (c : Nat) (call : Call) : Option Connection :=
  match call.phase, call.mailbox with
  | .waiting, msg :: _ => some (s.setPhase c (.returned (answerOf call.method msg)))
  | .waiting, [] =>
    -- a live sender blocks; a dropped one is `RecvTimeoutError::Disconnected`
    if s.senderAlive c call then none
    else some (s.setPhase c (.returned (.error .serverExited)))
  | _, _ => none

/-- `recv_timeout` gives up. -/
def expireCall (s : Connection) (c : Nat) (call : Call) : Option Connection :=
  match call.phase, call.mailbox with
  | .waiting, [] => if s.senderAlive c call then some (s.setPhase c .timedOut) else none
  | _, _ => none

/-- Remove the sender after a timeout and return. -/
def unregisterCall (s : Connection) (c : Nat) (call : Call) : Option Connection :=
  match call.phase with
  | .timedOut => some ({ s with pending := s.pending.erase call.id }.setPhase c
      (.returned (.error (.timeout call.method call.timeout))))
  | _ => none

/-- The transitions; `none` where the action is not the next one of its thread. -/
def step (json : Json) (s : Connection) : Action → Option Connection
  | .call method params timeout =>
    some { s with nextId := s.nextId + 1
                  calls := s.calls ++ [⟨s.nextId + 1, method, params, timeout, .drawn, []⟩] }
  | .register c => (s.calls[c]?).bind (s.registerCall c)
  | .write c outcome => (s.calls[c]?).bind (s.writeCall json outcome c)
  | .receive c => (s.calls[c]?).bind (s.receiveCall c)
  | .expire c => (s.calls[c]?).bind (s.expireCall c)
  | .unregister c => (s.calls[c]?).bind (s.unregisterCall c)
  | .notify method params outcome =>
    some (s.writeMessage json (notifyMessage method params) outcome).2
  | .read chunk =>
    if s.reader = .reading ∧ 0 < chunk.length ∧ chunk.length ≤ chunkSize then
      some { s with decoder := s.decoder.push chunk, reader := .decoding }
    else none
  | .readEnd => if s.reader = .reading then some { s with reader := .left } else none
  | .decode outcome => if s.reader = .decoding then some (s.decodeNext json outcome) else none
  | .dropWriter => if s.reader = .left then some { s with reader := .writerDropped } else none
  | .clear =>
    if s.reader = .writerDropped then some { s with pending := ∅, reader := .cleared } else none

/-- The message that the reader thread decodes next. -/
def Decodes (json : Json) (s : Connection) (msg : Value) : Prop :=
  ∃ body d, s.decoder.nextMessage = some (.ok (some body), d) ∧ json.fromSlice body = some msg

theorem Decodes.unique {json : Json} {s : Connection} {msg msg' : Value}
    (h : s.Decodes json msg) (h' : s.Decodes json msg') : msg = msg' := by
  obtain ⟨body, d, hd, hm⟩ := h
  obtain ⟨body', d', hd', hm'⟩ := h'
  obtain ⟨rfl, rfl⟩ : body = body' ∧ d = d' := by simpa [hd] using hd'
  exact Option.some.inj (hm.symm.trans hm')

/-- The call whose sender a message takes out of the map. -/
def target (s : Connection) (msg : Value) : Option Nat := (responseId msg).bind s.pending.lookup

/-- Whether a result is one that only a response can give. -/
def IsAnswer : Result Value → Prop
  | .ok _ | .error (.protocol _) | .error (.contentModified _) => True
  | _ => False

/-- What a step can do. -/
inductive StepCase (json : Json) (s : Connection) : Action → Connection → Prop where
  | call (method : String) (params : Value) (timeout : Duration) :
      StepCase json s (.call method params timeout)
        { s with nextId := s.nextId + 1
                 calls := s.calls ++ [⟨s.nextId + 1, method, params, timeout, .drawn, []⟩] }
  | register (c : Nat) (call : Call) : s.calls[c]? = some call → call.phase = .drawn →
      StepCase json s (.register c)
        ({ s with pending := s.pending.insert call.id c }.setPhase c .registered)
  | wrote (c : Nat) (call : Call) (outcome : WriteOutcome) (w : Bytes) :
      s.calls[c]? = some call → call.phase = .registered →
      StepCase json s (.write c outcome) ({ s with written := w }.setPhase c .waiting)
  | writeFailed (c : Nat) (call : Call) (outcome : WriteOutcome) (w : Bytes) (e : Error) :
      s.calls[c]? = some call → call.phase = .registered → ¬IsAnswer (.error e) →
      StepCase json s (.write c outcome)
        ({ s with written := w }.setPhase c (.returned (.error e)))
  | received (c : Nat) (call : Call) (msg : Value) : s.calls[c]? = some call →
      call.phase = .waiting → msg ∈ call.mailbox →
      StepCase json s (.receive c) (s.setPhase c (.returned (answerOf call.method msg)))
  | exited (c : Nat) (call : Call) : s.calls[c]? = some call → call.phase = .waiting →
      call.mailbox = [] → s.senderAlive c call = false →
      StepCase json s (.receive c) (s.setPhase c (.returned (.error .serverExited)))
  | expired (c : Nat) (call : Call) : s.calls[c]? = some call → call.phase = .waiting →
      call.mailbox = [] → s.senderAlive c call = true →
      StepCase json s (.expire c) (s.setPhase c .timedOut)
  | unregistered (c : Nat) (call : Call) : s.calls[c]? = some call → call.phase = .timedOut →
      StepCase json s (.unregister c)
        ({ s with pending := s.pending.erase call.id }.setPhase c
          (.returned (.error (.timeout call.method call.timeout))))
  | resolved (outcome : WriteOutcome) (msg : Value) (d : Decoder) (id : Int64) (c : Nat) :
      s.Decodes json msg → responseId msg = some id → s.pending.lookup id = some c →
      StepCase json s (.decode outcome)
        ({ s with decoder := d, pending := s.pending.erase id }.deliver c msg)
  | quiet (a : Action) (r : ReaderState) (d : Decoder) (w : Bytes) (ns : List Notification) :
      a.ofCall = none → (r = .cleared → s.reader = .cleared) →
      (∀ outcome msg, a = .decode outcome → s.Decodes json msg → s.target msg = none) →
      StepCase json s a { s with reader := r, decoder := d, written := w, notifications := ns }
  | clear : s.reader = .writerDropped →
      StepCase json s .clear { s with pending := ∅, reader := .cleared }

variable {json : Json} {s t : Connection}

variable (json s) in
/-- A message that cannot be serialised or written fails with an error of its own. -/
theorem writeMessage_eq (msg : Value) (outcome : WriteOutcome) :
    ∃ w, (s.writeMessage json msg outcome).2 = { s with written := w } ∧
      ∀ e, (s.writeMessage json msg outcome).1 = .error e → ¬IsAnswer (.error e) := by
  unfold writeMessage
  cases json.toVec msg with
  | error text => exact ⟨s.written, rfl, by rintro e ⟨⟩; exact id⟩
  | ok bytes =>
    cases outcome with
    | done => exact ⟨_, rfl, by simp⟩
    | failed accepted text => exact ⟨_, rfl, by rintro e ⟨⟩; exact id⟩

variable (json s) in
/-- A dispatch takes one sender out and uses it, or leaves the calls and the map alone. -/
theorem dispatch_eq (d : Decoder) (msg : Value) (outcome : WriteOutcome) :
    (∃ id c, responseId msg = some id ∧ s.pending.lookup id = some c ∧
      dispatch json { s with decoder := d } msg outcome =
        { s with decoder := d, pending := s.pending.erase id }.deliver c msg) ∨
    (s.target msg = none ∧ ∃ w ns, dispatch json { s with decoder := d } msg outcome =
      { s with decoder := d, written := w, notifications := ns }) := by
  unfold dispatch target
  cases hid : responseId msg with
  | some id =>
    cases hc : s.pending.lookup id with
    | some c => exact .inl ⟨id, c, rfl, hc, by simp [hc]⟩
    | none => exact .inr ⟨hc, s.written, s.notifications, by simp [hc]⟩
  | none =>
    refine .inr ⟨rfl, ?_⟩
    cases (msg.get "method").bind (·.asStr) with
    | none => exact ⟨_, _, rfl⟩
    | some method =>
      cases messageId msg with
      | none => exact ⟨_, _, rfl⟩
      | some id => cases outcome <;> exact ⟨_, _, rfl⟩

theorem decode_case (outcome : WriteOutcome) (hr : s.reader = .decoding) :
    StepCase json s (.decode outcome) (s.decodeNext json outcome) := by
  have hkept (hn : ∀ msg, ¬s.Decodes json msg) (r : ReaderState) (d : Decoder)
      (h : r ≠ .cleared) :
      StepCase json s (.decode outcome) { s with reader := r, decoder := d } :=
    .quiet _ r d s.written s.notifications rfl (fun he => absurd he h)
      fun _ msg _ hd => absurd hd (hn msg)
  unfold decodeNext
  -- only a decoded body that is JSON can touch the calls or the map
  rcases hm : s.decoder.nextMessage with _ | ⟨(e | _ | body), d⟩
  · exact hkept (by simp [Decodes, hm]) .panicked s.decoder (by simp)
  · exact hkept (by simp [Decodes, hm]) .left d (by simp)
  · exact hkept (by simp [Decodes, hm]) .reading d (by simp)
  · dsimp only
    cases hj : json.fromSlice body with
    | none =>
      have hq := hkept (by simp [Decodes, hm, hj]) s.reader d (by simp [hr])
      exact hq
    | some msg =>
      have hd : s.Decodes json msg := ⟨body, d, hm, hj⟩
      dsimp only
      rcases dispatch_eq json s d msg outcome with
        ⟨id, c, hid, hc, he⟩ | ⟨ht, w, ns, he⟩
      · rw [he]
        exact .resolved outcome msg d id c hd hid hc
      · rw [he]
        refine .quiet _ s.reader d w ns rfl id fun _ msg' _ hd' => ?_
        rw [← hd.unique hd']
        exact ht

theorem registerCall_case {c : Nat} {call : Call} (hc : s.calls[c]? = some call)
    (h : s.registerCall c call = some t) : StepCase json s (.register c) t := by
  unfold registerCall at h
  split at h
  · obtain rfl := Option.some.inj h
    exact .register c call hc ‹_›
  · simp at h

theorem writeCall_case {outcome : WriteOutcome} {c : Nat} {call : Call}
    (hc : s.calls[c]? = some call) (h : s.writeCall json outcome c call = some t) :
    StepCase json s (.write c outcome) t := by
  unfold writeCall at h
  split at h
  · rename_i hp
    obtain ⟨w, hw, he⟩ := writeMessage_eq json s
      (requestMessage call.id call.method call.params) outcome
    rcases hm : s.writeMessage json (requestMessage call.id call.method call.params) outcome
      with ⟨e | ⟨⟩, s'⟩
    all_goals
      rw [hm] at h hw he
      obtain rfl := Option.some.inj h
      obtain rfl : s' = { s with written := w } := hw
    · exact .writeFailed c call outcome w e hc hp (he e rfl)
    · exact .wrote c call outcome w hc hp
  · simp at h

theorem receiveCall_case {c : Nat} {call : Call} (hc : s.calls[c]? = some call)
    (h : s.receiveCall c call = some t) : StepCase json s (.receive c) t := by
  unfold receiveCall at h
  split at h
  · rename_i hp hm
    obtain rfl := Option.some.inj h
    exact .received c call _ hc hp (by simp [hm])
  · rename_i hp hm
    split_ifs at h with hs
    obtain rfl := Option.some.inj h
    exact .exited c call hc hp hm (by simpa using hs)
  · simp at h

theorem expireCall_case {c : Nat} {call : Call} (hc : s.calls[c]? = some call)
    (h : s.expireCall c call = some t) : StepCase json s (.expire c) t := by
  unfold expireCall at h
  split at h
  · rename_i hp hm
    split_ifs at h with hs
    obtain rfl := Option.some.inj h
    exact .expired c call hc hp hm hs
  · simp at h

theorem unregisterCall_case {c : Nat} {call : Call} (hc : s.calls[c]? = some call)
    (h : s.unregisterCall c call = some t) : StepCase json s (.unregister c) t := by
  unfold unregisterCall at h
  split at h
  · obtain rfl := Option.some.inj h
    exact .unregistered c call hc ‹_›
  · simp at h

theorem step_case {a : Action} (h : s.step json a = some t) : StepCase json s a t := by
  cases a with
  | call method params timeout =>
    obtain rfl := Option.some.inj h
    exact .call method params timeout
  | register c =>
    obtain ⟨call, hc, h⟩ := Option.bind_eq_some_iff.mp h
    exact registerCall_case hc h
  | write c outcome =>
    obtain ⟨call, hc, h⟩ := Option.bind_eq_some_iff.mp h
    exact writeCall_case hc h
  | receive c =>
    obtain ⟨call, hc, h⟩ := Option.bind_eq_some_iff.mp h
    exact receiveCall_case hc h
  | expire c =>
    obtain ⟨call, hc, h⟩ := Option.bind_eq_some_iff.mp h
    exact expireCall_case hc h
  | unregister c =>
    obtain ⟨call, hc, h⟩ := Option.bind_eq_some_iff.mp h
    exact unregisterCall_case hc h
  | notify method params outcome =>
    obtain ⟨w, hw, -⟩ := writeMessage_eq json s
      (notifyMessage method params) outcome
    obtain rfl := (Option.some.inj h).symm.trans hw
    exact .quiet _ s.reader s.decoder w s.notifications rfl id (by simp)
  | read chunk =>
    obtain ⟨-, ⟨⟩⟩ := Option.ite_none_right_eq_some.mp h
    exact .quiet _ .decoding _ s.written s.notifications rfl (by simp) (by simp)
  | readEnd =>
    obtain ⟨-, ⟨⟩⟩ := Option.ite_none_right_eq_some.mp h
    exact .quiet _ .left s.decoder s.written s.notifications rfl (by simp) (by simp)
  | decode outcome =>
    obtain ⟨hr, ⟨⟩⟩ := Option.ite_none_right_eq_some.mp h
    exact decode_case outcome hr
  | dropWriter =>
    obtain ⟨-, ⟨⟩⟩ := Option.ite_none_right_eq_some.mp h
    exact .quiet _ .writerDropped s.decoder s.written s.notifications rfl (by simp) (by simp)
  | clear =>
    obtain ⟨hr, ⟨⟩⟩ := Option.ite_none_right_eq_some.mp h
    exact .clear hr

end Connection

/-- The text of a `shutdown` request. -/
def sampleRequest (id : Int64) : Bytes :=
  strBytes ("\x7b\"id\":" ++ id.toInt.repr ++
    ",\"jsonrpc\":\"2.0\",\"method\":\"shutdown\",\"params\":null\x7d")

/-- The text of its response. -/
def sampleResponse (id : Int64) : Bytes :=
  strBytes ("\x7b\"id\":" ++ id.toInt.repr ++ ",\"jsonrpc\":\"2.0\",\"result\":null\x7d")

def responseMessage (id : Int64) : Value :=
  .object [("id", .ofI64 id), ("jsonrpc", .string "2.0"), ("result", .null)]

/-- JSON as far as concrete runs use it: `shutdown` requests, and the responses to the first
two of them. -/
def sampleJson : Json where
  toVec v := (((v.get "id").bind (·.asI64)).map sampleRequest).elim (.error "unsupported") .ok
  fromSlice body := (([1, 2] : List Int64).find? fun id => sampleResponse id = body).map
    responseMessage

end LspGraph
