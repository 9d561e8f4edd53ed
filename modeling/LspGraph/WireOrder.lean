import LspGraph.ReadLoop

/-! What the messages of the server bring about, and in what order both threads write: every
message has one effect, and the bytes written stay well framed. -/
namespace LspGraph
open FiniteMaps Runs Streaming

/-- The bytes of a value. -/
def Json.bytes (json : Json) (v : Value) : Bytes := (json.toVec v).toOption.getD []

/-- A `Value` is always serialised, and a `Vec` of bytes is shorter than `2^63`. -/
structure Json.Serialises (json : Json) : Prop where
  toVec : ∀ v, json.toVec v = .ok (json.bytes v)
  length : ∀ v, (json.bytes v).length < 2^63

/-- What the server can send. -/
inductive Incoming where
  | request (id : Value)
  | notification (n : Notification)
  | response
  | notJson

/-- A body that carries a well-formed message, or no JSON at all. -/
inductive Carries (json : Json) (body : Bytes) : Incoming → Prop where
  | request (msg id : Value) (method : String) : json.fromSlice body = some msg →
      msg.get "method" = some (.string method) → msg.get "id" = some id → id.isNull = false →
      msg.get "result" = none → msg.get "error" = none → Carries json body (.request id)
  | notification (msg : Value) (method : String) : json.fromSlice body = some msg →
      msg.get "method" = some (.string method) →
      (msg.get "id" = none ∨ msg.get "id" = some .null) →
      msg.get "result" = none → msg.get "error" = none →
      Carries json body (.notification ⟨method, (msg.get "params").getD .null⟩)
  | response (msg : Value) : json.fromSlice body = some msg → msg.get "method" = none →
      (msg.get "result").isSome = true ∨ (msg.get "error").isSome = true →
      Carries json body .response
  | notJson : json.fromSlice body = none → Carries json body .notJson

/-- The answer owed to a message. -/
def Incoming.reply : Incoming → Option Value
  | .request id => some (replyMessage id)
  | _ => none

/-- The notification to be queued. -/
def Incoming.queued : Incoming → Option Notification
  | .notification n => some n
  | _ => none

/-- The method of a message that is dispatched as no response. -/
def calledMethod (msg : Value) : Option String :=
  if (responseId msg).isSome then none else (msg.get "method").bind (·.asStr)

/-- The reply that `read_loop` writes for a message. -/
def replyOf (msg : Value) : Option Value :=
  (calledMethod msg).bind fun _ => (messageId msg).map replyMessage

/-- The notification that `read_loop` queues for a message. -/
def queuedOf (msg : Value) : Option Notification :=
  (calledMethod msg).bind fun method =>
    if (messageId msg).isSome then none else some ⟨method, (msg.get "params").getD .null⟩

def replyTo (json : Json) (body : Bytes) : Option Value := (json.fromSlice body).bind replyOf

def queuedFrom (json : Json) (body : Bytes) : Option Notification :=
  (json.fromSlice body).bind queuedOf

theorem calledMethod_of_method {msg : Value} {method : String}
    (hm : msg.get "method" = some (.string method)) (hr : msg.get "result" = none)
    (he : msg.get "error" = none) : calledMethod msg = some method := by
  simp [calledMethod, responseId, isResponse, hr, he, hm, Value.asStr]

theorem Carries.effects {json : Json} {body : Bytes} {m : Incoming} (h : Carries json body m) :
    replyTo json body = m.reply ∧ queuedFrom json body = m.queued := by
  cases h with
  | request msg id method hb hm hid hn hr he =>
    have hmid : messageId msg = some id := by simp [messageId, hid, hn]
    have hcalled := calledMethod_of_method hm hr he
    constructor
    · simp [replyTo, replyOf, hb, hcalled, hmid, Incoming.reply]
    · simp [queuedFrom, queuedOf, hb, hcalled, hmid, Incoming.queued]
  | notification msg method hb hm hid hr he =>
    have hmid : messageId msg = none := by
      rcases hid with hid | hid <;> simp [messageId, hid, Value.isNull]
    have hcalled := calledMethod_of_method hm hr he
    constructor
    · simp [replyTo, replyOf, hb, hcalled, hmid, Incoming.reply]
    · simp [queuedFrom, queuedOf, hb, hcalled, hmid, Incoming.queued]
  | response msg hb hm =>
    have hcalled : calledMethod msg = none := by simp [calledMethod, hm]
    constructor
    · simp [replyTo, replyOf, hb, hcalled, Incoming.reply]
    · simp [queuedFrom, queuedOf, hb, hcalled, Incoming.queued]
  | notJson hb =>
    constructor
    · simp [replyTo, hb, Incoming.reply]
    · simp [queuedFrom, hb, Incoming.queued]

/-- Whether the call is in progress. -/
def Call.isOpen (call : Call) : Bool :=
  match call.phase with
  | .returned _ => false
  | _ => true

/-- The message of a call that has not written it yet. -/
def Call.unsent (call : Call) : Option Value :=
  match call.phase with
  | .drawn | .registered => some (requestMessage call.id call.method call.params)
  | _ => none

theorem Call.unsent_of_closed {call : Call} (h : call.isOpen = false) : call.unsent = none := by
  unfold isOpen at h
  unfold unsent
  cases hp : call.phase <;> simp_all

namespace Connection

variable {json : Json} {s t : Connection} {h : List (Connection × Action)}

/-- The write of a step does not fail. -/
def WritesWell : Action → Prop
  | .write _ o | .notify _ _ o | .decode o => o = .done
  | _ => True

/-- The message that a call or a notification of the client writes in a step. -/
def sentBy : Connection × Action → Option Value
  | (s, .write c _) => (s.calls[c]?).map fun call => requestMessage call.id call.method call.params
  | (_, .notify method params _) => some (notifyMessage method params)
  | _ => none

/-- The message that the client begins to send in a step. -/
def begunBy : Connection × Action → Option Value
  | (s, .call method params _) => some (requestMessage (s.nextId + 1) method params)
  | (_, .notify method params _) => some (notifyMessage method params)
  | _ => none

/-- The client's messages in the order of their calls. -/
def begun (h : List (Connection × Action)) : List Value := h.filterMap begunBy

/-- The client's messages in the order written. -/
def sent (h : List (Connection × Action)) : List Value := h.filterMap sentBy

variable (json) in
/-- The messages of both threads in the order written. -/
def order (h : List (Connection × Action)) : List Value :=
  h.filterMap fun p => (sentBy p).or ((bodyOf p).bind (replyTo json))

/-- A step of a thread that uses the connection alone: a call or a notification begins when no
call is in progress. -/
def Alone (s : Connection) : Action → Prop
  | .call _ _ _ | .notify _ _ _ => ∀ call ∈ s.calls, call.isOpen = false
  | _ => True

/-- A reply is written, a notification queued, a response neither. -/
theorem dispatch_effects (json : Json) (s : Connection) (msg : Value) :
    (dispatch json s msg .done).written =
        s.written ++ ((replyOf msg).map fun v => encode (json.bytes v)).getD [] ∧
      (dispatch json s msg .done).notifications = s.notifications ++ (queuedOf msg).toList := by
  unfold dispatch replyOf queuedOf calledMethod
  cases hid : responseId msg with
  | some id =>
    cases hc : s.pending.lookup id with
    | some c => simp [deliver, hc]
    | none => simp [hc]
  | none =>
    cases hm : (msg.get "method").bind (·.asStr) with
    | none => simp
    | some method =>
      cases hmid : messageId msg with
      | none => simp
      | some id => simp [writeFrame, Json.bytes]

theorem writeMessage_done (hj : json.Serialises) (s : Connection) (msg : Value) :
    s.writeMessage json msg .done =
      (.ok (), { s with written := s.written ++ encode (json.bytes msg) }) := by
  unfold writeMessage
  rw [hj.toVec msg]
  rfl

/-- What a step adds to the bytes written and to the queue of notifications. -/
structure Adds (json : Json) (s t : Connection) (msg : Option Value) (n : Option Notification) :
    Prop where
  written : t.written = s.written ++ (msg.map fun v => encode (json.bytes v)).getD []
  notifications : t.notifications = s.notifications ++ n.toList

theorem adds_nothing (json : Json) (hw : t.written = s.written)
    (hn : t.notifications = s.notifications) : Adds json s t none none :=
  ⟨hw.trans (List.append_nil _).symm, hn.trans (List.append_nil _).symm⟩

theorem adds_decode (json : Json) (s : Connection) :
    Adds json s (s.decodeNext json .done) ((bodyOf (s, .decode .done)).bind (replyTo json))
      ((bodyOf (s, .decode .done)).bind (queuedFrom json)) := by
  rw [bodyOf_decode]
  unfold decodeNext
  rcases s.decoder.nextMessage with _ | ⟨(e | _ | body), d⟩
  · exact adds_nothing json rfl rfl
  · exact adds_nothing json rfl rfl
  · exact adds_nothing json rfl rfl
  · dsimp only [Option.bind_some, replyTo, queuedFrom]
    cases json.fromSlice body with
    | none => exact adds_nothing json rfl rfl
    | some msg =>
      obtain ⟨hw, hn⟩ := dispatch_effects json { s with decoder := d } msg
      exact ⟨hw, hn⟩

/-- A step of a call other than its write. -/
theorem adds_of_ofCall {a : Action} (json : Json) (hst : StepCase json s a t) (ha : a.ofCall ≠ none)
    (hw : ∀ c o, a ≠ .write c o) : Adds json s t none none := by
  cases hst with
  | wrote c _ o => exact absurd rfl (hw c o)
  | writeFailed c _ o => exact absurd rfl (hw c o)
  | quiet a _ _ _ _ hn => exact absurd hn ha
  | call => exact absurd rfl ha
  | resolved => exact absurd rfl ha
  | clear => exact absurd rfl ha
  | _ => exact adds_nothing json rfl rfl

theorem adds_step (hj : json.Serialises) {a : Action} (hst : s.step json a = some t)
    (hw : WritesWell a) :
    Adds json s t ((sentBy (s, a)).or ((bodyOf (s, a)).bind (replyTo json)))
      ((bodyOf (s, a)).bind (queuedFrom json)) := by
  have hcall (ha : a.ofCall ≠ none) (hno : ∀ c o, a ≠ .write c o) : Adds json s t none none :=
    adds_of_ofCall json (step_case hst) ha hno
  cases a with
  | call =>
    obtain rfl := Option.some.inj hst
    exact adds_nothing json rfl rfl
  | register => exact hcall (by simp [Action.ofCall]) (by simp)
  | receive => exact hcall (by simp [Action.ofCall]) (by simp)
  | expire => exact hcall (by simp [Action.ofCall]) (by simp)
  | unregister => exact hcall (by simp [Action.ofCall]) (by simp)
  | write c o =>
    obtain rfl : o = .done := hw
    obtain ⟨call, hc, hwrite⟩ := Option.bind_eq_some_iff.mp hst
    unfold writeCall at hwrite
    split at hwrite
    · rw [writeMessage_done hj] at hwrite
      obtain rfl := Option.some.inj hwrite
      have hsent : sentBy (s, .write c .done) =
          some (requestMessage call.id call.method call.params) := by
        change (s.calls[c]?).map _ = _
        rw [hc]
        rfl
      rw [hsent]
      exact ⟨rfl, (List.append_nil _).symm⟩
    · cases hwrite
  | notify method params o =>
    obtain rfl : o = .done := hw
    have ht := Option.some.inj hst
    rw [writeMessage_done hj] at ht
    obtain rfl := ht
    exact ⟨rfl, (List.append_nil _).symm⟩
  | decode o =>
    obtain rfl : o = .done := hw
    obtain ⟨-, ⟨⟩⟩ := Option.ite_none_right_eq_some.mp hst
    exact adds_decode json s
  | read chunk =>
    obtain ⟨-, ⟨⟩⟩ := Option.ite_none_right_eq_some.mp hst
    exact adds_nothing json rfl rfl
  | readEnd =>
    obtain ⟨-, ⟨⟩⟩ := Option.ite_none_right_eq_some.mp hst
    exact adds_nothing json rfl rfl
  | dropWriter =>
    obtain ⟨-, ⟨⟩⟩ := Option.ite_none_right_eq_some.mp hst
    exact adds_nothing json rfl rfl
  | clear =>
    obtain ⟨-, ⟨⟩⟩ := Option.ite_none_right_eq_some.mp hst
    exact adds_nothing json rfl rfl

/-- The bytes written are the frames of the messages in their order, and the queue is what the
bodies decoded so far queue. -/
theorem adds_of_run (hj : json.Serialises) (hr : Run (Steps (step json)) new h s)
    (hw : ∀ p ∈ h, WritesWell p.2) :
    s.written = ((order json h).map fun v => encode (json.bytes v)).flatten ∧
      s.notifications = (bodies h).filterMap (queuedFrom json) := by
  refine hr.guarded (fun h s =>
    s.written = ((order json h).map fun v => encode (json.bytes v)).flatten ∧
      s.notifications = (bodies h).filterMap (queuedFrom json)) (fun _ a => WritesWell a)
      ⟨rfl, rfl⟩ ?_ hw
  rintro h s a t - ⟨hwr, hn⟩ hwell hst
  have hadds := adds_step hj hst hwell
  constructor
  · rw [hadds.written, hwr, order, order, List.filterMap_append, List.map_append,
      List.flatten_append]
    cases hm : (sentBy (s, a)).or ((bodyOf (s, a)).bind (replyTo json)) <;> simp [hm]
  · rw [hadds.notifications, hn, bodies_snoc, List.filterMap_append]
    cases bodyOf (s, a) with
    | none => rfl
    | some body => cases hq : queuedFrom json body <;> simp [hq]

/-- What a step does to the calls of the client. -/
inductive ClientCase (s : Connection) : Action → Connection → Prop where
  | begins (method : String) (params : Value) (timeout : Duration) (t : Connection) :
      t.calls = s.calls ++ [⟨s.nextId + 1, method, params, timeout, .drawn, []⟩] →
      ClientCase s (.call method params timeout) t
  | notifies (method : String) (params : Value) (o : WriteOutcome) (t : Connection) :
      t.calls = s.calls → ClientCase s (.notify method params o) t
  | moves (a : Action) (c : Nat) (call : Call) (phase : Phase) (t : Connection) :
      s.calls[c]? = some call → call.isOpen = true → begunBy (s, a) = none →
      t.calls = s.calls.modify c (fun call => { call with phase := phase }) →
      call.unsent.toList =
        (sentBy (s, a)).toList ++ (Call.unsent { call with phase := phase }).toList →
      ClientCase s a t
  | mails (a : Action) (c : Nat) (f : Call → Call) (t : Connection) : begunBy (s, a) = none →
      sentBy (s, a) = none → t.calls = s.calls.modify c f →
      (∀ call, (f call).isOpen = call.isOpen ∧ (f call).unsent = call.unsent) → ClientCase s a t
  | other (a : Action) (t : Connection) : begunBy (s, a) = none → sentBy (s, a) = none →
      t.calls = s.calls → ClientCase s a t

theorem client_case {a : Action} (hst : s.step json a = some t) : ClientCase s a t := by
  have hcase := step_case hst
  cases a with
  | call method params timeout =>
    obtain rfl := Option.some.inj hst
    exact .begins method params timeout _ rfl
  | notify method params o =>
    obtain ⟨w, hw, -⟩ := writeMessage_eq json s (notifyMessage method params) o
    obtain rfl := (Option.some.inj hst).symm.trans hw
    exact .notifies method params o _ rfl
  | register c =>
    cases hcase with
    | register _ call hc hp =>
      exact .moves _ c call .registered _ hc (by simp [Call.isOpen, hp]) rfl rfl
        (by simp [Call.unsent, hp, sentBy])
    | quiet _ _ _ _ _ hn => cases hn
  | write c o =>
    have hsent (call : Call) (hc : s.calls[c]? = some call) : sentBy (s, .write c o) =
        some (requestMessage call.id call.method call.params) := by simp [sentBy, hc]
    cases hcase with
    | wrote _ call _ w hc hp =>
      exact .moves _ c call .waiting _ hc (by simp [Call.isOpen, hp]) rfl rfl
        (by simp [Call.unsent, hp, hsent call hc])
    | writeFailed _ call _ w e hc hp =>
      exact .moves _ c call (.returned (.error e)) _ hc (by simp [Call.isOpen, hp]) rfl rfl
        (by simp [Call.unsent, hp, hsent call hc])
    | quiet _ _ _ _ _ hn => cases hn
  | receive c =>
    cases hcase with
    | received _ call msg hc hp =>
      exact .moves _ c call _ _ hc (by simp [Call.isOpen, hp]) rfl rfl
        (by simp [Call.unsent, hp, sentBy])
    | exited _ call hc hp =>
      exact .moves _ c call _ _ hc (by simp [Call.isOpen, hp]) rfl rfl
        (by simp [Call.unsent, hp, sentBy])
    | quiet _ _ _ _ _ hn => cases hn
  | expire c =>
    cases hcase with
    | expired _ call hc hp =>
      exact .moves _ c call _ _ hc (by simp [Call.isOpen, hp]) rfl rfl
        (by simp [Call.unsent, hp, sentBy])
    | quiet _ _ _ _ _ hn => cases hn
  | unregister c =>
    cases hcase with
    | unregistered _ call hc hp =>
      exact .moves _ c call _ _ hc (by simp [Call.isOpen, hp]) rfl rfl
        (by simp [Call.unsent, hp, sentBy])
    | quiet _ _ _ _ _ hn => cases hn
  | decode o =>
    cases hcase with
    | resolved _ msg d id c =>
      -- a delivered response changes a mailbox at most
      refine .mails _ c _ _ rfl rfl rfl fun call => ?_
      cases hp : call.phase <;> simp [Call.isOpen, Call.unsent, hp]
    | quiet => exact .other _ _ rfl rfl rfl
  | _ =>
    cases hcase <;> exact .other _ _ rfl rfl rfl

/-- At most one call is in progress, and the client's messages are written in the order of their
calls; the message of that call may still be unwritten. -/
structure InCallOrder (h : List (Connection × Action)) (s : Connection) : Prop where
  one : (s.calls.filter Call.isOpen).length ≤ 1
  begun : begun h = sent h ++ s.calls.filterMap Call.unsent

theorem length_unsent_le (calls : List Call) :
    (calls.filterMap Call.unsent).length ≤ (calls.filter Call.isOpen).length := by
  induction calls with
  | nil => exact Nat.le_refl 0
  | cons call calls ih =>
    rw [List.filterMap_cons, List.filter_cons]
    cases ho : call.isOpen with
    | false =>
      rw [Call.unsent_of_closed ho]
      exact ih
    | true =>
      cases call.unsent with
      | none => exact ih.trans (Nat.le_succ _)
      | some msg => exact Nat.succ_le_succ ih

theorem unsent_of_closed {calls : List Call} (hc : ∀ call ∈ calls, call.isOpen = false) :
    calls.filter Call.isOpen = [] ∧ calls.filterMap Call.unsent = [] :=
  ⟨List.filter_eq_nil_iff.mpr fun call hm => by simp [hc call hm],
    List.filterMap_eq_nil_iff.mpr fun call hm => Call.unsent_of_closed (hc call hm)⟩

theorem modify_split {calls : List Call} {c : ℕ} {call : Call} (hc : calls[c]? = some call)
    (f : Call → Call) : ∃ before after, calls = before ++ call :: after ∧
      calls.modify c f = before ++ f call :: after := by
  obtain ⟨hlt, hc⟩ := List.getElem?_eq_some_iff.mp hc
  refine ⟨calls.take c, calls.drop (c + 1), ?_, ?_⟩
  · rw [← hc, ← List.drop_eq_getElem_cons hlt, List.take_append_drop]
  · rw [List.modify_eq_take_cons_drop hlt, hc]

/-- Where one call is in progress, it is the only one. -/
theorem closed_of_open {before after : List Call} {call : Call} (hopen : call.isOpen = true)
    (hone : ((before ++ call :: after).filter Call.isOpen).length ≤ 1) :
    (∀ x ∈ before, x.isOpen = false) ∧ ∀ x ∈ after, x.isOpen = false := by
  rw [List.filter_append, List.filter_cons, if_pos hopen, List.length_append,
    List.length_cons] at hone
  have hb := List.length_eq_zero_iff.mp (show (before.filter Call.isOpen).length = 0 by omega)
  have ha := List.length_eq_zero_iff.mp (show (after.filter Call.isOpen).length = 0 by omega)
  constructor
  · exact fun x hx => by simpa using List.filter_eq_nil_iff.mp hb x hx
  · exact fun x hx => by simpa using List.filter_eq_nil_iff.mp ha x hx

/-- What neither opens a call nor sends its message keeps the order. -/
theorem InCallOrder.mailed {p : Connection × Action} {c : ℕ} {f : Call → Call}
    (hi : InCallOrder h s) (hb : begunBy p = none) (hs : sentBy p = none)
    (ht : t.calls = s.calls.modify c f)
    (hf : ∀ call, (f call).isOpen = call.isOpen ∧ (f call).unsent = call.unsent) :
    InCallOrder (h ++ [p]) t := by
  obtain ⟨hone, hbegun⟩ := hi
  have hsame : (t.calls.filter Call.isOpen).length = (s.calls.filter Call.isOpen).length ∧
      t.calls.filterMap Call.unsent = s.calls.filterMap Call.unsent := by
    rw [ht]
    cases hc : s.calls[c]? with
    | none =>
      rw [List.modify_eq_self (List.getElem?_eq_none_iff.mp hc)]
      exact ⟨rfl, rfl⟩
    | some call =>
      obtain ⟨before, after, hl, hm⟩ := modify_split hc f
      obtain ⟨hopen, hunsent⟩ := hf call
      rw [hm, hl]
      constructor
      · cases ho : call.isOpen <;> simp [hopen, ho]
      · simp [List.filterMap_cons, hunsent]
  refine ⟨hsame.1.trans_le hone, ?_⟩
  rw [hsame.2, Connection.begun, filterMap_snoc, sent, filterMap_snoc, hb, hs]
  simpa [Connection.begun, sent] using hbegun

theorem inCallOrder_step {a : Action} (hi : InCallOrder h s) (hc : ClientCase s a t)
    (hal : s.Alone a) : InCallOrder (h ++ [(s, a)]) t := by
  have hb : begun (h ++ [(s, a)]) = begun h ++ (begunBy (s, a)).toList := filterMap_snoc _ h _
  have hs : sent (h ++ [(s, a)]) = sent h ++ (sentBy (s, a)).toList := filterMap_snoc _ h _
  cases hc with
  | begins method params timeout t ht =>
    obtain ⟨hnone, hunsent⟩ := unsent_of_closed hal
    refine ⟨?_, ?_⟩
    · rw [ht, List.filter_append, hnone]
      exact Nat.le_refl 1
    · rw [hb, hs, ht, List.filterMap_append, hi.begun, hunsent]
      simp [sentBy, begunBy, Call.unsent]
  | notifies method params o t ht =>
    obtain ⟨-, hunsent⟩ := unsent_of_closed hal
    refine ⟨by rw [ht]; exact hi.one, ?_⟩
    rw [hb, hs, ht, hi.begun, hunsent]
    simp [sentBy, begunBy]
  | moves a c call phase t hc hopen hno ht hmsg =>
    obtain ⟨before, after, hl, hm⟩ :=
      modify_split hc fun call => { call with phase := phase }
    have hone := hi.one
    have hbegun := hi.begun
    rw [hl] at hone hbegun
    obtain ⟨hbefore, hafter⟩ := closed_of_open hopen hone
    obtain ⟨hf₁, hu₁⟩ := unsent_of_closed hbefore
    obtain ⟨hf₂, hu₂⟩ := unsent_of_closed hafter
    constructor
    · rw [ht, hm, List.filter_append, List.filter_cons, hf₁, hf₂]
      split_ifs <;> simp
    · have hu (x : Call) : (before ++ x :: after).filterMap Call.unsent = x.unsent.toList := by
        rw [List.filterMap_append, List.filterMap_cons, hu₁, hu₂]
        cases x.unsent <;> rfl
      rw [hb, hs, hno, ht, hm, hu, List.append_assoc, ← hmsg, ← hu call, ← hbegun]
      exact List.append_nil _
  | mails a c f t hno hsent ht hf => exact hi.mailed hno hsent ht hf
  | other a t hno hsent ht =>
    refine hi.mailed (c := 0) (f := id) hno hsent ?_ fun call => ⟨rfl, rfl⟩
    rw [List.modify_id]
    exact ht

theorem inCallOrder_of_run (hr : Run (Steps (step json)) new h s)
    (hal : ∀ p ∈ h, p.1.Alone p.2) : InCallOrder h s := by
  refine hr.guarded InCallOrder Alone ⟨by simp [new], by simp [begun, sent, new]⟩ ?_ hal
  exact fun _ _ _ _ _ hi hal hst => inCallOrder_step hi (client_case hst) hal

theorem prefix_of_map_ok {bs payloads : List Bytes} {rest : List (Result Bytes)}
    (h : payloads.map .ok = bs.map .ok ++ rest) : bs <+: payloads := by
  obtain ⟨l, hl, hmap⟩ := List.prefix_map_iff.mp ⟨rest, h.symm⟩
  rwa [(List.map_inj_right fun _ _ => Except.ok.inj).mp hmap]

/-- From a stream that the decoder splits into payloads, the reader decodes those payloads in
their order, and nothing but the end of the stream stops it. -/
theorem bodies_of_stream {stream : Bytes} {payloads : List Bytes}
    (hstream : frames.drain stream = (payloads.map .ok, some []))
    (hr : Run (Steps (step json)) new h s) (hreads : reads h <+: stream) :
    bodies h <+: payloads ∧ (stops h = [] ∨ stops h = [.eof]) ∧
      (reads h = stream → s.reader ≠ .decoding → bodies h = payloads) := by
  have hi := readSoFar_of_run hr
  obtain ⟨tail, rfl⟩ := hreads
  -- what is drained from the bytes read is the front of what the whole stream gives
  obtain ⟨b, rest, halive, hfront⟩ := Incremental.drain_front (congrArg Prod.snd hstream)
  replace hfront : payloads.map .ok = (frames.drain (reads h)).1 ++ rest := by
    rw [← hfront, hstream]
  have hwhole (he : reads h = reads h ++ tail)
      (hdrain : (frames.drain (reads h)).1 = (bodies h).map .ok) : bodies h = payloads := by
    rw [← he] at hstream
    rw [hstream] at hdrain
    exact ((List.map_inj_right fun _ _ => Except.ok.inj).mp hdrain).symm
  unfold ReadSoFar at hi
  split at hi
  · rw [hi.2] at hfront
    exact ⟨prefix_of_map_ok hfront, .inl hi.1, fun he _ => hwhole he (congrArg Prod.fst hi.2)⟩
  · rename_i hdec
    rw [hi.2, List.append_assoc] at hfront
    exact ⟨prefix_of_map_ok hfront, .inl hi.1, fun _ hne => absurd hdec hne⟩
  · rw [hi.2] at halive
    cases halive
  all_goals
    rcases hi with ⟨hs, _, hdrain⟩ | ⟨e, more, -, hdrain⟩
    · rw [hdrain] at hfront
      exact ⟨prefix_of_map_ok hfront, .inr hs, fun he _ => hwhole he (congrArg Prod.fst hdrain)⟩
    · -- an error is none of the payloads
      have hmem : (Except.error e : Result Bytes) ∈ payloads.map .ok := by
        rw [hfront, hdrain]
        simp
      simp at hmem

theorem filterMap_of_forall₂ {α β γ : Type*} {R : α → β → Prop} {f : α → Option γ}
    {g : β → Option γ} {xs : List α} {ys : List β} (hR : List.Forall₂ R xs ys)
    (hfg : ∀ a b, R a b → f a = g b) : xs.filterMap f = ys.filterMap g := by
  induction hR with
  | nil => rfl
  | cons hr _ ih => rw [List.filterMap_cons, List.filterMap_cons, hfg _ _ hr, ih]

/-- The reader replies in the order in which it decodes, between the messages of the client. -/
theorem order_interleaving (json : Json) (h : List (Connection × Action)) :
    Interleaving (order json h) (sent h) ((bodies h).filterMap (replyTo json)) := by
  have hparties := interleaving_filterMap sentBy (fun p => (bodyOf p).bind (replyTo json)) h ?_
  · rwa [← List.filterMap_filterMap] at hparties
  · rintro ⟨s, a⟩ -
    cases a with
    | write => exact .inr rfl
    | notify => exact .inr rfl
    | _ => exact .inl rfl

/-- A request of the server, and a notification. -/
def configurationBody : Bytes :=
  strBytes "\x7b\"id\":7,\"jsonrpc\":\"2.0\",\"method\":\"workspace/configuration\"\x7d"

def configurationRequest : Value :=
  .object [("id", .ofI64 7), ("jsonrpc", .string "2.0"),
    ("method", .string "workspace/configuration")]

def logBody : Bytes := strBytes "\x7b\"jsonrpc\":\"2.0\",\"method\":\"window/logMessage\"\x7d"

def logNotification : Value :=
  .object [("jsonrpc", .string "2.0"), ("method", .string "window/logMessage")]

/-- JSON as far as the run below uses it. -/
def wireJson : Json where
  toVec v := .ok <|
    if (v.get "id").bind (·.asI64) = some 1 then sampleRequest 1
    else if (v.get "id").bind (·.asI64) = some 7 then sampleResponse 7
    else []
  fromSlice body :=
    if body = configurationBody then some configurationRequest
    else if body = logBody then some logNotification
    else none

theorem wireJson_serialises : wireJson.Serialises := by
  refine ⟨fun v => rfl, fun v => ?_⟩
  change (if _ then _ else if _ then _ else []).length < 2^63
  split_ifs
  · decide
  · decide
  · decide

/-- A request of the client, between a request of the server with a notification behind it. -/
def requestAmongRequests : List Action :=
  [.call "shutdown" .null 5000, .read (encode configurationBody ++ encode logBody),
    .register 0, .decode .done, .write 0 .done, .decode .done, .decode .done]

end Connection

end LspGraph
