import LspGraph.Connection

/-! Which message answers which call of `request`: the answer of a call is traced back along the
run to the dispatch of one message under the call's own id. -/
namespace LspGraph
open FiniteMaps Runs

namespace Connection

variable {json : Json} {s t : Connection} {a : Action}

/-- What a step makes of one call: nothing, a new call, the next phase, or a message sent to it. -/
inductive CallChange (json : Json) (s : Connection) (a : Action) (i : Nat) :
    Option Call → Option Call → Prop where
  | same (x : Option Call) : CallChange json s a i x x
  | made (call : Call) : i = s.calls.length → call.id = s.nextId + 1 → call.phase = .drawn →
      call.mailbox = [] → CallChange json s a i none (some call)
  | moved (call : Call) (phase : Phase) : phase ≠ .drawn → (∀ r, call.phase ≠ .returned r) →
      (call.phase = .timedOut →
        phase = .returned (.error (.timeout call.method call.timeout))) →
      (∀ r, phase = .returned r → IsAnswer r → ∃ msg ∈ call.mailbox,
        r = answerOf call.method msg) →
      CallChange json s a i (some call) (some { call with phase := phase })
  | mailed (call : Call) (outcome : WriteOutcome) (msg : Value) (id : Int64) :
      a = .decode outcome → s.Decodes json msg → responseId msg = some id →
      s.pending.lookup id = some i →
      CallChange json s a i (some call) (some { call with mailbox := call.mailbox ++ [msg] })

theorem setPhase_change {s' : Connection} {c : Nat} {call : Call} {phase : Phase}
    (hs : s'.calls = s.calls) (hc : s.calls[c]? = some call) (hd : phase ≠ .drawn)
    (hn : ∀ r, call.phase ≠ .returned r)
    (ht : call.phase = .timedOut →
      phase = .returned (.error (.timeout call.method call.timeout)))
    (hr : ∀ r, phase = .returned r → IsAnswer r → ∃ msg ∈ call.mailbox,
      r = answerOf call.method msg) (i : Nat) :
    CallChange json s a i s.calls[i]? (s'.setPhase c phase).calls[i]? := by
  change CallChange json s a i s.calls[i]? (s'.calls.modify c _)[i]?
  rw [hs]
  by_cases hi : c = i
  · subst hi
    rw [List.getElem?_modify_eq, hc]
    exact .moved call phase hd hn ht hr
  · rw [List.getElem?_modify_ne _ _ hi]
    exact .same _

theorem deliver_change {s' : Connection} {c : Nat} {outcome : WriteOutcome} {msg : Value}
    {id : Int64} (hs : s'.calls = s.calls) (ha : a = .decode outcome) (hd : s.Decodes json msg)
    (hid : responseId msg = some id) (hc : s.pending.lookup id = some c) (i : Nat) :
    CallChange json s a i s.calls[i]? (s'.deliver c msg).calls[i]? := by
  change CallChange json s a i s.calls[i]? (s'.calls.modify c _)[i]?
  rw [hs]
  by_cases hi : c = i
  · subst hi
    rw [List.getElem?_modify_eq]
    cases s.calls[c]? with
    | none => exact .same _
    | some call =>
      change CallChange json s a c (some call) (some _)
      dsimp only
      split
      · exact .same _
      · exact .mailed call outcome msg id ha hd hid hc
  · rw [List.getElem?_modify_ne _ _ hi]
    exact .same _

theorem call_change (hst : StepCase json s a t) (i : Nat) :
    CallChange json s a i s.calls[i]? t.calls[i]? := by
  cases hst with
  | call method params timeout =>
    change CallChange json s _ i s.calls[i]? (s.calls ++ [_])[i]?
    rcases lt_trichotomy i s.calls.length with hi | rfl | hi
    · rw [List.getElem?_append_left hi]
      exact .same _
    · -- the call just made is the last one
      rw [List.getElem?_concat_length, List.getElem?_eq_none le_rfl]
      exact .made _ rfl rfl rfl rfl
    · rw [List.getElem?_eq_none hi.le, List.getElem?_eq_none (by simp; omega)]
      exact .same _
  | register c call hc hp =>
    exact setPhase_change rfl hc (by simp) (by simp [hp]) (by simp [hp]) (by simp) i
  | wrote c call outcome w hc hp =>
    exact setPhase_change rfl hc (by simp) (by simp [hp]) (by simp [hp]) (by simp) i
  | writeFailed c call outcome w e hc hp he =>
    refine setPhase_change rfl hc (by simp) (by simp [hp]) (by simp [hp]) ?_ i
    rintro r ⟨⟩ hr
    exact absurd hr he
  | received c call msg hc hp hm =>
    refine setPhase_change rfl hc (by simp) (by simp [hp]) (by simp [hp]) ?_ i
    rintro r ⟨⟩ -
    exact ⟨msg, hm, rfl⟩
  | exited c call hc hp =>
    refine setPhase_change rfl hc (by simp) (by simp [hp]) (by simp [hp]) ?_ i
    rintro r ⟨⟩ ⟨⟩
  | expired c call hc hp =>
    exact setPhase_change rfl hc (by simp) (by simp [hp]) (by simp [hp]) (by simp) i
  | unregistered c call hc hp =>
    refine setPhase_change rfl hc (by simp) (by simp [hp]) (by simp [hp]) ?_ i
    rintro r ⟨⟩ ⟨⟩
  | resolved outcome msg d id c hd hid hc => exact deliver_change rfl rfl hd hid hc i
  | quiet => exact .same _
  | clear => exact .same _

/-- The dispatch of a response under `id`, while call `c` was registered under it. -/
def Dispatched (json : Json) (h : List (Connection × Action)) (c : Nat) (id : Int64)
    (msg : Value) : Prop :=
  ∃ s outcome, (s, .decode outcome) ∈ h ∧ s.Decodes json msg ∧ responseId msg = some id ∧
    s.pending.lookup id = some c

theorem Dispatched.snoc {h : List (Connection × Action)} {c : Nat} {id : Int64} {msg : Value}
    (hd : Dispatched json h c id msg) (p : Connection × Action) :
    Dispatched json (h ++ [p]) c id msg := by
  obtain ⟨s, outcome, hm, hd⟩ := hd
  exact ⟨s, outcome, List.mem_append_left _ hm, hd⟩

/-- Ids count the calls; what is in the map, in a mailbox or in an answer belongs to its call. -/
structure Traced (json : Json) (h : List (Connection × Action)) (s : Connection) : Prop where
  nextId : s.nextId = .ofNat s.calls.length
  ids : ∀ (i : Nat) call, s.calls[i]? = some call → call.id = .ofNat (i + 1)
  registered : ∀ id c, s.pending.lookup id = some c →
    ∃ call, s.calls[c]? = some call ∧ call.id = id ∧ call.phase ≠ .drawn
  mailed : ∀ (i : Nat) call, s.calls[i]? = some call → ∀ msg ∈ call.mailbox,
    Dispatched json h i call.id msg
  answered : ∀ (i : Nat) call r, s.calls[i]? = some call → call.phase = .returned r → IsAnswer r →
    ∃ msg, Dispatched json h i call.id msg ∧ r = answerOf call.method msg

theorem traced_new : Traced json [] new where
  nextId := rfl
  ids := by simp [new]
  registered := by simp [new]
  mailed := by simp [new]
  answered := by simp [new]

/-- A call that has left its first phase keeps its id and does not come back to that phase. -/
theorem started_step (hst : StepCase json s a t) {i : Nat} {call : Call}
    (hc : s.calls[i]? = some call) (hp : call.phase ≠ .drawn) :
    ∃ call', t.calls[i]? = some call' ∧ call'.id = call.id ∧ call'.phase ≠ .drawn := by
  have hch := call_change hst i
  rw [hc] at hch
  generalize ht : t.calls[i]? = x at hch
  cases hch with
  | same => exact ⟨call, rfl, rfl, hp⟩
  | moved _ phase hd => exact ⟨_, rfl, rfl, hd⟩
  | mailed => exact ⟨_, rfl, rfl, hp⟩

/-- A call whose `recv_timeout` gave up: it has returned the timeout or is about to. -/
def GaveUp (call : Call) : Prop :=
  call.phase = .timedOut ∨ call.phase = .returned (.error (.timeout call.method call.timeout))

theorem gaveUp_step (hst : StepCase json s a t) {i : Nat} {call : Call}
    (hc : s.calls[i]? = some call) (hg : GaveUp call) :
    ∃ call', t.calls[i]? = some call' ∧ GaveUp call' := by
  have hch := call_change hst i
  rw [hc] at hch
  generalize ht : t.calls[i]? = x at hch
  cases hch with
  | same => exact ⟨call, rfl, hg⟩
  | moved _ phase _ hn hto => exact ⟨_, rfl, .inr (hto (hg.resolve_right (hn _)))⟩
  | mailed => exact ⟨_, rfl, hg⟩

/-- A call that gave up stays so, whatever is dispatched to it afterwards. -/
theorem gaveUp_of_run {h : List (Connection × Action)}
    (hr : Run (Steps (step json)) new h s) (c : Nat) (hx : ∃ s₁, (s₁, .expire c) ∈ h) :
    ∃ call, s.calls[c]? = some call ∧ GaveUp call := by
  refine hr.induct (fun h s => (∃ s₁, (s₁, .expire c) ∈ h) →
    ∃ call, s.calls[c]? = some call ∧ GaveUp call) (by simp) ?_ hx
  rintro h s a t _ ih hst ⟨s₁, hm⟩
  have hst := step_case hst
  rcases List.mem_append.mp hm with hm | hm
  · obtain ⟨call, hc, hg⟩ := ih ⟨s₁, hm⟩
    exact gaveUp_step hst hc hg
  · obtain ⟨rfl, rfl⟩ : s₁ = s ∧ .expire c = a := by simpa using hm
    cases hst with
    | expired _ call hc =>
      exact ⟨{ call with phase := .timedOut }, by simp [setPhase, hc], .inl rfl⟩
    | quiet _ _ _ _ _ hq => cases hq

/-- What a step makes of the map: a started call registers, or entries go. -/
theorem registered_step (hst : StepCase json s a t) {id : Int64} {c : Nat}
    (hl : t.pending.lookup id = some c) : s.pending.lookup id = some c ∨
      ∃ call, s.calls[c]? = some call ∧ call.id = id ∧ call.phase = .drawn ∧
        ∃ call', t.calls[c]? = some call' ∧ call'.id = id ∧ call'.phase ≠ .drawn := by
  cases hst with
  | register c' call hc hp =>
    change (s.pending.insert call.id c').lookup id = some c at hl
    rw [lookup_insert_ite] at hl
    split_ifs at hl with hid
    · obtain rfl := Option.some.inj hl
      refine .inr ⟨call, hc, hid.symm, hp, { call with phase := .registered }, ?_, hid.symm, ?_⟩
      · simp [setPhase, hc]
      · simp
    · exact .inl hl
  | unregistered c' call => exact .inl (lookup_of_lookup_erase hl)
  | resolved outcome msg d id' => exact .inl (lookup_of_lookup_erase hl)
  | clear => simp at hl
  | _ => exact .inl hl

theorem nextId_step (hst : StepCase json s a t) (h : s.nextId = .ofNat s.calls.length) :
    t.nextId = .ofNat t.calls.length := by
  cases hst with
  | call => simp [h]
  | _ => simpa [setPhase, deliver] using h

/-- What one step does to the trace. -/
theorem traced_step {h : List (Connection × Action)} (hi : Traced json h s)
    (hst : StepCase json s a t) : Traced json (h ++ [(s, a)]) t where
  nextId := nextId_step hst hi.nextId
  ids := by
    intro i call hc
    have hch := call_change hst i
    rw [hc] at hch
    generalize hx : s.calls[i]? = x at hch
    cases hch with
    | same => exact hi.ids i call hx
    | made _ hlen hid => rw [hid, hi.nextId, hlen]; simp
    | moved call' => exact hi.ids i call' hx
    | mailed call' => exact hi.ids i call' hx
  registered := by
    intro id c hl
    rcases registered_step hst hl with hl | ⟨-, -, -, -, hc⟩
    · obtain ⟨call, hc, hid, hp⟩ := hi.registered id c hl
      obtain ⟨call', hc', hid', hp'⟩ := started_step hst hc hp
      exact ⟨call', hc', hid'.trans hid, hp'⟩
    · exact hc
  mailed := by
    intro i call hc msg hm
    have hch := call_change hst i
    rw [hc] at hch
    generalize hx : s.calls[i]? = x at hch
    cases hch with
    | same => exact (hi.mailed i call hx msg hm).snoc _
    | made _ _ _ _ he => simp [he] at hm
    | moved call' => exact (hi.mailed i call' hx msg hm).snoc _
    | mailed call' outcome msg' id ha hd hid hl =>
      rcases List.mem_append.mp hm with hm | hm
      · exact (hi.mailed i call' hx msg hm).snoc _
      · -- the message just sent: its id is the one its call is registered under
        obtain rfl := List.mem_singleton.mp hm
        obtain ⟨call'', hc', rfl, -⟩ := hi.registered id i hl
        obtain rfl := Option.some.inj (hx.symm.trans hc')
        exact ⟨s, outcome, by simp [ha], hd, hid, hl⟩
  answered := by
    intro i call r hc hp hr
    have hch := call_change hst i
    rw [hc] at hch
    generalize hx : s.calls[i]? = x at hch
    cases hch with
    | same =>
      obtain ⟨msg, hd, he⟩ := hi.answered i call r hx hp hr
      exact ⟨msg, hd.snoc _, he⟩
    | made _ _ _ hd => rw [hd] at hp; cases hp
    | moved call' phase _ _ _ ha =>
      obtain ⟨msg, hm, he⟩ := ha r hp hr
      exact ⟨msg, (hi.mailed i call' hx msg hm).snoc _, he⟩
    | mailed call' =>
      obtain ⟨msg, hd, he⟩ := hi.answered i call' r hx hp hr
      exact ⟨msg, hd.snoc _, he⟩

theorem traced_of_run {h : List (Connection × Action)}
    (hr : Run (Steps (step json)) new h s) : Traced json h s :=
  hr.induct (Traced json) traced_new fun _ _ _ _ _ hi hst => traced_step hi (step_case hst)

/-- While the calls are fewer than `2^63`, each has its own id. -/
theorem Traced.id_injective {h : List (Connection × Action)} (hi : Traced json h s)
    (hn : s.calls.length < 2^63) {i j : Nat} {call call' : Call} (hc : s.calls[i]? = some call)
    (hc' : s.calls[j]? = some call') (hid : call.id = call'.id) : i = j := by
  have hi' := (List.getElem?_eq_some_iff.mp hc).1
  have hj' := (List.getElem?_eq_some_iff.mp hc').1
  rw [hi.ids i call hc, hi.ids j call' hc'] at hid
  have ht := congrArg Int64.toInt hid
  rw [Int64.toInt_ofNat_of_lt (by omega), Int64.toInt_ofNat_of_lt (by omega)] at ht
  omega

/-- An id that was issued and registered, and is not registered any more. -/
def Settled (s : Connection) (id : Int64) : Prop :=
  s.pending.lookup id = none ∧
    ∃ (i : Nat) (call : Call), s.calls[i]? = some call ∧ call.id = id ∧ call.phase ≠ .drawn

/-- The steps that take a sender out: the dispatch of its answer, and the removal after a
timeout. -/
def Settles (json : Json) (id : Int64) (p : Connection × Action) : Prop :=
  (∃ outcome msg c, p.2 = .decode outcome ∧ p.1.Decodes json msg ∧ responseId msg = some id ∧
    p.1.pending.lookup id = some c) ∨
  ∃ (c : Nat) (call : Call), p.2 = .unregister c ∧ p.1.calls[c]? = some call ∧ call.id = id

/-- A settled id stays settled: only its own call could register it, and that has done so. -/
theorem settled_step {h : List (Connection × Action)} (hi : Traced json h s)
    (hn : s.calls.length < 2^63) (hst : StepCase json s a t) {id : Int64} (hs : s.Settled id) :
    t.Settled id := by
  obtain ⟨hl, i, call, hc, hid, hp⟩ := hs
  obtain ⟨call', hc', hid', hp'⟩ := started_step hst hc hp
  refine ⟨?_, i, call', hc', hid'.trans hid, hp'⟩
  by_contra hne
  obtain ⟨c, hlt⟩ := Option.ne_none_iff_exists'.mp hne
  -- a new entry under the id would be registered by its own call a second time
  rcases registered_step hst hlt with hls | ⟨call₂, hc₂, hid₂, hp₂, -⟩
  · simp [hl] at hls
  · obtain rfl := hi.id_injective hn hc hc₂ (hid.trans hid₂.symm)
    obtain rfl := Option.some.inj (hc.symm.trans hc₂)
    exact hp hp₂

theorem settled_of_settles {h : List (Connection × Action)} (hi : Traced json h s)
    (hst : StepCase json s a t) {id : Int64} (hs : Settles json id (s, a)) : t.Settled id := by
  rcases hs with ⟨outcome, msg, c, rfl, hd, hid, hl⟩ | ⟨c, call, rfl, hc, hid⟩
  · obtain ⟨call, hc, hid', hp⟩ := hi.registered id c hl
    obtain ⟨call', hc', hid'', hp'⟩ := started_step hst hc hp
    refine ⟨?_, c, call', hc', hid''.trans hid', hp'⟩
    cases hst with
    | resolved _ msg' d id₂ c' hd' hid₂ =>
      rw [hd'.unique hd, hid] at hid₂
      obtain rfl := Option.some.inj hid₂
      exact Finmap.lookup_erase id s.pending
    | quiet _ _ _ _ _ _ _ hq =>
      have hnone := hq outcome msg rfl hd
      simp [target, hid, hl] at hnone
  · cases hst with
    | unregistered _ call' hc' hp =>
      obtain rfl := Option.some.inj (hc.symm.trans hc')
      have hst : StepCase json s _ _ := .unregistered c call hc hp
      obtain ⟨call₂, hc₂, hid₂, hp₂⟩ := started_step hst hc (by simp [hp])
      refine ⟨?_, c, call₂, hc₂, hid₂.trans hid, hp₂⟩
      rw [← hid]
      exact Finmap.lookup_erase call.id s.pending
    | quiet _ _ _ _ _ hq => cases hq

theorem length_step (hst : StepCase json s a t) : s.calls.length ≤ t.calls.length := by
  cases hst <;> simp [setPhase, deliver]

theorem length_le_of_run {h : List (Connection × Action)}
    (hr : Run (Steps (step json)) new h s) : ∀ p ∈ h, p.1.calls.length ≤ s.calls.length := by
  refine hr.induct (fun h s => ∀ p ∈ h, p.1.calls.length ≤ s.calls.length) (by simp) ?_
  intro h s a t _ ih hst p hp
  have hst := length_step (step_case hst)
  rcases List.mem_append.mp hp with hp | hp
  · exact (ih p hp).trans hst
  · obtain rfl := List.mem_singleton.mp hp
    exact hst

theorem settled_of_run {h : List (Connection × Action)}
    (hr : Run (Steps (step json)) new h s) (hn : s.calls.length < 2^63) (id : Int64)
    (hs : ∃ p ∈ h, Settles json id p) : s.Settled id := by
  refine hr.induct (fun h s => s.calls.length < 2^63 → (∃ p ∈ h, Settles json id p) →
    s.Settled id) (by simp) ?_ hn hs
  rintro h s a t hr ih hst hn ⟨p, hp, hs⟩
  have hst := step_case hst
  have hn' := (length_step hst).trans_lt hn
  rcases List.mem_append.mp hp with hp | hp
  · exact settled_step (traced_of_run hr) hn' hst (ih hn' ⟨p, hp, hs⟩)
  · obtain rfl := List.mem_singleton.mp hp
    exact settled_of_settles (traced_of_run hr) hst hs

/-- A message that takes no sender out of the map leaves every call as it was. -/
theorem calls_of_target_none {outcome : WriteOutcome} {msg : Value}
    (hst : StepCase json s (.decode outcome) t) (hd : s.Decodes json msg)
    (ht : s.target msg = none) : t.calls = s.calls ∧ t.pending = s.pending := by
  cases hst with
  | resolved _ msg' d id c hd' hid hl =>
    rw [← hd'.unique hd] at ht
    simp [target, hid, hl] at ht
  | quiet => exact ⟨rfl, rfl⟩

/-- Response correlation, for fewer than `2^63` calls. An answer comes from a message under the
call's own id, which no other call has, dispatched while the call was registered; a call that
gave up keeps to its timeout; a message changes one call at most; and a message that is no
response, or is one for an id never issued, already answered or already removed after a timeout,
changes none. -/
theorem response_correlation {h : List (Connection × Action)}
    (hr : Run (Steps (step json)) new h s) (hn : s.calls.length < 2^63) :
    (∀ (c : Nat) call r, s.calls[c]? = some call → call.phase = .returned r → IsAnswer r →
      ∃ msg, Dispatched json h c call.id msg ∧ r = answerOf call.method msg) ∧
    (∀ (c c' : Nat) call call', s.calls[c]? = some call → s.calls[c']? = some call' →
      call.id = call'.id → c = c') ∧
    (∀ c s₁, (s₁, .expire c) ∈ h → ∃ call, s.calls[c]? = some call ∧ GaveUp call) ∧
    (∀ h₁ s₁ outcome h₂ t, h = h₁ ++ (s₁, .decode outcome) :: h₂ →
      s₁.step json (.decode outcome) = some t →
      (∃ c : Nat, ∀ c' : Nat, c' ≠ c → t.calls[c']? = s₁.calls[c']?) ∧
      ∀ msg, s₁.Decodes json msg →
        (∀ id, responseId msg = some id →
          (∀ (c : Nat) call, s₁.calls[c]? = some call → call.id ≠ id) ∨
          ∃ p ∈ h₁, Settles json id p) →
        t.calls = s₁.calls ∧ t.pending = s₁.pending) := by
  have hi := traced_of_run hr
  refine ⟨hi.answered, fun c c' call call' => hi.id_injective hn,
    fun c s₁ hm => gaveUp_of_run hr c ⟨s₁, hm⟩, ?_⟩
  rintro h₁ s₁ outcome h₂ t rfl hst
  have hst := step_case hst
  have hr₁ := hr.split.1
  have hn₁ := (length_le_of_run hr (s₁, .decode outcome) (by simp)).trans_lt hn
  constructor
  · cases hst with
    | resolved _ msg d id c =>
      refine ⟨c, fun c' hc => ?_⟩
      exact List.getElem?_modify_ne _ _ hc.symm
    | quiet => exact ⟨0, fun _ _ => rfl⟩
  · intro msg hd hid
    refine calls_of_target_none hst hd ?_
    unfold target
    cases hm : responseId msg with
    | none => rfl
    | some id =>
      -- nobody is registered under an id that was never issued, nor under a settled one
      rcases hid id hm with hnew | hold
      · rw [Option.bind_some]
        by_contra hne
        obtain ⟨c, hl⟩ := Option.ne_none_iff_exists'.mp hne
        obtain ⟨call, hc, hid, -⟩ := (traced_of_run hr₁).registered id c hl
        exact hnew c call hc hid
      · exact (settled_of_run hr₁ hn₁ id hold).1

/-- Two calls, of which the second is answered first and twice. -/
def answeredTwice : List Action :=
  [.call "shutdown" .null 5000, .call "shutdown" .null 5000, .register 1, .register 0,
    .write 0 .done, .write 1 .done, .read (encode (sampleResponse 2) ++ encode (sampleResponse 2)),
    .decode .done, .decode .done, .receive 1]

/-- The second call returns on its own response, and the first one is left waiting. -/
theorem response_correlation_answered_twice :
    ∃ h s, Run (Steps (step sampleJson)) new h s ∧ h.map Prod.snd = answeredTwice ∧
      (s.calls.map Call.mailbox).map List.length = [0, 1] ∧
      ∃ msg, Dispatched sampleJson h 1 2 msg ∧ .ok .null = answerOf "shutdown" msg := by
  have hr := run_of_exec (step sampleJson) new answeredTwice rfl
  refine ⟨_, _, hr, rfl, rfl, ?_⟩
  exact (response_correlation hr (by decide)).1 1 _ _ rfl rfl trivial

end Connection

end LspGraph
