import LspGraph.PendingEntries
import LspGraph.RequestProgress

/-! What a response does for the call it is for: from the moment it is dispatched, the call can only
return it, unless its own frame cannot be written. -/
namespace LspGraph
open FiniteMaps Runs

namespace Connection

variable {json : Json} {s t : Connection} {a : Action} {h : List (Connection × Action)} {c : Nat}
  {call : Call} {msg : Value}

/-- A response was dispatched to call `c`, which was registered under its id and had not given
up. -/
def Answered (json : Json) (h : List (Connection × Action)) (c : Nat) (msg : Value) : Prop :=
  ∃ s₁ outcome call₁, (s₁, .decode outcome) ∈ h ∧ s₁.Decodes json msg ∧
    responseId msg = some call₁.id ∧ s₁.pending.lookup call₁.id = some c ∧
    s₁.calls[c]? = some call₁ ∧ (call₁.phase = .registered ∨ call₁.phase = .waiting)

/-- What can become of a call that has been answered. -/
inductive Fate (json : Json) (h : List (Connection × Action)) (c : Nat) (msg : Value)
    (call : Call) : Prop where
  | held : call.phase = .registered ∨ call.phase = .waiting → call.mailbox = [msg] →
      Fate json h c msg call
  | returned : call.phase = .returned (answerOf call.method msg) → Fate json h c msg call
  | unwritten (s₁ : Connection) (outcome : WriteOutcome) (e : Error) :
      (s₁, .write c outcome) ∈ h → call.phase = .returned (.error e) →
      (s₁.writeMessage json (requestMessage call.id call.method call.params) outcome).1 =
        .error e → Fate json h c msg call

theorem Fate.snoc (hf : Fate json h c msg call) (p : Connection × Action) :
    Fate json (h ++ [p]) c msg call := by
  cases hf with
  | held hp hm => exact .held hp hm
  | returned hp => exact .returned hp
  | unwritten s₁ outcome e hmem hp he =>
    exact .unwritten s₁ outcome e (List.mem_append_left _ hmem) hp he

/-- A call whose sender is gone is changed by its own steps only. -/
theorem untouched_step (hst : StepCase json s a t) (ha : a.ofCall ≠ some c)
    (hc : s.calls[c]? = some call) (hgone : ∀ id, s.pending.lookup id ≠ some c) :
    t.calls[c]? = some call := by
  have hlt : c < s.calls.length := (List.getElem?_eq_some_iff.mp hc).1
  cases hown : a.ofCall with
  | some c' =>
    obtain ⟨hs, -, -⟩ := own_step hst hown
    have hne : c' ≠ c := fun he => ha (he ▸ hown)
    exact (calls_setPhase_of_ne hs hne).trans hc
  | none =>
    cases hst with
    | call => exact (List.getElem?_append_left hlt).trans hc
    | resolved outcome msg d id c' hd hid hl =>
      -- the message goes to a call whose sender is there
      have hne : c' ≠ c := fun he => hgone id (he ▸ hl)
      exact (List.getElem?_modify_ne _ _ hne).trans hc
    | quiet | clear => exact hc
    | _ => cases hown

/-- A write ends in a call that waits, or in one that returns the error of the write. -/
theorem writeCall_fate {outcome : WriteOutcome} (hc : s.calls[c]? = some call)
    (h : s.writeCall json outcome c call = some t) :
    ∃ phase, t.calls[c]? = some { call with phase := phase } ∧ (phase = .waiting ∨
      ∃ e, phase = .returned (.error e) ∧ (s.writeMessage json
        (requestMessage call.id call.method call.params) outcome).1 = .error e) := by
  unfold writeCall at h
  split at h
  · obtain ⟨w, hw, -⟩ := writeMessage_eq json s
      (requestMessage call.id call.method call.params) outcome
    rcases hm : s.writeMessage json (requestMessage call.id call.method call.params) outcome
      with ⟨e | ⟨⟩, s'⟩
    all_goals
      rw [hm] at h hw
      obtain rfl : s' = { s with written := w } := hw
      obtain rfl := Option.some.inj h
    · exact ⟨.returned (.error e), by simp [setPhase, hc], .inr ⟨e, rfl, rfl⟩⟩
    · exact ⟨.waiting, by simp [setPhase, hc], .inl rfl⟩
  · cases h

/-- A step of a call that holds its answer: it writes its frame, or it returns the answer. -/
theorem fate_own (hst : s.step json a = some t) (ha : a.ofCall = some c)
    (hc : s.calls[c]? = some call) (hp : call.phase = .registered ∨ call.phase = .waiting)
    (hm : call.mailbox = [msg]) :
    ∃ phase, t.calls[c]? = some { call with phase := phase } ∧
      Fate json (h ++ [(s, a)]) c msg { call with phase := phase } := by
  have hbind {f : Call → Option Connection} (hb : (s.calls[c]?).bind f = some t) :
      f call = some t := by
    rwa [hc] at hb
  cases a with
  | register c' =>
    obtain rfl := Option.some.inj ha
    have hstep : s.registerCall c' call = some t := hbind hst
    rcases hp with hp | hp <;> simp [registerCall, hp] at hstep
  | write c' outcome =>
    obtain rfl := Option.some.inj ha
    obtain ⟨phase, ht, rfl | ⟨e, rfl, he⟩⟩ := writeCall_fate hc (hbind hst)
    · exact ⟨_, ht, .held (.inr rfl) hm⟩
    · exact ⟨_, ht, .unwritten s outcome e (by simp) rfl he⟩
  | receive c' =>
    obtain rfl := Option.some.inj ha
    have hstep : s.receiveCall c' call = some t := hbind hst
    rcases hp with hp | hp
    · simp [receiveCall, hp] at hstep
    · simp only [receiveCall, hp, hm, Option.some.injEq] at hstep
      subst hstep
      exact ⟨.returned (answerOf call.method msg), by simp [setPhase, hc], .returned rfl⟩
  | expire c' =>
    -- the answer is in the mailbox, so that there is nothing to wait for
    obtain rfl := Option.some.inj ha
    have hstep : s.expireCall c' call = some t := hbind hst
    rcases hp with hp | hp <;> simp [expireCall, hp, hm] at hstep
  | unregister c' =>
    obtain rfl := Option.some.inj ha
    have hstep : s.unregisterCall c' call = some t := hbind hst
    rcases hp with hp | hp <;> simp [unregisterCall, hp] at hstep
  | _ => cases ha

/-- The fate of an answered call is sealed: no step of any thread gives it another one. -/
theorem fate_step (hi : Traced json h s) (hst : s.step json a = some t)
    (hc : s.calls[c]? = some call) (hgone : s.pending.lookup call.id = none)
    (hf : Fate json h c msg call) :
    ∃ call', t.calls[c]? = some call' ∧ call'.id = call.id ∧
      Fate json (h ++ [(s, a)]) c msg call' := by
  by_cases ha : a.ofCall = some c
  · have hreturned {r : Result Value} (hp : call.phase = .returned r) :
        ∃ call', t.calls[c]? = some call' ∧ call'.id = call.id ∧
          Fate json (h ++ [(s, a)]) c msg call' :=
      absurd ha (not_own_step hc hp (step_case hst))
    cases hf with
    | held hp hm =>
      obtain ⟨phase, ht, hfate⟩ := fate_own (h := h) hst ha hc hp hm
      exact ⟨_, ht, rfl, hfate⟩
    | returned hp => exact hreturned hp
    | unwritten s₁ outcome e _ hp => exact hreturned hp
  · refine ⟨call, untouched_step (step_case hst) ha hc ?_, rfl, hf.snoc _⟩
    intro id hl
    obtain ⟨call', hc', hid, -⟩ := hi.registered id c hl
    obtain rfl := Option.some.inj (hc.symm.trans hc')
    rw [hid, hl] at hgone
    cases hgone

/-- The dispatch itself puts the response into the empty mailbox of the call. -/
theorem fate_dispatch {outcome : WriteOutcome} (hu : s.Unanswered)
    (hst : StepCase json s (.decode outcome) t) (hd : s.Decodes json msg)
    (hid : responseId msg = some call.id) (hl : s.pending.lookup call.id = some c)
    (hc : s.calls[c]? = some call) (hp : call.phase = .registered ∨ call.phase = .waiting) :
    t.calls[c]? = some { call with mailbox := [msg] } := by
  have hempty : call.mailbox = [] := hu c call hc (.inr hl)
  cases hst with
  | resolved _ msg' d id' c' hd' hid' hl' =>
    obtain rfl := hd'.unique hd
    obtain rfl := Option.some.inj (hid.symm.trans hid')
    obtain rfl := Option.some.inj (hl.symm.trans hl')
    change (s.calls.modify c _)[c]? = _
    rw [List.getElem?_modify_eq, hc]
    rcases hp with hp | hp <;> simp [hp, hempty]
  | quiet _ _ _ _ _ _ _ hq =>
    have hnone := hq outcome msg rfl hd
    simp [target, hid, hl] at hnone

/-- What settles the id of an answered call. -/
theorem Answered.settles (hx : Answered json h c msg) :
    ∃ id, responseId msg = some id ∧ ∃ p ∈ h, Settles json id p := by
  obtain ⟨s₁, outcome, call₁, hmem, hd, hid, hl, -, -⟩ := hx
  exact ⟨call₁.id, hid, _, hmem, .inl ⟨outcome, msg, c, rfl, hd, hid, hl⟩⟩

/-- An answered call is answered by the step before, or in this one. -/
theorem answered_snoc (hx : Answered json (h ++ [(s, a)]) c msg) : Answered json h c msg ∨
    ∃ outcome call, a = .decode outcome ∧ s.Decodes json msg ∧ responseId msg = some call.id ∧
      s.pending.lookup call.id = some c ∧ s.calls[c]? = some call ∧
      (call.phase = .registered ∨ call.phase = .waiting) := by
  obtain ⟨s₁, outcome, call₁, hmem, hx⟩ := hx
  rcases List.mem_append.mp hmem with hmem | hmem
  · exact .inl ⟨s₁, outcome, call₁, hmem, hx⟩
  · obtain ⟨rfl, rfl⟩ : s₁ = s ∧ .decode outcome = a := by simpa using hmem
    exact .inr ⟨outcome, call₁, rfl, hx⟩

theorem fate_of_run (hr : Run (Steps (step json)) new h s) (hn : s.calls.length < 2^63)
    (hx : Answered json h c msg) :
    ∃ call, s.calls[c]? = some call ∧ responseId msg = some call.id ∧ Fate json h c msg call := by
  refine hr.induct (fun h s => s.calls.length < 2^63 → Answered json h c msg →
    ∃ call, s.calls[c]? = some call ∧ responseId msg = some call.id ∧ Fate json h c msg call)
    ?_ ?_ hn hx
  · rintro - ⟨_, _, _, hmem, -⟩
    cases hmem
  · intro h s a t hr ih hst hn hx
    have hn' := (length_step (step_case hst)).trans_lt hn
    rcases answered_snoc hx with hx | ⟨outcome, call, rfl, hd, hid, hl, hc, hp⟩
    · obtain ⟨call, hc, hid, hf⟩ := ih hn' hx
      obtain ⟨id, hid', hsettles⟩ := hx.settles
      obtain rfl := Option.some.inj (hid.symm.trans hid')
      have hgone := (settled_of_run hr hn' call.id hsettles).1
      obtain ⟨call', hc', hsame, hf'⟩ := fate_step (traced_of_run hr) hst hc hgone hf
      exact ⟨call', hc', hsame ▸ hid, hf'⟩
    · have ht := fate_dispatch (unanswered_of_run hr) (step_case hst) hd hid hl hc hp
      exact ⟨_, ht, hid, .held hp rfl⟩

/-- A call whose response comes before its frame is written, and whose reader then ends. -/
def answeredEarly : List Action :=
  [.call "shutdown" .null 5000, .register 0, .read (encode (sampleResponse 1)), .decode .done,
    .decode .done, .readEnd, .dropWriter, .clear, .write 0 .done]

end Connection

end LspGraph
