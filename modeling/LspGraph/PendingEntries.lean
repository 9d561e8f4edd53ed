import LspGraph.ResponseCorrelation

/-! What a call of `request` leaves in the pending map when it returns: nothing, unless its write
failed. -/
namespace LspGraph
open FiniteMaps Runs

namespace Connection

/-- No call is in progress. -/
def Idle (s : Connection) : Prop := ∀ (c : Nat) call, s.calls[c]? = some call →
  ∃ r, call.phase = .returned r

/-- No returned call has its sender in the map. -/
def Removed (s : Connection) : Prop := ∀ (c : Nat) call r, s.calls[c]? = some call →
  call.phase = .returned r → s.pending.lookup call.id ≠ some c

/-- A finished call leaves nothing behind: its sender is gone, and, while no id is reused, nothing
at all is under its id; and where no call is in progress the map is empty. -/
structure LeavesNothing (s : Connection) : Prop where
  removed : s.Removed
  noEntry : s.calls.length < 2^63 → ∀ (c : Nat) call r, s.calls[c]? = some call →
    call.phase = .returned r → s.pending.lookup call.id = none
  idle : s.Idle → s.pending = ∅

/-- The condition on a step: no write fails while the sender of its call is in the map. -/
def WritesThrough (json : Json) (s : Connection) : Action → Prop
  | .write c outcome => ∀ call ∈ s.calls[c]?, s.pending.lookup call.id = some c →
      (s.writeMessage json (requestMessage call.id call.method call.params) outcome).1.isOk = true
  | _ => True

instance (json : Json) (s : Connection) : DecidablePred (s.WritesThrough json)
  | .write c _ => inferInstanceAs (Decidable (∀ call ∈ s.calls[c]?, _ → _))
  | .call _ _ _ | .register _ | .receive _ | .expire _ | .unregister _ | .notify _ _ _ | .read _
  | .readEnd | .decode _ | .dropWriter | .clear => isTrue trivial

variable {json : Json} {s t : Connection} {a : Action} {h : List (Connection × Action)}

/-- A call after one of the calls was changed: it is that one, or it is as it was. -/
theorem calls_modify {f : Call → Call} {c i : Nat} {call : Call}
    (hc : (s.calls.modify c f)[i]? = some call) :
    (c = i ∧ ∃ call', s.calls[i]? = some call' ∧ call = f call') ∨
      (c ≠ i ∧ s.calls[i]? = some call) := by
  by_cases hi : c = i
  · subst hi
    rw [List.getElem?_modify_eq] at hc
    obtain ⟨call', hc', rfl⟩ := Option.map_eq_some_iff.mp hc
    exact .inl ⟨rfl, call', hc', rfl⟩
  · rw [List.getElem?_modify_ne _ _ hi] at hc
    exact .inr ⟨hi, hc⟩

/-- A message sent to a call changes its mailbox only. -/
theorem calls_deliver {c i : Nat} {msg : Value} {call : Call}
    (hc : (s.deliver c msg).calls[i]? = some call) :
    ∃ call', s.calls[i]? = some call' ∧ call.id = call'.id ∧ call.phase = call'.phase := by
  rcases calls_modify hc with ⟨-, call', hc', rfl⟩ | ⟨-, hc'⟩
  · refine ⟨call', hc', ?_⟩
    split
    · exact ⟨rfl, rfl⟩
    · exact ⟨rfl, rfl⟩
  · exact ⟨call, hc', rfl, rfl⟩

/-- A call that is not registered yet, or whose sender is in the map, has been sent nothing. -/
def Unanswered (s : Connection) : Prop := ∀ (c : Nat) call, s.calls[c]? = some call →
  call.phase = .drawn ∨ s.pending.lookup call.id = some c → call.mailbox = []

theorem unanswered_step (hi : Traced json h s) (hu : s.Unanswered) (hst : StepCase json s a t) :
    t.Unanswered := by
  intro c call hc hopen
  have hch := call_change hst c
  rw [hc] at hch
  generalize hx : s.calls[c]? = x at hch
  -- the sender of a call that is not new was in the map before, or is put there now
  have hbefore (call' : Call) (hc' : s.calls[c]? = some call')
      (hl : t.pending.lookup call'.id = some c) : call'.mailbox = [] := by
    rcases registered_step hst hl with hl | ⟨call₂, hc₂, -, hp₂, -⟩
    · exact hu c call' hc' (.inr hl)
    · obtain rfl := Option.some.inj (hc'.symm.trans hc₂)
      exact hu c call' hc' (.inl hp₂)
  cases hch with
  | same =>
    rcases hopen with hp | hl
    · exact hu c call hx (.inl hp)
    · exact hbefore call hx hl
  | made _ _ _ _ hm => exact hm
  | moved call' phase hd => exact hbefore call' hx (hopen.resolve_left hd)
  | mailed call' outcome msg id ha hdec hid hl =>
    -- a message is sent by the step that takes the sender out
    obtain ⟨call₂, hc₂, rfl, hp₂⟩ := hi.registered id c hl
    obtain rfl := Option.some.inj (hx.symm.trans hc₂)
    have hgone := (settled_of_settles hi hst (.inl ⟨outcome, msg, c, ha, hdec, hid, hl⟩)).1
    rcases hopen with hp | hl'
    · exact absurd hp hp₂
    · exact absurd (hgone.symm.trans hl') (by simp)

theorem unanswered_of_run (hr : Run (Steps (step json)) new h s) : s.Unanswered := by
  apply hr.induct (fun _ s => s.Unanswered) (by simp [Unanswered, new])
  exact fun _ _ _ _ hr hu hst => unanswered_step (traced_of_run hr) hu (step_case hst)

/-- A write leaves the map alone, and its call waits, or returns if it failed. -/
theorem writeCall_phase {c : Nat} {call : Call} {outcome : WriteOutcome}
    (hc : s.calls[c]? = some call) (h : s.writeCall json outcome c call = some t) :
    t.pending = s.pending ∧ ∃ phase, t.calls[c]? = some { call with phase := phase } ∧
      if (s.writeMessage json (requestMessage call.id call.method call.params) outcome).1.isOk
      then phase = .waiting else ∃ r, phase = .returned r := by
  unfold writeCall at h
  split at h
  · obtain ⟨w, hw, -⟩ := writeMessage_eq json s
      (requestMessage call.id call.method call.params) outcome
    rcases hm : s.writeMessage json (requestMessage call.id call.method call.params) outcome
      with ⟨e | ⟨⟩, s'⟩
    all_goals
      rw [hm] at h hw
      obtain rfl : s' = { s with written := w } := hw
      obtain rfl := Option.some.inj h
    · exact ⟨rfl, .returned (.error e), by simp [setPhase, hc], .error e, rfl⟩
    · exact ⟨rfl, .waiting, by simp [setPhase, hc], rfl⟩
  · cases h

/-- One call gets another phase: the other calls keep what they had, so that only this one has to
be looked at, where it returns. -/
theorem Removed.setPhase {s' : Connection} {c : Nat} {phase : Phase} (hs : s.Removed)
    (hcalls : s'.calls = s.calls)
    (hold : ∀ id i, s'.pending.lookup id = some i → i ≠ c → s.pending.lookup id = some i)
    (hc : ∀ call r, s.calls[c]? = some call → phase = .returned r →
      s'.pending.lookup call.id ≠ some c) : (s'.setPhase c phase).Removed := by
  intro i call r hi hp hl
  rcases calls_modify hi with ⟨rfl, call', hi', rfl⟩ | ⟨hne, hi'⟩
  · rw [hcalls] at hi'
    exact hc call' r hi' hp hl
  · rw [hcalls] at hi'
    exact hs i call r hi' hp (hold _ _ hl (Ne.symm hne))

theorem Removed.call {call : Call} {s' : Connection} (hs : s.Removed)
    (hcalls : s'.calls = s.calls ++ [call]) (hpending : s'.pending = s.pending)
    (hp : call.phase = .drawn) : s'.Removed := by
  intro i call' r hi hp' hl
  rw [hcalls] at hi
  rw [hpending] at hl
  rcases lt_or_ge i s.calls.length with hlt | hge
  · rw [List.getElem?_append_left hlt] at hi
    exact hs i call' r hi hp' hl
  · -- the new call has not returned
    rw [List.getElem?_append_right hge] at hi
    obtain rfl := List.mem_singleton.mp (List.mem_of_getElem? hi)
    cases hp.symm.trans hp'

/-- Whoever returns has no sender in the map, unless it is a write that failed. -/
theorem removed_step (hst : s.step json a = some t) (hu : s.Unanswered) (hs : s.Removed)
    (hg : s.WritesThrough json a) : t.Removed := by
  have hcase := step_case hst
  cases hcase with
  | call => exact hs.call rfl rfl rfl
  | register c call hc =>
    refine hs.setPhase rfl (fun id i hl hne => ?_) (by rintro _ _ _ ⟨⟩)
    change (s.pending.insert call.id c).lookup id = some i at hl
    rw [lookup_insert_ite] at hl
    split_ifs at hl
    · exact absurd (Option.some.inj hl).symm hne
    · exact hl
  | wrote c call outcome w =>
    exact hs.setPhase rfl (fun _ _ hl _ => hl) (by rintro _ _ _ ⟨⟩)
  | writeFailed c call outcome w e hc =>
    -- with the sender in the map the write goes through, so that this case is not reached
    refine hs.setPhase rfl (fun _ _ hl _ => hl) fun call' r hc' _ hl => ?_
    obtain ⟨call₂, hc₂, hw⟩ := Option.bind_eq_some_iff.mp hst
    obtain rfl := Option.some.inj (hc'.symm.trans hc₂)
    obtain ⟨-, phase, hcalls, hwaits⟩ := writeCall_phase hc' hw
    rw [if_pos (hg call' hc' hl)] at hwaits
    rw [hwaits] at hcalls
    simp [Connection.setPhase, hc'] at hcalls
  | received c call msg hc hp hm =>
    -- a message in the mailbox took the sender out when it was sent
    refine hs.setPhase rfl (fun _ _ hl _ => hl) fun call' r hc' _ hl => ?_
    obtain rfl := Option.some.inj (hc.symm.trans hc')
    rw [hu c call hc (.inr hl)] at hm
    cases hm
  | exited c call hc hp hm hd =>
    refine hs.setPhase rfl (fun _ _ hl _ => hl) fun call' r hc' _ hl => ?_
    obtain rfl := Option.some.inj (hc.symm.trans hc')
    exact of_decide_eq_false hd hl
  | expired c call => exact hs.setPhase rfl (fun _ _ hl _ => hl) (by rintro _ _ _ ⟨⟩)
  | unregistered c call hc =>
    refine hs.setPhase rfl (fun _ _ hl _ => lookup_of_lookup_erase hl) fun call' r hc' _ hl => ?_
    obtain rfl := Option.some.inj (hc.symm.trans hc')
    exact absurd (hl.symm.trans (Finmap.lookup_erase call.id s.pending)) (by simp)
  | resolved outcome msg d id c =>
    intro i call r hi hp hl
    obtain ⟨call', hi', hid, hp'⟩ := calls_deliver hi
    rw [hid] at hl
    exact hs i call' r hi' (hp'.symm.trans hp) (lookup_of_lookup_erase hl)
  | quiet => exact hs
  | clear =>
    intro i call r _ _ hl
    simp at hl

/-- A write that fails with the sender in the map leaves it there. -/
theorem writesThrough_of_step (hst : s.step json a = some t) (ht : t.Removed) :
    s.WritesThrough json a := by
  cases a with
  | write c outcome =>
    intro call hc hl
    by_contra hfail
    obtain ⟨call', hc', hw⟩ := Option.bind_eq_some_iff.mp hst
    obtain rfl := Option.some.inj (hc'.symm.trans hc)
    obtain ⟨hpending, phase, hcalls, hreturns⟩ := writeCall_phase hc' hw
    rw [if_neg hfail] at hreturns
    obtain ⟨r, rfl⟩ := hreturns
    apply ht c _ r hcalls rfl
    rw [hpending]
    exact hl
  | _ => trivial

/-- Every sender in the map is that of a call, so that removed senders are all there is to it. -/
theorem Removed.leavesNothing (hi : Traced json h s) (hs : s.Removed) : s.LeavesNothing where
  removed := hs
  noEntry := by
    intro hn c call r hc hp
    by_contra hne
    -- an entry under the id is the call's own, since no other call has that id
    obtain ⟨c', hl⟩ := Option.ne_none_iff_exists'.mp hne
    obtain ⟨call', hc', hid, -⟩ := hi.registered _ _ hl
    obtain rfl := hi.id_injective hn hc' hc hid
    exact hs _ call r hc hp hl
  idle := by
    intro hidle
    apply Finmap.ext_lookup
    intro id
    rw [Finmap.lookup_empty]
    by_contra hne
    obtain ⟨c, hl⟩ := Option.ne_none_iff_exists'.mp hne
    obtain ⟨call, hc, rfl, -⟩ := hi.registered id c hl
    obtain ⟨r, hp⟩ := hidle c call hc
    exact hs c call r hc hp hl

/-- Finished calls leave nothing behind all along a run: if and only if no write of it fails while
the sender of its call is in the map. -/
theorem leaves_nothing_iff (hr : Run (Steps (step json)) new h s) :
    (∀ p ∈ h, p.1.WritesThrough json p.2) ↔
      ∀ h₁ t, h₁ <+: h → Run (Steps (step json)) new h₁ t → t.LeavesNothing := by
  have hiff := hr.guarded_iff (fun _ t => t.Removed) (WritesThrough json) (by simp [Removed, new])
    (fun _ _ _ _ hr hp hg hst => removed_step hst (unanswered_of_run hr) hp hg)
    (fun _ _ _ _ _ _ hst hp => writesThrough_of_step hst hp)
  rw [hiff]
  constructor
  · exact fun hall h₁ t hpre hr₁ => (hall h₁ t hpre hr₁).leavesNothing (traced_of_run hr₁)
  · exact fun hall h₁ t hpre hr₁ => (hall h₁ t hpre hr₁).removed

/-- A call whose frame meets a closed pipe. -/
def brokenPipe : List Action :=
  [.call "shutdown" .null 5000, .register 0, .write 0 (.failed 0 "Broken pipe (os error 32)")]

/-- No call is in progress, and the map still holds the sender of the one that failed. -/
theorem broken_pipe_leaves_its_sender :
    ∃ h s, Run (Steps (step sampleJson)) new h s ∧ h.map Prod.snd = brokenPipe ∧
      s.calls.map Call.id = [1] ∧ s.Idle ∧ s.pending.lookup 1 = some 0 := by
  have hr := run_of_exec (step sampleJson) new brokenPipe rfl
  refine ⟨_, _, hr, rfl, rfl, fun c call hc => ?_, by decide⟩
  obtain rfl := List.mem_singleton.mp (List.mem_of_getElem? hc)
  exact ⟨_, rfl⟩

/-- A call whose response is dispatched between its timeout and the removal of its sender. -/
def lateResponse : List Action :=
  [.call "shutdown" .null 5000, .register 0, .write 0 .done, .expire 0,
    .read (encode (sampleResponse 1)), .decode .done, .unregister 0]

/-- The race leaves nothing behind. -/
theorem leaves_nothing_late_response :
    ∃ h s, Run (Steps (step sampleJson)) new h s ∧ h.map Prod.snd = lateResponse ∧
      s.Idle ∧ s.pending = ∅ := by
  have hr := run_of_exec (step sampleJson) new lateResponse rfl
  have hs := (leaves_nothing_iff hr).mp (by decide) _ _ (List.prefix_refl _) hr
  refine ⟨_, _, hr, rfl, ?idle, hs.idle ?idle⟩
  intro c call hc
  obtain rfl := List.mem_singleton.mp (List.mem_of_getElem? hc)
  exact ⟨_, rfl⟩

end Connection

end LspGraph
