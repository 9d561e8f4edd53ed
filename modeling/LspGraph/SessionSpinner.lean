import LspGraph.SessionAnswers

/-! The spinner: while an expansion is pending, its answer is on the way or the session ends. -/
namespace LspGraph
open Runs

/-- What an event leaves pending: what it asks for itself, or what it does not answer. -/
theorem EventCase.pending {a a' : App} {ev : Event} {reqs : List Request}
    (he : EventCase a ev reqs a') {id : NodeId} (h : a'.pending = some id) :
    .expand id ∈ reqs ∨ a.pending = some id ∧ ¬Answers (.expand id) ev := by
  cases he with
  | ready => exact .inr ⟨h, not_false⟩
  | matched => exact .inr ⟨h, not_false⟩
  | focused node =>
    have hid : node.id = id := Option.some.inj h
    rw [← hid]
    exact .inl (List.mem_singleton.mpr rfl)
  | expanded => cases h
  | failed => cases h
  | noted _ error quit _ _ hno => exact .inr ⟨h, hno id h⟩

theorem KeyCase.pending {a a' : App} {reqs : List Request} (hk : KeyCase a reqs a') {id : NodeId}
    (h : a'.pending = some id) : .expand id ∈ reqs ∨ a.pending = some id := by
  cases hk with
  | recentred next =>
    have hid : next.id = id := Option.some.inj h
    rw [← hid]
    exact .inl (List.mem_singleton.mpr rfl)
  | wentBack init prev =>
    have hid : prev.id = id := Option.some.inj h
    rw [← hid]
    exact .inl (List.mem_singleton.mpr rfl)
  | _ => exact .inr h

theorem EventCase.shouldQuit {a a' : App} {ev : Event} {reqs : List Request}
    (he : EventCase a ev reqs a') (h : a.shouldQuit = true ∨ ∃ why, ev = .fatal why) :
    a'.shouldQuit = true := by
  cases he with
  | noted _ error quit _ _ _ hq => exact hq h
  | _ => exact h.resolve_right (by simp)

theorem KeyCase.shouldQuit {a a' : App} {reqs : List Request} (hk : KeyCase a reqs a')
    (h : a.shouldQuit = true) : a'.shouldQuit = true := by
  cases hk with
  | quiet _ _ _ _ _ _ hq => exact hq h
  | _ => exact h

namespace Session

variable {σ : Type*} {ops : EngineOps σ} {s t : Session σ} {engine : σ} {h : History σ}

/-- An expansion of the node is queued or being served, or its answer is in the channel. -/
def Awaited (s : Session σ) (id : NodeId) : Prop :=
  .expand id ∈ s.requests.queue ∨ s.worker = .serving (.expand id) ∨
    ∃ ev ∈ s.events.queue, Answers (.expand id) ev

/-- The session is on its way to its end. -/
def Ending (s : Session σ) : Prop :=
  .restart ∈ s.requests.sent ∨ .shutdown ∈ s.requests.sent ∨
    (∃ why, .fatal why ∈ s.events.queue) ∨ s.app.shouldQuit = true

/-- What is queued stays queued, and what is being served is still being served. -/
theorem Awaited.mono {id : NodeId} (h : s.Awaited id)
    (hr : s.requests.queue ⊆ t.requests.queue) (he : s.events.queue ⊆ t.events.queue)
    (hw : s.worker = .serving (.expand id) → t.worker = .serving (.expand id)) : t.Awaited id := by
  rcases h with h | h | ⟨ev, hm, hans⟩
  · exact .inl (hr h)
  · exact .inr (.inl (hw h))
  · exact .inr (.inr ⟨ev, he hm, hans⟩)

/-- Requests stay sent, and a fatal event leaves the queue by making the interface quit. -/
theorem ending_step {a : SessionAction} (hst : StepCase ops s a t) (h : s.Ending) :
    t.Ending := by
  have hsent (r : Request) (xs : List Request) (hr : r ∈ s.requests.sent) :
      r ∈ (s.requests.send xs).sent := List.mem_append_left xs hr
  cases hst with
  | announce =>
    refine h.imp_right (.imp_right (.imp_left ?_))
    exact fun ⟨why, hm⟩ => ⟨why, by simp [hm]⟩
  | take r c hw hc =>
    unfold Ending
    rw [(Channel.receive_some hc).1]
    exact h
  | serve =>
    refine h.imp_right (.imp_right (.imp_left ?_))
    exact fun ⟨why, hm⟩ => ⟨why, by simp [hm]⟩
  | hangUp => exact h
  | finish => exact h
  | event ev c reqs app hl hc he =>
    rcases h with h | h | ⟨why, hm⟩ | h
    · exact .inl (hsent _ _ h)
    · exact .inr (.inl (hsent _ _ h))
    · rw [Channel.queue_receive hc] at hm
      rcases List.mem_cons.mp hm with rfl | hm
      · exact .inr (.inr (.inr (he.shouldQuit (.inr ⟨why, rfl⟩))))
      · exact .inr (.inr (.inl ⟨why, hm⟩))
    · exact .inr (.inr (.inr (he.shouldQuit (.inl h))))
  | drained quit =>
    exact h.imp_right (.imp_right (.imp_right fun hq => by simp [hq]))
  | key a reqs app tail loop ha hk =>
    rcases h with h | h | h | h
    · exact .inl (hsent _ _ h)
    · exact .inr (.inl (hsent _ _ h))
    · exact .inr (.inr (.inl h))
    · exact .inr (.inr (.inr (hk.shouldQuit h)))

/-- A request that is served leaves its answer in the channel, or has ended the session. -/
theorem awaited_step {a : SessionAction} (hst : StepCase ops s a t)
    (h : ∀ id, s.app.pending = some id → s.Awaited id ∨ s.Ending) :
    ∀ id, t.app.pending = some id → t.Awaited id ∨ t.Ending := by
  intro id hp
  have hend (he : s.Ending) : t.Awaited id ∨ t.Ending := .inr (ending_step hst he)
  cases hst with
  | announce hw =>
    refine (h id hp).elim (fun ha => .inl (ha.mono (fun _ hm => hm) ?_ ?_)) hend
    · rw [Channel.queue_send]
      exact List.subset_append_left _ _
    · simp [hw]
  | take r c hw hc =>
    refine (h id hp).elim (fun ha => .inl ?_) hend
    rcases ha with ha | ha | ha
    · rw [Channel.queue_receive hc] at ha
      rcases List.mem_cons.mp ha with rfl | ha
      · exact .inr (.inl rfl)
      · exact .inl ha
    · rw [hw] at ha
      cases ha
    · exact .inr (.inr ha)
  | serve r hw =>
    refine (h id hp).elim (fun ha => .inl ?_) hend
    rcases ha with ha | ha | ⟨ev, hm, hans⟩
    · exact .inl ha
    · -- the expansion itself is served: its answer is sent now
      obtain rfl : r = .expand id := WorkerState.serving.inj (hw.symm.trans ha)
      obtain ⟨ev, engine', he, hans⟩ := serveRequest_answers ops s.engine (.expand id) rfl
      refine .inr (.inr ⟨ev, ?_, hans⟩)
      simp [he]
    · refine .inr (.inr ⟨ev, ?_, hans⟩)
      simp [hm]
  | hangUp hw =>
    refine (h id hp).elim (fun ha => .inl (ha.mono (fun _ hm => hm) (fun _ hm => hm) ?_)) hend
    simp [hw]
  | finish hw =>
    refine (h id hp).elim (fun ha => .inl (ha.mono (fun _ hm => hm) (fun _ hm => hm) ?_)) hend
    simp [hw]
  | event ev c reqs app hl hc he =>
    rcases he.pending hp with hnew | ⟨hp, hans⟩
    · exact .inl (.inl (by simp [hnew]))
    · refine (h id hp).elim (fun ha => .inl ?_) hend
      rcases ha with ha | ha | ⟨ev', hm, hans'⟩
      · exact .inl (by simp [ha])
      · exact .inr (.inl ha)
      · -- the event just received is not the awaited one
        rw [Channel.queue_receive hc] at hm
        rcases List.mem_cons.mp hm with rfl | hm
        · exact absurd hans' hans
        · exact .inr (.inr ⟨ev', hm, hans'⟩)
  | drained quit => exact (h id hp).elim .inl hend
  | key a reqs app tail loop ha hk =>
    rcases hk.pending hp with hnew | hp
    · exact .inl (.inl (by simp [hnew]))
    · refine (h id hp).elim (fun ha => .inl (ha.mono ?_ (fun _ hm => hm) (fun hw => hw))) hend
      rw [Channel.queue_send]
      exact List.subset_append_left _ _

theorem left_step {a : SessionAction} (hst : StepCase ops s a t)
    (h : s.loop = .left → .shutdown ∈ s.requests.sent) :
    t.loop = .left → .shutdown ∈ t.requests.sent := by
  intro hl
  cases hst with
  | take r c hw hc =>
    rw [(Channel.receive_some hc).1]
    exact h hl
  | event => exact List.mem_append_left _ (h hl)
  | drained => cases hl
  | key a reqs app tail loop ha hk htail =>
    rcases htail with ⟨-, rfl⟩ | ⟨rfl, -⟩
    · cases hl
    · simp
  | _ => exact h hl

theorem stopped_step {a : SessionAction} (hst : StepCase ops s a t) (hal : s.Aligned)
    (hleft : s.loop = .left → .shutdown ∈ s.requests.sent)
    (h : s.worker = .stopping ∨ s.worker = .finished → s.Ending) :
    t.worker = .stopping ∨ t.worker = .finished → t.Ending := by
  intro hw
  have hkeep (he : s.Ending) : t.Ending := ending_step hst he
  cases hst with
  | announce => simp at hw
  | take => simp at hw
  | serve r hws =>
    -- the request that ends the worker's loop is among those sent
    have hr := hal.serving_mem hws
    cases r with
    | restart => exact .inl hr
    | shutdown => exact .inr (.inl hr)
    | _ => simp [serveRequest] at hw
  | hangUp hi hl => exact .inr (.inl (hleft hl))
  | finish hs => exact h (.inl hs)
  | event => exact hkeep (h hw)
  | drained => exact hkeep (h hw)
  | key => exact hkeep (h hw)

/-- A worker whose loop has ended was told to end it. -/
theorem ending_of_stopped (hr : Run (Steps (step ops)) (start engine) h s)
    (hw : s.worker = .stopping ∨ s.worker = .finished) : s.Ending := by
  have hboth : (s.loop = .left → .shutdown ∈ s.requests.sent) ∧
      (s.worker = .stopping ∨ s.worker = .finished → s.Ending) := by
    refine hr.induct (fun _ s => (s.loop = .left → .shutdown ∈ s.requests.sent) ∧
      (s.worker = .stopping ∨ s.worker = .finished → s.Ending)) ?_ ?_
    · simp [start]
    · intro h s a t hr ih hst
      have hc := step_case hst
      exact ⟨left_step hc ih.1, stopped_step hc (aligned_of_run hr) ih.1 ih.2⟩
  exact hboth.2 hw

/-- No spinner without an outstanding answer. Whatever the engine returns, the answers of the
requests the worker has taken stand in the event channel, one each and in their order, up to the
first request that ends the worker; and a pending expansion is queued, being served or answered
in the channel, with the worker there to serve it, unless the session is ending. -/
theorem no_spinner_without_answer (hr : Run (Steps (step ops)) (start engine) h s) :
    s.Aligned ∧
      ∀ id, s.app.pending = some id → s.worker ≠ .finished ∧ s.Awaited id ∨ s.Ending := by
  have hpending : ∀ id, s.app.pending = some id → s.Awaited id ∨ s.Ending := by
    refine hr.invariant (fun s => ∀ id, s.app.pending = some id → s.Awaited id ∨ s.Ending) ?_ ?_
    · exact fun _ hp => by cases hp
    · exact fun _ _ _ h hst => awaited_step (step_case hst) h
  refine ⟨aligned_of_run hr, fun id hp => ?_⟩
  by_cases hw : s.worker = .finished
  · exact .inr (ending_of_stopped hr (.inr hw))
  · exact (hpending id hp).imp_left fun ha => ⟨hw, ha⟩

/-- Behind the seeded event an expansion is pending, and its request is queued. -/
theorem no_spinner_without_answer_seeded :
    ∃ h s, Run (Steps (step (stub [stubMatch]))) (start ()) h s ∧
      h.map Prod.snd = searchAndSeed ∧ s.app.pending = some (stubId "f") ∧
      (s.worker ≠ .finished ∧ s.Awaited (stubId "f") ∨ s.Ending) := by
  have hr := run_of_exec (step (stub [stubMatch])) (start ()) searchAndSeed rfl
  exact ⟨_, _, hr, rfl, rfl, (no_spinner_without_answer hr).2 _ rfl⟩

end Session

end LspGraph
