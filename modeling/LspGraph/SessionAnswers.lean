import LspGraph.Session

/-! Which event answers which request: the two channels of a session run in step, so that the
event behind the ready event with the index of a request is its answer. -/
namespace LspGraph
open Runs

namespace Session

variable {σ : Type*} {ops : EngineOps σ} {s t : Session σ} {engine : σ} {h : History σ}

/-- The first `n` requests are answered, in their order and by one event each; `tail` is what
follows their answers. -/
def AnsweredUpTo (s : Session σ) (n : ℕ) (tail : List Event) : Prop :=
  ∃ b answers, s.events.sent = .ready b :: (answers ++ tail) ∧
    List.Forall₂ Answers (s.requests.sent.take n) answers

/-- What a request that ends the worker's loop leaves behind in the event channel. -/
def LastWords : Request → List Event → Prop
  | .restart, tail => ∃ why, tail = [.fatal why]
  | .shutdown, tail => tail = []
  | _, _ => False

/-- How far the answers are, wherever the worker is: each request it has taken is answered by one
event, except the one being served and a last one that told it to end. -/
def Aligned (s : Session σ) : Prop :=
  match s.worker with
  | .starting => s.requests.received = 0 ∧ s.events.sent = []
  | .idle => s.AnsweredUpTo s.requests.received []
  | .serving r => ∃ n, s.requests.received = n + 1 ∧ s.requests.sent[n]? = some r ∧
      s.AnsweredUpTo n []
  | .stopping | .finished =>
    s.AnsweredUpTo s.requests.received [] ∨
      ∃ n r tail, s.requests.received = n + 1 ∧ s.requests.sent[n]? = some r ∧
        LastWords r tail ∧ s.AnsweredUpTo n tail

theorem AnsweredUpTo.mono {n : ℕ} {tail : List Event} (h : s.AnsweredUpTo n tail)
    (hn : n ≤ s.requests.sent.length) {xs : List Request} (he : t.events.sent = s.events.sent)
    (hr : t.requests.sent = s.requests.sent ++ xs) : t.AnsweredUpTo n tail := by
  obtain ⟨b, answers, hs, ha⟩ := h
  refine ⟨b, answers, he.trans hs, ?_⟩
  rw [hr, List.take_append_of_le_length hn]
  exact ha

theorem AnsweredUpTo.length {n : ℕ} {tail : List Event} (h : s.AnsweredUpTo n tail)
    (hn : n ≤ s.requests.sent.length) : s.events.sent.length = n + 1 + tail.length := by
  obtain ⟨b, answers, he, hf⟩ := h
  have hf := hf.length_eq
  rw [List.length_take_of_le hn] at hf
  rw [he, List.length_cons, List.length_append]
  omega

/-- One more request is answered. -/
theorem AnsweredUpTo.snoc {n : ℕ} {r : Request} {ev : Event} (h : s.AnsweredUpTo n [])
    (hr : s.requests.sent[n]? = some r) (ha : Answers r ev)
    (he : t.events.sent = s.events.sent ++ [ev]) (ht : t.requests = s.requests) :
    t.AnsweredUpTo (n + 1) [] := by
  obtain ⟨b, answers, hs, hf⟩ := h
  refine ⟨b, answers ++ [ev], ?_, ?_⟩
  · rw [he, hs]
    simp
  · rw [ht, List.take_add_one, hr]
    exact List.rel_append hf (.cons ha .nil)

/-- Sending requests does not concern what is answered. -/
theorem Aligned.send (h : s.Aligned) {xs : List Request} (hw : t.worker = s.worker)
    (he : t.events.sent = s.events.sent) (hr : t.requests = s.requests.send xs) : t.Aligned := by
  have hle := s.requests.received_le
  have hsent : t.requests.sent = s.requests.sent ++ xs := by rw [hr, Channel.sent_send]
  have hrec : t.requests.received = s.requests.received := by rw [hr, Channel.received_send]
  have hget (n : ℕ) (r : Request) (hn : s.requests.sent[n]? = some r) :
      t.requests.sent[n]? = some r := by
    rw [hsent]
    exact List.getElem?_append_some hn xs
  have hend (h : s.AnsweredUpTo s.requests.received [] ∨
      ∃ n r tail, s.requests.received = n + 1 ∧ s.requests.sent[n]? = some r ∧
        LastWords r tail ∧ s.AnsweredUpTo n tail) :
      t.AnsweredUpTo t.requests.received [] ∨
      ∃ n r tail, t.requests.received = n + 1 ∧ t.requests.sent[n]? = some r ∧
        LastWords r tail ∧ t.AnsweredUpTo n tail := by
    rcases h with ha | ⟨n, r, tail, hn, hg, hl, ha⟩
    · rw [hrec]
      exact .inl (ha.mono hle he hsent)
    · exact .inr ⟨n, r, tail, hrec.trans hn, hget n r hg, hl, ha.mono (by omega) he hsent⟩
  unfold Aligned at h ⊢
  rw [hw]
  cases hs : s.worker with
  | starting =>
    rw [hs] at h
    exact ⟨hrec.trans h.1, he.trans h.2⟩
  | idle =>
    rw [hs] at h
    dsimp only at h ⊢
    rw [hrec]
    exact h.mono hle he hsent
  | serving r =>
    rw [hs] at h
    obtain ⟨n, hn, hg, ha⟩ := h
    exact ⟨n, hrec.trans hn, hget n r hg, ha.mono (by omega) he hsent⟩
  | stopping =>
    rw [hs] at h
    exact hend h
  | finished =>
    rw [hs] at h
    exact hend h

/-- What one step does to the alignment of the channels. -/
theorem aligned_step {a : SessionAction} (h : s.Aligned) (hst : StepCase ops s a t) :
    t.Aligned := by
  cases hst with
  | announce hw =>
    unfold Aligned at h
    rw [hw] at h
    refine ⟨ops.canSearch s.engine, [], ?_, ?_⟩
    · change s.events.sent ++ _ = _
      rw [h.2]
      rfl
    · change List.Forall₂ Answers (s.requests.sent.take s.requests.received) []
      rw [h.1]
      exact .nil
  | take r c hw hc =>
    obtain ⟨hs, hr, hg⟩ := Channel.receive_some hc
    unfold Aligned at h
    rw [hw] at h
    obtain ⟨b, answers, he, hf⟩ := h
    refine ⟨s.requests.received, hr, ?_, b, answers, he, ?_⟩
    · change c.sent[_]? = some r
      rw [hs]
      exact hg
    · change List.Forall₂ Answers (c.sent.take _) answers
      rw [hs]
      exact hf
  | serve r hw =>
    unfold Aligned at h
    rw [hw] at h
    obtain ⟨n, hn, hg, ha⟩ := h
    cases hr : r.ends with
    -- an ordinary request: one more answer, and the worker is idle again
    | false =>
      obtain ⟨ev, engine', he, hans⟩ := serveRequest_answers ops s.engine r hr
      unfold Aligned
      simp only [he, ↓reduceIte]
      rw [hn]
      exact ha.snoc hg hans rfl rfl
    -- the request that ends the loop leaves its last words
    | true =>
      obtain ⟨b, answers, hs, hf⟩ := ha
      have hlast : ∃ tail, (serveRequest ops s.engine r).1 = tail ∧ LastWords r tail ∧
          (serveRequest ops s.engine r).2.1 = false := by
        cases r with
        | restart => exact ⟨_, rfl, ⟨_, rfl⟩, rfl⟩
        | shutdown => exact ⟨_, rfl, rfl, rfl⟩
        | _ => cases hr
      obtain ⟨tail, he, hl, hgo⟩ := hlast
      unfold Aligned
      simp only [he, hgo, Bool.false_eq_true, ↓reduceIte]
      refine .inr ⟨n, r, tail, hn, hg, hl, b, answers, ?_, hf⟩
      change s.events.sent ++ tail = _
      rw [hs]
      simp
  | hangUp hw =>
    unfold Aligned at h
    rw [hw] at h
    exact .inl h
  | finish hw =>
    unfold Aligned at h
    rw [hw] at h
    exact h
  | event ev c reqs app hl hc =>
    exact h.send rfl (Channel.receive_some hc).1 rfl
  | drained quit => exact h.send rfl rfl (Channel.send_nil s.requests).symm
  | key => exact h.send rfl rfl rfl

theorem aligned_of_run (hr : Run (Steps (step ops)) (start engine) h s) : s.Aligned := by
  have h0 : (start engine).Aligned := ⟨rfl, rfl⟩
  exact hr.invariant Aligned h0 fun _ _ _ h hst => aligned_step h (step_case hst)

/-- The request being served is among those sent. -/
theorem Aligned.serving_mem {r : Request} (h : s.Aligned) (hw : s.worker = .serving r) :
    r ∈ s.requests.sent := by
  unfold Aligned at h
  rw [hw] at h
  obtain ⟨n, -, hg, -⟩ := h
  exact List.mem_of_getElem? hg

/-- The event at index `i + 1` was sent by the service of the request at index `i`. -/
theorem served_of_run (hr : Run (Steps (step ops)) (start engine) h s) :
    ∀ (i : ℕ) (ev : Event), s.events.sent[i + 1]? = some ev →
      ∃ s₁ r, (s₁, .serve) ∈ h ∧ s₁.worker = .serving r ∧
        s.requests.sent[i]? = some r ∧ ev ∈ (serveRequest ops s₁.engine r).1 := by
  refine hr.induct (fun h s => ∀ (i : ℕ) (ev : Event), s.events.sent[i + 1]? = some ev →
      ∃ s₁ r, (s₁, .serve) ∈ h ∧ s₁.worker = .serving r ∧
        s.requests.sent[i]? = some r ∧ ev ∈ (serveRequest ops s₁.engine r).1)
    (by simp [start, Channel.empty]) ?_
  intro h s a t hr ih hst i ev hi
  have hal := aligned_of_run hr
  -- where the log of events stays as it is, so does the service that sent the event
  have hold (t : Session σ) (xs : List Request) (hi : s.events.sent[i + 1]? = some ev)
      (hreq : t.requests.sent = s.requests.sent ++ xs) :
      ∃ s₁ r, (s₁, .serve) ∈ h ++ [(s, a)] ∧ s₁.worker = .serving r ∧
        t.requests.sent[i]? = some r ∧ ev ∈ (serveRequest ops s₁.engine r).1 := by
    obtain ⟨s₁, r, hm, hw, hg, hev⟩ := ih i ev hi
    refine ⟨s₁, r, List.mem_append_left _ hm, hw, ?_, hev⟩
    rw [hreq]
    exact List.getElem?_append_some hg xs
  cases step_case hst with
  | announce hw =>
    unfold Aligned at hal
    rw [hw] at hal
    change (s.events.sent ++ _)[i + 1]? = some ev at hi
    rw [hal.2] at hi
    simp at hi
  | take r c hw hc =>
    obtain ⟨hs, -, -⟩ := Channel.receive_some hc
    exact hold _ [] hi (by simp [hs])
  | serve r hw =>
    unfold Aligned at hal
    rw [hw] at hal
    obtain ⟨n, hn, hg, ha⟩ := hal
    change (s.events.sent ++ _)[i + 1]? = some ev at hi
    rcases lt_or_ge (i + 1) s.events.sent.length with hlt | hge
    · rw [List.getElem?_append_left hlt] at hi
      exact hold _ [] hi (by simp)
    · -- the new event has the index of the request just served, and there is only one
      rw [List.getElem?_append_right hge] at hi
      have hlen := ha.length (List.getElem?_eq_some_iff.mp hg).1.le
      rw [List.length_nil] at hlen
      have hone := serveRequest_length ops s.engine r
      have hidx := (List.getElem?_eq_some_iff.mp hi).1
      obtain rfl : i = n := by omega
      exact ⟨s, r, by simp, hw, hg, List.mem_of_getElem? hi⟩
  | hangUp => exact hold _ [] hi (by simp)
  | finish => exact hold _ [] hi (by simp)
  | event ev' c reqs app hl hc =>
    obtain ⟨hs, -, -⟩ := Channel.receive_some hc
    exact hold _ reqs (hs ▸ hi) rfl
  | drained => exact hold _ [] hi (by simp)
  | key a reqs app tail => exact hold _ (reqs ++ tail) hi rfl

/-- The event behind the ready event with the index of a request answers it. -/
theorem answers_of_run (hr : Run (Steps (step ops)) (start engine) h s) {i : ℕ} {r : Request}
    {ev : Event} (hi : s.requests.sent[i]? = some r) (hend : r.ends = false)
    (hev : s.events.sent[i + 1]? = some ev) : Answers r ev := by
  obtain ⟨s₁, r', -, -, hi', hm⟩ := served_of_run hr i ev hev
  obtain rfl := Option.some.inj (hi.symm.trans hi')
  obtain ⟨ev', engine', he, ha⟩ := serveRequest_answers ops s₁.engine r hend
  rw [he] at hm
  rw [List.mem_singleton.mp hm]
  exact ha

/-- The events are never ahead of the requests, the announcement apart. -/
theorem Aligned.length_le (h : s.Aligned) :
    s.events.sent.length ≤ s.requests.sent.length + 1 := by
  have hle := s.requests.received_le
  unfold Aligned at h
  split at h
  · rw [h.2]
    exact Nat.zero_le _
  · rw [h.length hle, List.length_nil]
    omega
  · obtain ⟨n, hn, -, ha⟩ := h
    rw [ha.length (by omega), List.length_nil]
    omega
  all_goals
    rcases h with ha | ⟨n, r, tail, hn, -, hl, ha⟩
    · rw [ha.length hle, List.length_nil]
      omega
    · -- the last words are one event at most, for a request of their own
      rw [ha.length (by omega)]
      have htail : tail.length ≤ 1 := by
        cases r with
        | restart =>
          obtain ⟨why, rfl⟩ := hl
          exact Nat.le_refl 1
        | shutdown =>
          rw [show tail = [] from hl]
          exact Nat.zero_le 1
        | _ => exact hl.elim
      omega

/-- The first event is the worker's announcement. -/
theorem ready_of_run (hr : Run (Steps (step ops)) (start engine) h s) {ev : Event}
    (hev : s.events.sent[0]? = some ev) : ∃ b, ev = .ready b := by
  have hfirst (n : ℕ) (tail : List Event) (ha : s.AnsweredUpTo n tail) : ∃ b, ev = .ready b := by
    obtain ⟨b, answers, he, -⟩ := ha
    rw [he] at hev
    exact ⟨b, (Option.some.inj hev).symm⟩
  have hal := aligned_of_run hr
  unfold Aligned at hal
  split at hal
  · rw [hal.2] at hev
    cases hev
  · exact hfirst _ _ hal
  · obtain ⟨n, -, -, ha⟩ := hal
    exact hfirst _ _ ha
  all_goals
    rcases hal with ha | ⟨n, r, tail, -, -, -, ha⟩
    · exact hfirst _ _ ha
    · exact hfirst _ _ ha

/-- An event that is received is the announcement, or was sent by the service of the request at
the index before its own. -/
theorem received_of_run (hr : Run (Steps (step ops)) (start engine) h s) {ev : Event}
    {c : Channel Event} (hc : s.events.receive = some (ev, c)) : (∃ b, ev = .ready b) ∨
      ∃ i s₁ r, s.events.received = i + 1 ∧ (s₁, .serve) ∈ h ∧ s₁.worker = .serving r ∧
        s.requests.sent[i]? = some r ∧ ev ∈ (serveRequest ops s₁.engine r).1 := by
  obtain ⟨-, -, hev⟩ := Channel.receive_some hc
  cases hi : s.events.received with
  | zero =>
    rw [hi] at hev
    exact .inl (ready_of_run hr hev)
  | succ i =>
    rw [hi] at hev
    obtain ⟨s₁, r, hm, hw, hg, hs⟩ := served_of_run hr i ev hev
    exact .inr ⟨i, s₁, r, rfl, hm, hw, hg, hs⟩

end Session

end LspGraph
