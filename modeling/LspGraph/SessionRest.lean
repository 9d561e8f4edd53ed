import Mathlib.Algebra.Ring.Nat
import LspGraph.SessionSpinner

/-! A session that is left alone comes to rest, and one that is quit ends: how much work is left in
the two channels, in whatever order the threads do it. -/
namespace LspGraph
open Runs

/-- The steps that handling an event can take, with those of the request it may lead to. -/
def Event.work : Event → ℕ
  | .seeded (some _) => 4
  | _ => 1

/-- The steps from a queued request to its handled answer. -/
def Request.work : Request → ℕ
  | .seed _ => 6
  | .search _ | .expand _ | .restart => 3
  | .shutdown => 2

/-- The steps of the worker apart from those of the queued requests. -/
def WorkerState.work : WorkerState → ℕ
  | .starting => 4
  | .idle => 2
  | .serving r => r.work + 1
  | .stopping => 1
  | .finished => 0

/-- The steps that get work done: all but those with which the interface waits. -/
def SessionAction.works : SessionAction → Bool
  | .announce | .take | .serve | .hangUp | .finish | .event => true
  | _ => false

/-- Whether the step handles a key. -/
def SessionAction.isKey : SessionAction → Bool
  | .key _ => true
  | _ => false

namespace Session

variable {σ : Type*} {ops : EngineOps σ} {s t : Session σ} {engine : σ} {h h' : History σ}

/-- The work that is left: what is queued, what the worker is at, and the end of the loop. -/
def work (s : Session σ) : ℕ :=
  (s.requests.queue.map Request.work).sum + (s.events.queue.map Event.work).sum + s.worker.work +
    if s.loop = .left then 0 else 2

/-- An event that is handled takes more work away than it makes. -/
theorem work_of_event {a a' : App} {ev : Event} {reqs : List Request}
    (he : EventCase a ev reqs a') : (reqs.map Request.work).sum + 1 ≤ ev.work := by
  have hpos : 1 ≤ ev.work := by
    unfold Event.work
    split <;> omega
  cases he with
  | focused node => exact Nat.le_refl 4
  | _ => exact hpos

/-- So does a request that is served. -/
theorem work_of_serve (ops : EngineOps σ) (engine : σ) (r : Request) :
    ((serveRequest ops engine r).1.map Event.work).sum +
      (if (serveRequest ops engine r).2.1 then WorkerState.idle else .stopping).work + 1 ≤
        (WorkerState.serving r).work := by
  cases r with
  | search query =>
    have hle : (searchEvent (ops.search query engine).1).work ≤ 1 := by
      cases (ops.search query engine).1 <;> exact Nat.le_refl 1
    change ([searchEvent (ops.search query engine).1].map Event.work).sum + 2 + 1 ≤ 4
    rw [List.map_singleton, List.sum_singleton]
    omega
  | seed m =>
    have hle : (seedEvent ops (ops.seed m engine).2 (ops.seed m engine).1).work ≤ 4 := by
      cases (ops.seed m engine).1 with
      | error e => exact show 1 ≤ 4 by omega
      | ok id => cases id <;> simp [seedEvent, Event.work]
    change ([seedEvent ops (ops.seed m engine).2 (ops.seed m engine).1].map Event.work).sum +
      2 + 1 ≤ 7
    rw [List.map_singleton, List.sum_singleton]
    omega
  | expand id =>
    have hle : (expandEvent ops (ops.expand id engine).2 id (ops.expand id engine).1).work ≤ 1 := by
      cases (ops.expand id engine).1 <;> exact Nat.le_refl 1
    change ([expandEvent ops (ops.expand id engine).2 id (ops.expand id engine).1].map
      Event.work).sum + 2 + 1 ≤ 4
    rw [List.map_singleton, List.sum_singleton]
    omega
  | restart => exact show 1 + 1 + 1 ≤ 4 by omega
  | shutdown => exact show 0 + 1 + 1 ≤ 3 by omega

theorem work_leave (s : Session σ) (hl : s.loop ≠ .left) : s.leave.work = s.work := by
  unfold work leave
  rw [Channel.queue_send, if_neg hl, List.map_append, List.sum_append]
  simp only [List.map_singleton, List.sum_singleton, Request.work, ↓reduceIte]
  omega

theorem work_checkQuit (s : Session σ) (hl : s.loop ≠ .left) : s.checkQuit.work = s.work := by
  unfold checkQuit
  split_ifs
  · exact work_leave s hl
  · unfold work
    rw [if_neg hl]
    rfl

/-- One step without a key: the work is less, or the interface has waited. -/
theorem work_step {a : SessionAction} (hkey : a.isKey = false) (hst : s.step ops a = some t) :
    (a.works = true → t.work + 1 ≤ s.work) ∧ (a.works = false → t.work ≤ s.work) := by
  cases step_case hst with
  | announce hw =>
    refine ⟨fun _ => ?_, fun h => (by cases h)⟩
    unfold work
    rw [hw, Channel.queue_send]
    simp [Event.work, WorkerState.work]
    omega
  | take r c hw hc =>
    refine ⟨fun _ => ?_, fun h => (by cases h)⟩
    unfold work
    rw [hw, Channel.queue_receive hc]
    simp [WorkerState.work]
    omega
  | serve r hw =>
    refine ⟨fun _ => ?_, fun h => (by cases h)⟩
    have hserve := work_of_serve ops s.engine r
    unfold work
    rw [hw, Channel.queue_send, List.map_append, List.sum_append]
    dsimp only
    omega
  | hangUp hw hl hq =>
    refine ⟨fun _ => ?_, fun h => (by cases h)⟩
    unfold work
    rw [hw]
    simp only [WorkerState.work]
    omega
  | finish hw =>
    refine ⟨fun _ => ?_, fun h => (by cases h)⟩
    unfold work
    rw [hw]
    simp only [WorkerState.work]
    omega
  | event ev c reqs app hl hc he =>
    refine ⟨fun _ => ?_, fun h => (by cases h)⟩
    have hevent := work_of_event he
    unfold work
    rw [Channel.queue_receive hc, Channel.queue_send]
    simp only [List.map_append, List.sum_append, List.map_cons, List.sum_cons]
    omega
  | drained quit hq =>
    refine ⟨fun h => (by cases h), fun _ => ?_⟩
    obtain ⟨⟨hl, -⟩, -⟩ := Option.ite_none_right_eq_some.mp hst
    unfold work
    rw [hl]
    exact Nat.le_refl _
  | key a reqs app tail loop ha =>
    cases a with
    | noKey =>
      obtain ⟨hl, ht⟩ := Option.ite_none_right_eq_some.mp hst
      refine ⟨fun h => (by cases h), fun _ => ?_⟩
      rw [← Option.some.inj ht]
      exact Nat.le_of_eq (work_checkQuit s (by simp [hl]))
    | fail =>
      obtain ⟨hl, ht⟩ := Option.ite_none_left_eq_some.mp hst
      refine ⟨fun h => (by cases h), fun _ => ?_⟩
      rw [← Option.some.inj ht]
      exact Nat.le_of_eq (work_leave s hl)
    | key => cases hkey
    | _ => cases ha

/-- Nothing is left to do: the worker waits or has gone, and the interface has no event. -/
structure AtRest (ops : EngineOps σ) (s : Session σ) : Prop where
  worker : ∀ a, a.works = true → a ≠ .event → s.step ops a = none
  events : s.loop ≠ .left → s.events.queue = []

theorem step_take_isSome (hw : s.worker = .idle) (hq : s.requests.queue ≠ []) :
    ∃ t, s.step ops .take = some t := by
  cases hr : s.requests.receive with
  | none => exact absurd (Channel.queue_of_receive_none hr) hq
  | some p =>
    unfold step
    rw [if_pos hw, hr]
    exact ⟨_, rfl⟩

/-- The worker of a session at rest has finished, or waits for a request of a live interface. -/
theorem AtRest.worker_waits (h : s.AtRest ops) :
    s.worker = .finished ∨ s.worker = .idle ∧ s.requests.queue = [] ∧ s.loop ≠ .left := by
  have hnone {a : SessionAction} (ha : a.works = true) (hne : a ≠ .event)
      (hs : ∃ t, s.step ops a = some t) : False := by
    obtain ⟨t, ht⟩ := hs
    rw [h.worker a ha hne] at ht
    cases ht
  cases hw : s.worker with
  | starting => exact (hnone (a := .announce) rfl (by simp) ⟨_, if_pos hw⟩).elim
  | serving r =>
    have hserve : (s.step ops .serve).isSome = true := by simp [step, hw]
    exact (hnone (a := .serve) rfl (by simp) (Option.isSome_iff_exists.mp hserve)).elim
  | stopping => exact (hnone (a := .finish) rfl (by simp) ⟨_, if_pos hw⟩).elim
  | finished => exact .inl rfl
  | idle =>
    by_cases hq : s.requests.queue = []
    · refine .inr ⟨rfl, hq, fun hl => ?_⟩
      exact hnone (a := .hangUp) rfl (by simp) ⟨_, if_pos ⟨hw, hl, hq⟩⟩
    · exact (hnone (a := .take) rfl (by simp) (step_take_isSome hw hq)).elim

theorem awaited_of_run (hr : Run (Steps (step ops)) (start engine) h s) :
    ∀ id, s.app.pending = some id → s.Awaited id ∨ s.Ending := by
  refine hr.invariant (fun s => ∀ id, s.app.pending = some id → s.Awaited id ∨ s.Ending) ?_ ?_
  · exact fun _ hp => by cases hp
  · exact fun _ _ _ h hst => awaited_step (step_case hst) h

/-- A session at rest shows no spinner, unless it is ending. -/
theorem AtRest.not_pending (hrest : s.AtRest ops)
    (hr : Run (Steps (step ops)) (start engine) h s) : s.app.pending = none ∨ s.Ending := by
  rcases hrest.worker_waits with hw | ⟨hw, hq, hl⟩
  · exact .inr (ending_of_stopped hr (.inr hw))
  cases hp : s.app.pending with
  | none => exact .inl rfl
  | some id =>
    refine .inr ((awaited_of_run hr id hp).resolve_left ?_)
    rintro (hm | hm | ⟨ev, hm, -⟩)
    · rw [hq] at hm
      cases hm
    · rw [hw] at hm
      cases hm
    · rw [hrest.events hl] at hm
      cases hm

/-- Where there is work left a step does some of it, at once or after the interface has looked for
a key. -/
theorem exists_working_step (hrest : ¬s.AtRest ops) :
    (∃ a t, a.works = true ∧ s.step ops a = some t) ∨
      s.loop = .polling ∧ ∃ t, s.step ops .noKey = some t := by
  by_contra hno
  rw [not_or] at hno
  obtain ⟨hwork, hkey⟩ := hno
  have hnone (a : SessionAction) (ha : a.works = true) : s.step ops a = none := by
    cases ht : s.step ops a with
    | none => rfl
    | some t => exact absurd ⟨a, t, ha, ht⟩ hwork
  refine hrest ⟨fun a ha _ => hnone a ha, fun hl => ?_⟩
  cases hloop : s.loop with
  | left => exact absurd hloop hl
  | polling => exact absurd ⟨hloop, _, if_pos hloop⟩ hkey
  | draining =>
    have hev := hnone .event rfl
    unfold step at hev
    rw [if_pos hloop, Option.map_eq_none_iff] at hev
    exact Channel.queue_of_receive_none hev

/-- The steps still possible without a key, counting the waiting that may come before one. -/
def patience (s : Session σ) : ℕ := 2 * s.work + if s.loop = .polling then 1 else 0

theorem patience_step {a : SessionAction} (ha : a.works = true ∨ a = .noKey ∧ s.loop = .polling)
    (hst : s.step ops a = some t) : t.patience < s.patience := by
  unfold patience
  rcases ha with ha | ⟨rfl, hl⟩
  · have hkey : a.isKey = false := by
      cases a <;> first | rfl | cases ha
    have hwork := (work_step hkey hst).1 ha
    split_ifs <;> omega
  · have hwork := (work_step rfl hst).2 rfl
    obtain ⟨-, ht⟩ := Option.ite_none_right_eq_some.mp hst
    have hloop : t.loop ≠ .polling := by
      rw [← Option.some.inj ht]
      unfold checkQuit
      split_ifs
      · simp [leave]
      · simp
    rw [if_pos hl, if_neg hloop]
    omega

/-- From every state a session comes to rest without a key or a failing terminal. -/
theorem exists_rest (s : Session σ) :
    ∃ h' t, Run (Steps (step ops)) s h' t ∧
      (∀ p ∈ h', p.2.isKey = false ∧ p.2 ≠ .fail) ∧ t.AtRest ops := by
  induction hn : s.patience using Nat.strong_induction_on generalizing s with
  | _ n ih =>
    by_cases hrest : s.AtRest ops
    · exact ⟨[], s, .nil, by simp, hrest⟩
    have hstep : ∃ a t, (a.works = true ∨ a = .noKey ∧ s.loop = .polling) ∧
        s.step ops a = some t := by
      rcases exists_working_step hrest with ⟨a, t, ha, ht⟩ | ⟨hl, t, ht⟩
      · exact ⟨a, t, .inl ha, ht⟩
      · exact ⟨.noKey, t, .inr ⟨rfl, hl⟩, ht⟩
    obtain ⟨a, t, ha, ht⟩ := hstep
    obtain ⟨h', u, hr, hquiet, hu⟩ := ih t.patience (hn ▸ patience_step ha ht) t rfl
    refine ⟨[(s, a)] ++ h', u, (Run.nil.snoc ht).trans hr, ?_, hu⟩
    refine List.forall_mem_append.mpr ⟨?_, hquiet⟩
    rw [List.forall_mem_singleton]
    rcases ha with ha | ⟨rfl, -⟩
    · cases a <;> first | exact absurd ha Bool.false_ne_true | exact ⟨rfl, by simp⟩
    · exact ⟨rfl, by simp⟩

/-- A session that is left alone comes to rest: without keys no more working steps are taken, in
whatever order, than the work that is left allows; it can always go on until nothing is left to
do; and then no spinner is shown, unless the session is ending. -/
theorem left_alone_comes_to_rest (hr : Run (Steps (step ops)) (start engine) h s) :
    (∀ h' t, Run (Steps (step ops)) s h' t → (∀ p ∈ h', p.2.isKey = false) →
      (h'.map Prod.snd).countP SessionAction.works ≤ s.work ∧
        (t.AtRest ops → t.app.pending = none ∨ t.Ending)) ∧
      ∃ h' t, Run (Steps (step ops)) s h' t ∧
        (∀ p ∈ h', p.2.isKey = false ∧ p.2 ≠ .fail) ∧ t.AtRest ops := by
  refine ⟨fun h' t hr' hquiet => ⟨?_, fun hrest => hrest.not_pending (hr.trans hr')⟩,
    exists_rest s⟩
  have hcount := hr'.countP_le_rank work SessionAction.works (fun _ a => a.isKey = false)
    (fun s a t ha hst hw => (work_step ha hst).1 hw)
    (fun s a t ha hst hw => (work_step ha hst).2 hw) hquiet
  omega

/-- A search and its match are left alone with the seed queued. -/
theorem left_alone_comes_to_rest_seeding :
    ∃ h s, Run (Steps (step (stub [stubMatch]))) (start ()) h s ∧ s.app.isPending = true ∧
      ∃ h' t, Run (Steps (step (stub [stubMatch]))) s h' t ∧
        (∀ p ∈ h', p.2.isKey = false ∧ p.2 ≠ .fail) ∧ t.AtRest (stub [stubMatch]) := by
  have hr := run_of_exec (step (stub [stubMatch])) (start ()) searchAndSeed rfl
  exact ⟨_, _, hr, rfl, (left_alone_comes_to_rest hr).2⟩

/-- The steps left once the interface has left its loop. -/
def endWork (s : Session σ) : ℕ :=
  2 * s.requests.queue.length + match s.worker with
    | .starting | .serving _ => 3
    | .idle => 2
    | .stopping => 1
    | .finished => 0

/-- The worker's last request ended its loop, and none before it did. -/
def Stopped (s : Session σ) : Prop :=
  ∃ n r, s.requests.received = n + 1 ∧ s.requests.sent[n]? = some r ∧ r.ends = true ∧
    ∀ r' ∈ s.requests.sent.take n, r'.ends = false

theorem Stopped.send (h : s.Stopped) {xs : List Request}
    (hs : t.requests.sent = s.requests.sent ++ xs)
    (hr : t.requests.received = s.requests.received) : t.Stopped := by
  obtain ⟨n, r, hn, hget, hend, hall⟩ := h
  have hlt := (List.getElem?_eq_some_iff.mp hget).1
  refine ⟨n, r, hr.trans hn, ?_, hend, ?_⟩
  · rw [hs]
    exact List.getElem?_append_some hget xs
  · rw [hs, List.take_append_of_le_length hlt.le]
    exact hall

theorem ends_of_answered {rs : List Request} {evs : List Event}
    (h : List.Forall₂ Answers rs evs) : ∀ r ∈ rs, r.ends = false := by
  induction h with
  | nil => simp
  | @cons r ev rs evs ha _ ih =>
    refine List.forall_mem_cons.mpr ⟨?_, ih⟩
    cases r with
    | restart => cases ha
    | shutdown => cases ha
    | _ => rfl

/-- `recv` never fails: before the interface drops its end it has asked for the shutdown, which
the worker receives first. -/
theorem Aligned.not_hangUp (hal : s.Aligned) (hw : s.worker = .idle)
    (hq : s.requests.queue = []) : .shutdown ∉ s.requests.sent := by
  unfold Aligned at hal
  rw [hw] at hal
  obtain ⟨b, answers, -, hf⟩ := hal
  rw [Channel.received_of_queue hq, List.take_length] at hf
  intro hm
  cases ends_of_answered hf _ hm

theorem stopped_of_run (hr : Run (Steps (step ops)) (start engine) h s) :
    (s.loop = .left → .shutdown ∈ s.requests.sent) ∧
      (s.worker = .stopping ∨ s.worker = .finished → s.Stopped) := by
  refine hr.induct (fun _ s => (s.loop = .left → .shutdown ∈ s.requests.sent) ∧
    (s.worker = .stopping ∨ s.worker = .finished → s.Stopped)) (by simp [start]) ?_
  intro h s a t hr ih hst
  have hal := aligned_of_run hr
  refine ⟨left_step (step_case hst) ih.1, fun hw => ?_⟩
  cases step_case hst with
  | announce => simp at hw
  | take => simp at hw
  | serve r hws =>
    unfold Aligned at hal
    rw [hws] at hal
    obtain ⟨n, hn, hget, b, answers, -, hf⟩ := hal
    refine ⟨n, r, hn, hget, ?_, ends_of_answered hf⟩
    cases r with
    | restart => rfl
    | shutdown => rfl
    | _ => simp [serveRequest] at hw
  | hangUp hi hl hq => exact absurd (ih.1 hl) (hal.not_hangUp hi hq)
  | finish hs => exact ih.2 (.inl hs)
  | event ev c reqs app hl hc =>
    obtain ⟨hsent, hrec, -⟩ := Channel.receive_some hc
    exact (ih.2 hw).send rfl rfl
  | drained => exact (ih.2 hw).send (List.append_nil _).symm rfl
  | key a reqs app tail => exact (ih.2 hw).send rfl rfl

/-- Behind the interface's loop every step is one of the worker's, and less is left after it. -/
theorem endWork_step {a : SessionAction} (hl : s.loop = .left) (hst : s.step ops a = some t) :
    t.loop = .left ∧ t.endWork + 1 ≤ s.endWork := by
  have hno {P : Prop} {l : LoopState} (hne : l ≠ .left) (h : s.loop = l) : P := by
    rw [hl] at h
    exact absurd h.symm hne
  cases step_case hst with
  | announce hw =>
    refine ⟨hl, ?_⟩
    unfold endWork
    rw [hw]
    exact Nat.le_refl _
  | take r c hw hc =>
    refine ⟨hl, ?_⟩
    unfold endWork
    rw [hw, Channel.queue_receive hc, List.length_cons]
    dsimp only
    omega
  | serve r hw =>
    refine ⟨hl, ?_⟩
    unfold endWork
    rw [hw]
    dsimp only
    split_ifs
    · exact Nat.le_refl _
    · exact Nat.le_succ _
  | hangUp hw =>
    refine ⟨hl, ?_⟩
    unfold endWork
    rw [hw]
    exact Nat.le_refl _
  | finish hw =>
    refine ⟨hl, ?_⟩
    unfold endWork
    rw [hw]
    exact Nat.le_refl _
  | event ev c reqs app hd => exact hno (by simp) hd
  | drained quit => exact hno (by simp) (Option.ite_none_right_eq_some.mp hst).1.1
  | key a reqs app tail loop ha =>
    cases a with
    | key => exact hno (by simp) (Option.ite_none_right_eq_some.mp hst).1
    | noKey => exact hno (by simp) (Option.ite_none_right_eq_some.mp hst).1
    | fail => exact absurd hl (Option.ite_none_left_eq_some.mp hst).1
    | _ => cases ha

theorem endWork_run (hl : s.loop = .left) (hr : Run (Steps (step ops)) s h' t) :
    t.loop = .left ∧ h'.length + t.endWork ≤ s.endWork := by
  refine hr.induct (fun h' t => t.loop = .left ∧ h'.length + t.endWork ≤ s.endWork) ?_ ?_
  · exact ⟨hl, Nat.le_of_eq (Nat.zero_add _)⟩
  · intro h u a v _ ih hst
    have hstep := endWork_step ih.1 hst
    rw [List.length_append, List.length_singleton]
    exact ⟨hstep.1, by omega⟩

theorem endWork_le (s : Session σ) : s.endWork ≤ 2 * s.requests.queue.length + 3 := by
  unfold endWork
  split <;> omega

/-- Behind the interface's loop nothing is stuck before the worker has finished. -/
theorem stuck_iff_finished (hl : s.loop = .left) :
    (∀ a, s.step ops a = none) ↔ s.worker = .finished := by
  constructor
  · intro h
    have hrest : s.AtRest ops := ⟨fun a _ _ => h a, fun hne => absurd hl hne⟩
    rcases hrest.worker_waits with hw | ⟨-, -, hne⟩
    · exact hw
    · exact absurd hl hne
  · intro hw a
    cases a <;> simp [step, hw, hl]

/-- The requests received by a worker that has stopped are those up to the first one that ends its
loop. -/
theorem Stopped.received (h : s.Stopped) :
    s.requests.received = (s.requests.sent.takeWhile (!·.ends)).length + 1 := by
  obtain ⟨n, r, hn, hget, hend, hall⟩ := h
  obtain ⟨hlt, hr⟩ := List.getElem?_eq_some_iff.mp hget
  have hsplit : s.requests.sent = s.requests.sent.take n ++ r :: s.requests.sent.drop (n + 1) := by
    rw [← hr, ← List.drop_eq_getElem_cons hlt, List.take_append_drop]
  have hpass : ∀ r' ∈ s.requests.sent.take n, (!r'.ends) = true := by
    intro r' hm
    rw [hall r' hm]
    rfl
  have htake : s.requests.sent.takeWhile (!·.ends) = s.requests.sent.take n := by
    rw [hsplit, List.takeWhile_append_of_pos hpass, List.takeWhile_cons_of_neg (by simp [hend]),
      List.append_nil, ← hsplit]
  rw [htake, List.length_take_of_le hlt.le]
  exact hn

/-- Quitting drops no work that was asked for before. Behind the interface's loop at most two more
steps are taken for each queued request and three besides; the worker alone decides where they
end, and it is not before it has served every request up to the first that tells it to end. -/
theorem quit_session_ends (hr : Run (Steps (step ops)) (start engine) h s) (hl : s.loop = .left)
    (hr' : Run (Steps (step ops)) s h' t) :
    h'.length ≤ 2 * s.requests.queue.length + 3 ∧
      ((∀ a, t.step ops a = none) ↔ t.worker = .finished) ∧
      (t.worker = .finished →
        t.requests.received = (t.requests.sent.takeWhile (!·.ends)).length + 1) := by
  obtain ⟨hlt, hlen⟩ := endWork_run hl hr'
  have hle := endWork_le s
  refine ⟨by omega, stuck_iff_finished hlt, fun hw => ?_⟩
  exact ((stopped_of_run (hr.trans hr')).2 (.inr hw)).received

/-- A key quits while a search is queued: the search is still served. -/
theorem quit_session_ends_searching :
    ∃ h s h' t, Run (Steps (step (stub [stubMatch]))) (start ()) h s ∧
      s.requests.queue = [.search "f", .shutdown] ∧
      Run (Steps (step (stub [stubMatch]))) s h' t ∧ t.worker = .finished ∧
      h'.length ≤ 7 ∧ t.requests.received = 2 := by
  have hr := run_of_exec (step (stub [stubMatch])) (start ())
    [.announce, .event, .drained, .key ⟨.char 'f', false⟩, .drained, .key ⟨.enter, false⟩,
      .drained, .key ⟨.char 'c', true⟩] rfl
  have hend := quit_session_ends hr rfl
    (run_of_exec (step (stub [stubMatch])) _ [.take, .serve, .take, .serve, .finish] rfl)
  exact ⟨_, _, _, _, hr, rfl, run_of_exec _ _ [.take, .serve, .take, .serve, .finish] rfl, rfl,
    hend.1, hend.2.2 rfl⟩

end Session

end LspGraph
