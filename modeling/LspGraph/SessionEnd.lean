import LspGraph.SessionSpinner

/-! How a session ends (`main.rs`): what `run` reports is the error field, which a key can clear
behind a fatal event and which a recoverable error sets as well. -/
namespace LspGraph
open Runs

/-- Whether the key dismisses the error overlay. -/
def KeyEvent.dismisses (k : KeyEvent) : Bool := k.code = .esc || k.code = .char 'r'

/-- Whether the key quits under the error overlay. -/
def KeyEvent.quits (k : KeyEvent) : Bool :=
  (k.control && k.code = .char 'c') || k.code = .char 'q'

/-- Under the overlay a key quits, dismisses the error or does nothing. -/
theorem handleKey_overlay {a : App} (h : a.error.isSome = true) (k : KeyEvent) :
    (handleKey a k).2 = if k.quits then { a with shouldQuit := true }
      else if k.dismisses then a.dismissError else a := by
  obtain ⟨code, control⟩ := k
  unfold handleKey
  by_cases hc : control = true ∧ code = .char 'c'
  · simp [KeyEvent.quits, hc]
  · have hquit : KeyEvent.quits ⟨code, control⟩ = decide (code = .char 'q') := by
      simpa [KeyEvent.quits] using fun h₁ h₂ => absurd ⟨h₁, h₂⟩ hc
    rw [if_neg hc, if_pos h, hquit]
    unfold overlayKey
    split <;> rename_i hcode
    · obtain rfl : code = .esc := hcode
      rfl
    · obtain rfl : code = .char 'r' := hcode
      rfl
    · obtain rfl : code = .char 'q' := hcode
      rfl
    · rename_i hesc hr
      have hdis : KeyEvent.dismisses ⟨code, control⟩ = false := by
        simpa [KeyEvent.dismisses] using ⟨hesc, hr⟩
      rw [hdis, if_neg (by simpa using hcode)]
      rfl

theorem KeyEvent.quits_of_dismisses {k : KeyEvent} (h : k.dismisses = true) : k.quits = false := by
  obtain ⟨code, control⟩ := k
  obtain rfl | rfl : code = .esc ∨ code = .char 'r' := by simpa [dismisses] using h
  · simp [quits]
  · simp [quits]

theorem error_overlay {a : App} (h : a.error.isSome = true) (k : KeyEvent) :
    (handleKey a k).2.error = if k.dismisses then none else a.error := by
  rw [handleKey_overlay h]
  cases hd : k.dismisses with
  | true => simp [k.quits_of_dismisses hd, App.dismissError]
  | false => split_ifs <;> first | rfl | contradiction

theorem shouldQuit_overlay {a : App} (h : a.error.isSome = true) (k : KeyEvent) :
    (handleKey a k).2.shouldQuit = (a.shouldQuit || k.quits) := by
  rw [handleKey_overlay h]
  cases hq : k.quits with
  | true => exact (Bool.or_true _).symm
  | false =>
    rw [Bool.or_false]
    split_ifs <;> first | rfl | contradiction

theorem error_searchKey (a : App) (code : KeyCode) : (searchKey a code).2.error = a.error := by
  unfold searchKey
  split
  · unfold App.leaveSearch
    split_ifs <;> rfl
  · split_ifs <;> rfl
  all_goals rfl

theorem error_graphKey (a : App) (code : KeyCode) : (graphKey a code).2.error = a.error := by
  unfold graphKey
  split
  · rfl
  · rfl
  · unfold App.back
    split <;> rfl
  · unfold App.recentre
    split <;> rfl
  · rfl
  · rfl
  · unfold App.selectNext
    split <;> rfl
  · unfold App.selectPrev
    split <;> rfl
  · rfl

/-- No key raises an error. -/
theorem error_handleKey {a : App} (h : a.error = none) (k : KeyEvent) :
    (handleKey a k).2.error = none := by
  unfold handleKey
  split_ifs with hc he
  · exact h
  · rw [h] at he
    cases he
  · split
    · exact h
    · exact (error_searchKey a k.code).trans h
    · exact (error_graphKey a k.code).trans h

/-- Among the events only a fatal one makes the interface quit. -/
theorem shouldQuit_onEvent (a : App) (ev : Event) :
    (a.onEvent ev).2.shouldQuit = true ↔ a.shouldQuit = true ∨ ∃ why, ev = .fatal why := by
  cases ev with
  | seeded node => cases node <;> simp [App.onEvent, App.focusOn]
  | expanded id exp =>
    dsimp only [App.onEvent]
    split_ifs <;> simp
  | failed id why =>
    dsimp only [App.onEvent]
    split_ifs <;> simp
  | _ => simp [App.onEvent]

/-- The end of the program: its exit status, and the line it prints. -/
structure Exit where
  status : ℕ
  stderr : Option String
  deriving DecidableEq

namespace Session

variable {σ : Type*} {ops : EngineOps σ} {s t : Session σ} {engine : σ} {h : History σ}

/-- What `run` does once its loop has ended without an error of the terminal. -/
def exit (s : Session σ) : Exit :=
  match s.app.error with
  | some e => ⟨1, some ("lspgraph: " ++ e)⟩
  | none => ⟨0, none⟩

/-- The events that the interface has received. -/
def processed (s : Session σ) : List Event := s.events.sent.take s.events.received

/-- A fatal end is reported, and only a fatal end. -/
structure Reported (s : Session σ) : Prop where
  fatal : ∀ why, .fatal why ∈ s.processed → s.exit = ⟨1, some ("lspgraph: " ++ why)⟩
  quiet : (∀ why, .fatal why ∉ s.processed) → s.exit = ⟨0, none⟩

/-- The condition on a step: a key after a fatal event leaves its error, and no key quits while a
recoverable error is shown. -/
def KeepsReport (s : Session σ) : SessionAction → Prop
  | .key k =>
    if s.app.shouldQuit = true then k.dismisses = false
    else s.app.error.isSome = true → k.quits = false
  | _ => True

instance (s : Session σ) : DecidablePred s.KeepsReport
  | .key _ => inferInstanceAs (Decidable (ite (s.app.shouldQuit = true) _ _))
  | .announce | .take | .serve | .hangUp | .finish | .event | .drained | .noKey | .fail =>
    isTrue trivial

/-- What a step can do, with what the interface's loop does in full. -/
inductive LoopCase (s : Session σ) : SessionAction → Session σ → Prop where
  /-- A step of the worker. -/
  | worker (a : SessionAction) (t : Session σ) (evs : List Event) : t.app = s.app →
      t.loop = s.loop → t.events = s.events.send evs → (∀ k, a ≠ .key k) → LoopCase s a t
  | event (ev : Event) (c : Channel Event) : s.loop = .draining →
      s.events.receive = some (ev, c) → LoopCase s .event
        { s with app := (s.app.onEvent ev).2, events := c,
                 requests := s.requests.send (s.app.onEvent ev).1 }
  | drained : s.loop = .draining → s.events.queue = [] → LoopCase s .drained
      { s with app := { s.app with shouldQuit := s.app.shouldQuit || s.worker = .finished },
               loop := .polling }
  | key (k : KeyEvent) : s.loop = .polling → LoopCase s (.key k)
      { s with app := (handleKey s.app k).2,
               requests := s.requests.send (handleKey s.app k).1 }.checkQuit
  | noKey : s.loop = .polling → LoopCase s .noKey s.checkQuit
  | fail : LoopCase s .fail s.leave

theorem loop_case {a : SessionAction} (h : s.step ops a = some t) : LoopCase s a t := by
  cases a with
  | announce =>
    obtain ⟨-, ⟨⟩⟩ := Option.ite_none_right_eq_some.mp h
    exact .worker _ _ _ rfl rfl rfl (by simp)
  | take =>
    obtain ⟨-, h⟩ := Option.ite_none_right_eq_some.mp h
    obtain ⟨⟨r, c⟩, -, ⟨⟩⟩ := Option.map_eq_some_iff.mp h
    exact .worker _ _ [] rfl rfl (Channel.send_nil _).symm (by simp)
  | serve =>
    cases hw : s.worker with
    | serving r =>
      simp only [step, hw] at h
      obtain rfl := Option.some.inj h
      exact .worker _ _ _ rfl rfl rfl (by simp)
    | _ => simp [step, hw] at h
  | hangUp =>
    obtain ⟨-, ⟨⟩⟩ := Option.ite_none_right_eq_some.mp h
    exact .worker _ _ [] rfl rfl (Channel.send_nil _).symm (by simp)
  | finish =>
    obtain ⟨-, ⟨⟩⟩ := Option.ite_none_right_eq_some.mp h
    exact .worker _ _ [] rfl rfl (Channel.send_nil _).symm (by simp)
  | event =>
    obtain ⟨hl, h⟩ := Option.ite_none_right_eq_some.mp h
    obtain ⟨⟨ev, c⟩, hr, ⟨⟩⟩ := Option.map_eq_some_iff.mp h
    exact .event ev c hl hr
  | drained =>
    obtain ⟨⟨hl, hq⟩, ⟨⟩⟩ := Option.ite_none_right_eq_some.mp h
    exact .drained hl hq
  | key k =>
    obtain ⟨hl, ⟨⟩⟩ := Option.ite_none_right_eq_some.mp h
    exact .key k hl
  | noKey =>
    obtain ⟨hl, ⟨⟩⟩ := Option.ite_none_right_eq_some.mp h
    exact .noKey hl
  | fail =>
    obtain ⟨-, ⟨⟩⟩ := Option.ite_none_left_eq_some.mp h
    exact .fail

theorem checkQuit_of_quit (h : s.app.shouldQuit = true) : s.checkQuit = s.leave := if_pos h

theorem checkQuit_of_not (h : s.app.shouldQuit = false) :
    s.checkQuit = { s with loop := .draining } := by
  unfold checkQuit
  rw [h]
  rfl

theorem LoopCase.live {a : SessionAction} (hc : LoopCase s a t) (h : t.loop ≠ .left) :
    s.loop ≠ .left := by
  cases hc with
  | worker _ _ _ _ hl => rwa [hl] at h
  | event _ _ hl => simp [hl]
  | drained hl => simp [hl]
  | key _ hl => simp [hl]
  | noKey hl => simp [hl]
  | fail => exact absurd rfl h

/-- While the interface's loop runs nobody has asked the worker to shut down, so that a worker
whose loop has ended has said why. -/
def Explained (s : Session σ) : Prop :=
  .shutdown ∉ s.requests.sent ∧
    (s.worker = .stopping ∨ s.worker = .finished → ∃ why, .fatal why ∈ s.events.sent)

theorem explained_step {a : SessionAction} (hst : s.step ops a = some t) (hal : s.Aligned)
    (h : s.loop ≠ .left → s.Explained) (hl : t.loop ≠ .left) : t.Explained := by
  obtain ⟨hsent, hstop⟩ := h ((loop_case hst).live hl)
  cases step_case hst with
  | announce => exact ⟨hsent, by simp⟩
  | take r c _ hc =>
    refine ⟨?_, by simp⟩
    rwa [← (Channel.receive_some hc).1] at hsent
  | serve r hw =>
    refine ⟨hsent, ?_⟩
    -- the request being served is among those sent, and is no shutdown
    cases r with
    | shutdown => exact absurd (hal.serving_mem hw) hsent
    | restart => exact fun _ => ⟨_, List.mem_append_right _ (List.mem_singleton.mpr rfl)⟩
    | _ => simp [serveRequest]
  | hangUp _ hleft => exact absurd hleft hl
  | finish hw => exact ⟨hsent, fun _ => hstop (.inl hw)⟩
  | event ev c reqs app _ hc he =>
    rw [← (Channel.receive_some hc).1] at hstop
    refine ⟨?_, hstop⟩
    rw [Channel.sent_send, List.mem_append, not_or]
    exact ⟨hsent, by cases he <;> simp⟩
  | drained => exact ⟨hsent, hstop⟩
  | key a reqs app tail loop _ hk htail =>
    obtain ⟨rfl, -⟩ := htail.resolve_right fun h => hl h.2
    refine ⟨?_, hstop⟩
    rw [Channel.sent_send, List.append_nil, List.mem_append, not_or]
    exact ⟨hsent, by cases hk <;> simp⟩

theorem fatal_notMem_answers {rs : List Request} {evs : List Event}
    (hf : List.Forall₂ Answers rs evs) (why : String) : .fatal why ∉ evs := by
  induction hf with
  | nil => exact List.not_mem_nil
  | @cons r ev _ _ ha _ ih =>
    intro hm
    rcases List.mem_cons.mp hm with rfl | hm
    · cases r <;> exact ha
    · exact ih hm

/-- A fatal event stands behind the answers. -/
theorem AnsweredUpTo.fatal_in_tail {n i : ℕ} {tail : List Event} {why : String}
    (h : s.AnsweredUpTo n tail) (hi : s.events.sent[i]? = some (.fatal why)) :
    ∃ j, tail[j]? = some (.fatal why) ∧ s.events.sent.length + j = i + tail.length := by
  obtain ⟨b, answers, he, hf⟩ := h
  rw [he] at hi ⊢
  cases i with
  | zero => cases hi
  | succ i =>
    rw [List.getElem?_cons_succ] at hi
    rcases lt_or_ge i answers.length with hlt | hge
    · rw [List.getElem?_append_left hlt] at hi
      exact absurd (List.mem_of_getElem? hi) (fatal_notMem_answers hf why)
    · rw [List.getElem?_append_right hge] at hi
      refine ⟨_, hi, ?_⟩
      simp only [List.length_cons, List.length_append]
      omega

/-- Nothing is sent after a fatal event. -/
theorem Aligned.fatal_last (hal : s.Aligned) {i : ℕ} {why : String}
    (hi : s.events.sent[i]? = some (.fatal why)) : s.events.sent.length = i + 1 := by
  have hnone (n : ℕ) (h : s.AnsweredUpTo n []) : s.events.sent.length = i + 1 := by
    obtain ⟨j, hj, -⟩ := h.fatal_in_tail hi
    cases hj
  unfold Aligned at hal
  split at hal
  · rw [hal.2] at hi
    cases hi
  · exact hnone _ hal
  · obtain ⟨n, -, -, ha⟩ := hal
    exact hnone _ ha
  all_goals
    rcases hal with ha | ⟨n, r, tail, -, -, hl, ha⟩
    · exact hnone _ ha
    · -- the last words are that event alone
      obtain ⟨j, hj, hlen⟩ := ha.fatal_in_tail hi
      cases r with
      | restart =>
        obtain ⟨why', rfl⟩ := hl
        have hj := (List.getElem?_eq_some_iff.mp hj).1
        simp only [List.length_singleton] at hj hlen
        omega
      | shutdown =>
        rw [show tail = [] from hl] at hj
        cases hj
      | _ => exact hl.elim

theorem processed_receive {ev : Event} {c : Channel Event}
    (hc : s.events.receive = some (ev, c)) :
    c.sent.take c.received = s.processed ++ [ev] := by
  obtain ⟨hs, hr, hev⟩ := Channel.receive_some hc
  rw [hs, hr, List.take_add_one, hev]
  rfl

/-- Sending events does not concern what is received. -/
theorem processed_send {evs : List Event} (he : t.events = s.events.send evs) :
    t.processed = s.processed := by
  rw [processed, he, Channel.sent_send, Channel.received_send,
    List.take_append_of_le_length s.events.received_le]
  rfl

/-- What is received before a fatal event is all there is. -/
theorem queue_of_fatal (hal : s.Aligned) {why : String} (hf : .fatal why ∈ s.processed) :
    s.events.receive = none := by
  obtain ⟨i, hi⟩ := List.mem_iff_getElem?.mp hf
  have hlt := (List.getElem?_eq_some_iff.mp hi).1
  rw [processed, List.length_take] at hlt
  rw [processed, List.getElem?_take_of_lt (by omega)] at hi
  have hlen := hal.fatal_last hi
  unfold Channel.receive
  rw [dif_neg (by omega)]

/-- While the interface's loop runs, it is about to quit exactly after a fatal event, and then
shows its error. -/
structure FatalShown (s : Session σ) : Prop where
  quits : s.app.shouldQuit = true ↔ ∃ why, .fatal why ∈ s.processed
  error : ∀ why, .fatal why ∈ s.processed → s.app.error = some why

theorem FatalShown.notMem (h : s.FatalShown) (hq : s.app.shouldQuit = false) (why : String) :
    .fatal why ∉ s.processed := by
  intro hf
  rw [h.quits.mpr ⟨why, hf⟩] at hq
  cases hq

/-- Where nothing quits, no fatal event has been received. -/
theorem FatalShown.quiet (h : s.FatalShown) (hs : s.app.shouldQuit = false)
    (ht : t.app.shouldQuit = false) (he : t.events = s.events) : t.FatalShown := by
  have hp : t.processed = s.processed := by rw [processed, processed, he]
  constructor
  · rw [ht, hp]
    simp [h.notMem hs]
  · intro why hf
    rw [hp] at hf
    exact absurd hf (h.notMem hs why)

@[simp] theorem app_checkQuit (s : Session σ) : s.checkQuit.app = s.app := by
  unfold checkQuit
  split_ifs <;> rfl

@[simp] theorem events_checkQuit (s : Session σ) : s.checkQuit.events = s.events := by
  unfold checkQuit
  split_ifs <;> rfl

theorem shouldQuit_of_live (hl : s.checkQuit.loop ≠ .left) : s.app.shouldQuit = false := by
  cases hq : s.app.shouldQuit with
  | false => rfl
  | true =>
    rw [checkQuit_of_quit hq] at hl
    exact absurd rfl hl

theorem KeyCase.not_quit {a a' : App} {reqs : List Request} (hk : KeyCase a reqs a')
    (h : a'.shouldQuit = false) : a.shouldQuit = false := by
  cases hq : a.shouldQuit with
  | false => rfl
  | true =>
    rw [hk.shouldQuit hq] at h
    cases h

theorem fatalShown_step {a : SessionAction} (hc : LoopCase s a t) (hal : s.Aligned)
    (hex : s.Explained) (h : s.FatalShown) (hl : t.loop ≠ .left) : t.FatalShown := by
  cases hc with
  | worker _ _ evs happ _ hevs =>
    have hp := processed_send hevs
    exact ⟨by rw [happ, hp]; exact h.quits, by rw [happ, hp]; exact h.error⟩
  | event ev c _ hr =>
    have hnone (why : String) : .fatal why ∉ s.processed := by
      intro hf
      rw [queue_of_fatal hal hf] at hr
      cases hr
    constructor
    · change (s.app.onEvent ev).2.shouldQuit = true ↔ ∃ why, .fatal why ∈ c.sent.take c.received
      rw [processed_receive hr, shouldQuit_onEvent, h.quits]
      simp [hnone, eq_comm]
    · intro why hf
      change .fatal why ∈ c.sent.take c.received at hf
      rw [processed_receive hr] at hf
      rcases List.mem_append.mp hf with hf | hf
      · exact absurd hf (hnone why)
      · rw [← List.mem_singleton.mp hf]
        rfl
  | drained _ hq =>
    have hsent : s.processed = s.events.sent := by
      rw [processed, Channel.received_of_queue hq, List.take_length]
    refine ⟨?_, h.error⟩
    change (s.app.shouldQuit || decide (s.worker = .finished)) = true ↔ _
    rw [Bool.or_eq_true, h.quits, decide_eq_true_iff]
    refine ⟨fun hor => hor.elim id fun hw => ?_, .inl⟩
    rw [show processed { s with app := _, loop := .polling } = s.processed from rfl, hsent]
    exact hex.2 (.inr hw)
  | key k =>
    have hquit := shouldQuit_of_live hl
    have hbefore := KeyCase.not_quit (handleKey_case s.app k) hquit
    exact h.quiet hbefore (by rwa [app_checkQuit]) (by rw [events_checkQuit])
  | noKey =>
    have hquit := shouldQuit_of_live hl
    exact h.quiet hquit (by rwa [app_checkQuit]) (by rw [events_checkQuit])
  | fail => exact absurd rfl hl

theorem fatalShown_of_run (hr : Run (Steps (step ops)) (start engine) h s) (hl : s.loop ≠ .left) :
    s.Explained ∧ s.FatalShown := by
  refine hr.induct (fun _ s => s.loop ≠ .left → s.Explained ∧ s.FatalShown) ?_ ?_ hl
  · refine fun _ => ⟨⟨by simp [start, Channel.empty], by simp [start]⟩, ⟨?_, ?_⟩⟩
    · simp [start, App.new, processed, Channel.empty]
    · simp [start, processed, Channel.empty]
  · intro h s a t hr ih hst hl
    have hal := aligned_of_run hr
    have hlive := ih ((loop_case hst).live hl)
    have hex := explained_step hst hal (fun hl => (ih hl).1) hl
    exact ⟨hex, fatalShown_step (loop_case hst) hal hlive.1 hlive.2 hl⟩

theorem Reported.congr (h : s.Reported) (ha : t.app = s.app) (hp : t.processed = s.processed) :
    t.Reported := by
  have he : t.exit = s.exit := by rw [exit, exit, ha]
  exact ⟨by rw [hp, he]; exact h.fatal, by rw [hp, he]; exact h.quiet⟩

/-- After a fatal event the report is right exactly when its error still stands. -/
theorem reported_fatal {why : String} (hf : .fatal why ∈ s.processed) :
    s.Reported ↔ ∀ why, .fatal why ∈ s.processed → s.app.error = some why := by
  constructor
  · intro h why' hf'
    have hex := h.fatal why' hf'
    unfold exit at hex
    cases he : s.app.error with
    | none =>
      rw [he] at hex
      cases hex
    | some e =>
      rw [he] at hex
      have hline := Option.some.inj (congrArg Exit.stderr hex)
      rw [(String.append_right_inj _).mp hline]
  · intro h
    refine ⟨fun why' hf' => ?_, fun hno => absurd hf (hno why)⟩
    rw [exit, h why' hf']

/-- Without a fatal event the report is right exactly when no error stands. -/
theorem reported_quiet (hno : ∀ why, .fatal why ∉ s.processed) :
    s.Reported ↔ s.app.error = none := by
  constructor
  · intro h
    have hex := h.quiet hno
    unfold exit at hex
    cases he : s.app.error with
    | none => rfl
    | some e =>
      rw [he] at hex
      cases hex
  · intro h
    refine ⟨fun why hf => absurd hf (hno why), fun _ => ?_⟩
    rw [exit, h]

/-- A key that leaves the loop keeps the report right exactly when it meets the condition. -/
theorem reported_key (h : s.FatalShown) {k : KeyEvent} (ha : t.app = (handleKey s.app k).2)
    (he : t.events = s.events) (hq : t.app.shouldQuit = true) :
    s.KeepsReport (.key k) ↔ t.Reported := by
  have hp : t.processed = s.processed := by rw [processed, processed, he]
  cases hs : s.app.shouldQuit with
  | true =>
    -- a fatal event was received, and its overlay is up
    obtain ⟨why, hf⟩ := h.quits.mp hs
    have herr : s.app.error.isSome = true := by rw [h.error why hf]; rfl
    rw [reported_fatal (hp ▸ hf), hp, ha, error_overlay herr]
    simp only [KeepsReport, hs, ↓reduceIte]
    cases k.dismisses with
    | true => exact ⟨fun hd => (by cases hd), fun hall => (by cases hall why hf)⟩
    | false => exact ⟨fun _ => h.error, fun _ => rfl⟩
  | false =>
    have hno := h.notMem hs
    rw [reported_quiet (hp ▸ hno), ha]
    simp only [KeepsReport, hs, Bool.false_eq_true, ↓reduceIte]
    cases herr : s.app.error with
    | none => exact ⟨fun _ => error_handleKey herr k, fun _ hsome => (by cases hsome)⟩
    | some e =>
      -- a recoverable error is shown, and the key that leaves under it is one that quits
      have hsome : s.app.error.isSome = true := by rw [herr]; rfl
      have hkq : k.quits = true := by
        rw [ha, shouldQuit_overlay hsome, hs, Bool.false_or] at hq
        exact hq
      have hdis : k.dismisses = false := by
        cases hd : k.dismisses with
        | false => rfl
        | true =>
          rw [k.quits_of_dismisses hd] at hkq
          cases hkq
      rw [error_overlay hsome, hkq, hdis, herr]
      simp

/-- Under a recoverable error, a key after which the loop goes on meets the condition. -/
theorem keepsReport_of_live {k : KeyEvent} (hq : (handleKey s.app k).2.shouldQuit = false) :
    s.KeepsReport (.key k) := by
  have hs := KeyCase.not_quit (handleKey_case s.app k) hq
  simp only [KeepsReport, hs, Bool.false_eq_true, ↓reduceIte]
  intro hsome
  rw [shouldQuit_overlay hsome, hs, Bool.false_or] at hq
  exact hq

/-- While the loop goes on every step meets the condition; the step that leaves it decides. -/
theorem report_step {a : SessionAction} (hst : s.step ops a = some t) (ha : a ≠ .fail)
    (hsh : s.loop ≠ .left → s.FatalShown) :
    (t.loop ≠ .left → s.KeepsReport a) ∧
      (t.loop = .left → s.loop ≠ .left → (s.KeepsReport a ↔ t.Reported)) ∧
      (s.loop = .left → s.KeepsReport a ∧ t.loop = .left ∧ t.app = s.app ∧
        t.processed = s.processed) := by
  cases loop_case hst with
  | worker a t evs happ hloop hevs hkey =>
    have hkeep : s.KeepsReport a := by
      cases a with
      | key k => exact absurd rfl (hkey k)
      | _ => trivial
    have hp := processed_send hevs
    refine ⟨fun _ => hkeep, fun hl hlive => ?_, fun hl => ⟨hkeep, hloop.trans hl, happ, hp⟩⟩
    exact absurd (hloop.symm.trans hl) hlive
  | event ev c hl =>
    exact ⟨fun _ => trivial, fun hleft => (by simp [hl] at hleft), fun h => (by simp [hl] at h)⟩
  | drained hl =>
    exact ⟨fun _ => trivial, fun hleft => (by cases hleft), fun h => (by simp [hl] at h)⟩
  | key k hl =>
    refine ⟨fun hlive => keepsReport_of_live (shouldQuit_of_live hlive), fun hleft hlive => ?_,
      fun h => (by simp [hl] at h)⟩
    refine reported_key (hsh hlive) (app_checkQuit _) (events_checkQuit _) ?_
    rw [app_checkQuit]
    cases hq : (handleKey s.app k).2.shouldQuit with
    | true => rfl
    | false =>
      rw [checkQuit_of_not hq] at hleft
      cases hleft
  | noKey hl =>
    refine ⟨fun _ => trivial, fun hleft hlive => ⟨fun _ => ?_, fun _ => trivial⟩,
      fun h => (by simp [hl] at h)⟩
    have hs : s.app.shouldQuit = true := by
      cases hq : s.app.shouldQuit with
      | true => rfl
      | false =>
        rw [checkQuit_of_not hq] at hleft
        cases hleft
    obtain ⟨why, hf⟩ := (hsh hlive).quits.mp hs
    have hsame : s.Reported := (reported_fatal hf).mpr (hsh hlive).error
    exact hsame.congr (app_checkQuit s) (by rw [processed, processed, events_checkQuit])
  | fail => exact absurd rfl ha

/-- Exactly when a fatal end is reported, and only a fatal end: in a session that ends without an
error of the terminal, if and only if no key dismisses the error behind a fatal event, and none
quits under a recoverable one. -/
theorem fatal_end_is_reported_iff (hr : Run (Steps (step ops)) (start engine) h s)
    (hfail : ∀ p ∈ h, p.2 ≠ .fail) (hl : s.loop = .left) :
    (∀ p ∈ h, p.1.KeepsReport p.2) ↔ s.Reported := by
  have hdecided : (∀ p ∈ h, p.2 ≠ .fail) →
      (s.loop ≠ .left → ∀ p ∈ h, p.1.KeepsReport p.2) ∧
      (s.loop = .left → ((∀ p ∈ h, p.1.KeepsReport p.2) ↔ s.Reported)) := by
    refine hr.induct (fun h s => (∀ p ∈ h, p.2 ≠ .fail) →
      (s.loop ≠ .left → ∀ p ∈ h, p.1.KeepsReport p.2) ∧
      (s.loop = .left → ((∀ p ∈ h, p.1.KeepsReport p.2) ↔ s.Reported))) ?_ ?_
    · exact fun _ => ⟨fun _ p hm => (by cases hm), fun hl => (by cases hl)⟩
    · intro h s a t hr ih hst hfail
      obtain ⟨hfail, ha⟩ := List.forall_mem_append.mp hfail
      obtain ⟨hlive, hleft⟩ := ih hfail
      obtain ⟨hgo, hend, hafter⟩ := report_step hst (ha _ (List.mem_singleton.mpr rfl))
        fun hl => (fatalShown_of_run hr hl).2
      rw [List.forall_mem_append, List.forall_mem_singleton]
      refine ⟨fun hl => ⟨hlive ((loop_case hst).live hl), hgo hl⟩, fun hl => ?_⟩
      by_cases hs : s.loop = .left
      · obtain ⟨hkeep, -, happ, hp⟩ := hafter hs
        rw [and_iff_left hkeep, hleft hs]
        exact ⟨fun h => h.congr happ hp, fun h => h.congr happ.symm hp.symm⟩
      · rw [and_iff_right (hlive hs)]
        exact hend hl hs
  exact (hdecided hfail).2 hl

/-- An engine in which no symbol has a call hierarchy. -/
def refusing : EngineOps Unit := { stub [stubMatch] with seed := fun _ _ => (.ok none, ()) }

/-- A seed that comes to nothing: its error is shown. -/
def refusedSeed : List SessionAction := searchAndSeed ++ [.drained]

/-- A restart asked for from there: the worker answers with a fatal event. -/
def refusedRestart : List SessionAction :=
  refusedSeed ++ [.key ⟨.char 'r', false⟩, .take, .serve, .event, .drained]

/-- Esc in the round that received a fatal event erases it; quitting under a recoverable error
reports that one. -/
theorem dismissed_fatal_is_not_reported :
    (∃ h s, Run (Steps (step refusing)) (start ()) h s ∧
      h.map Prod.snd = refusedRestart ++ [.key ⟨.esc, false⟩] ∧ s.loop = .left ∧
      .fatal "language server restart requires relaunching lspgraph" ∈ s.processed ∧
      s.exit = ⟨0, none⟩) ∧
    ∃ h s, Run (Steps (step refusing)) (start ()) h s ∧
      h.map Prod.snd = refusedSeed ++ [.key ⟨.char 'q', false⟩] ∧ s.loop = .left ∧
      (∀ why, .fatal why ∉ s.processed) ∧
      s.exit = ⟨1, some "lspgraph: that symbol has no call hierarchy"⟩ := by
  constructor
  · have hr := run_of_exec (step refusing) (start ()) (refusedRestart ++ [.key ⟨.esc, false⟩]) rfl
    exact ⟨_, _, hr, rfl, rfl, by decide, rfl⟩
  · have hr := run_of_exec (step refusing) (start ()) (refusedSeed ++ [.key ⟨.char 'q', false⟩]) rfl
    refine ⟨_, _, hr, rfl, rfl, fun why => ?_, rfl⟩
    change Event.fatal why ∉ [Event.ready true, .matched [stubMatch], .seeded none]
    simp

/-- Without a key behind it, the fatal event is reported. -/
theorem fatal_end_is_reported_unanswered :
    ∃ h s, Run (Steps (step refusing)) (start ()) h s ∧
      h.map Prod.snd = refusedRestart ++ [.noKey] ∧ s.loop = .left ∧ s.Reported := by
  have hr := run_of_exec (step refusing) (start ()) (refusedRestart ++ [.noKey]) rfl
  exact ⟨_, _, hr, rfl, rfl, (fatal_end_is_reported_iff hr (by decide) rfl).mp (by decide)⟩

end Session

end LspGraph
