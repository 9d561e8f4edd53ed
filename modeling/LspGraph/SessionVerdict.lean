import LspGraph.SampleHost
import LspGraph.SessionEngine

/-! The verdict on the focused node: which answer decides it. -/
namespace LspGraph
open Runs

namespace App

/-- The interface shows the event as its verdict on the node. -/
def Shows (a : App) (id : NodeId) : Event → Prop
  | .failed id' _ => id' = id ∧ a.pending = none ∧ a.failed = some id
  | .expanded id' exp => id' = id ∧ a.pending = none ∧ a.failed = none ∧
      a.callers.map Node.id = exp.ids.callers ∧ a.callees.map Node.id = exp.ids.callees
  | _ => False

theorem Shows.pending {a : App} {id : NodeId} {ev : Event} (h : a.Shows id ev) :
    a.pending = none := by
  cases ev with
  | failed => exact h.2.1
  | expanded => exact h.2.1
  | _ => cases h

/-- The same node is focused, with the same verdict or none. -/
structure SameVerdict (a a' : App) : Prop where
  focus : a'.focus = a.focus
  pending : a'.pending = a.pending
  failed : a'.failed = a.failed
  callers : a'.callers = a.callers
  callees : a'.callees = a.callees

theorem SameVerdict.shows {a a' : App} (h : SameVerdict a a') {id : NodeId} {ev : Event}
    (hs : a.Shows id ev) : a'.Shows id ev := by
  cases ev with
  | failed id' why =>
    obtain ⟨hid, hp, hf⟩ := hs
    exact ⟨hid, h.pending.trans hp, h.failed.trans hf⟩
  | expanded id' exp =>
    obtain ⟨hid, hp, hf, hcr, hce⟩ := hs
    refine ⟨hid, h.pending.trans hp, h.failed.trans hf, ?_, ?_⟩
    · rw [h.callers]
      exact hcr
    · rw [h.callees]
      exact hce
  | _ => cases hs

/-- A node is newly focused, and its expansion asked for. -/
structure Focused (reqs : List Request) (a' : App) (node : Node) : Prop where
  reqs : reqs = [.expand node.id]
  focus : a'.focus = some node
  pending : a'.pending = some node.id

end App

open App

/-- What an event does to the verdict: it focuses another node, answers the pending request, or
leaves the verdict as it is. -/
theorem EventCase.verdict {a a' : App} {ev : Event} {reqs : List Request}
    (he : EventCase a ev reqs a') :
    (∃ node, Focused reqs a' node) ∨ reqs = [] ∧
      ((∃ id, a.pending = some id ∧ a'.focus = a.focus ∧ a'.Shows id ev) ∨
        SameVerdict a a' ∧ ∀ id, a.pending = some id → ¬Answers (.expand id) ev) := by
  cases he with
  | ready => exact .inr ⟨rfl, .inr ⟨⟨rfl, rfl, rfl, rfl, rfl⟩, fun _ _ => not_false⟩⟩
  | matched => exact .inr ⟨rfl, .inr ⟨⟨rfl, rfl, rfl, rfl, rfl⟩, fun _ _ => not_false⟩⟩
  | focused node => exact .inl ⟨node, rfl, rfl, rfl⟩
  | expanded id exp hp => exact .inr ⟨rfl, .inl ⟨id, hp, rfl, rfl, rfl, rfl, rfl, rfl⟩⟩
  | failed id why error hp => exact .inr ⟨rfl, .inl ⟨id, hp, rfl, rfl, rfl, rfl⟩⟩
  | noted _ error quit _ _ hno => exact .inr ⟨rfl, .inr ⟨⟨rfl, rfl, rfl, rfl, rfl⟩, hno⟩⟩

theorem KeyCase.verdict {a a' : App} {reqs : List Request} (hk : KeyCase a reqs a') :
    (∃ node, Focused reqs a' node) ∨ (∀ id, .expand id ∉ reqs) ∧ SameVerdict a a' := by
  cases hk with
  | recentred next => exact .inl ⟨next, rfl, rfl, rfl⟩
  | wentBack init prev => exact .inl ⟨prev, rfl, rfl, rfl⟩
  | _ => exact .inr ⟨by simp, rfl, rfl, rfl, rfl, rfl⟩

namespace Session

variable {σ : Type*} {s t : Session σ}

/-- No success is received for the node whose failure is shown. -/
def noLateSuccess (s : Session σ) : SessionAction → Bool
  | .event =>
    match s.events.queue.head? with
    | some (.expanded id _) => s.app.failed ≠ some id
    | _ => true
  | _ => true

/-- The last expansion that was sent is the one of the focused node. It is pending, or an answer
for the node is shown: its own, or an earlier one while its own is still to come. -/
def Decided (s : Session σ) : Prop :=
  ∀ n, s.app.focus = some n → ∃ l₁ l₂, s.requests.sent = l₁ ++ .expand n.id :: l₂ ∧
    (∀ id, .expand id ∉ l₂) ∧
    (s.app.pending = some n.id ∧ s.events.received ≤ l₁.length + 1 ∨
      ∃ j ev, j < s.events.received ∧ s.events.sent[j]? = some ev ∧ s.app.Shows n.id ev ∧
        (j = l₁.length + 1 ∨ s.events.received ≤ l₁.length + 1))

/-- A newly focused node: its expansion is the last one, and unanswered. -/
theorem decided_focused (s : Session σ) {node : Node} {reqs : List Request} (tail : List Request)
    (hf : Focused reqs t.app node) (hr : t.requests.sent = s.requests.sent ++ (reqs ++ tail))
    (ht : ∀ id, .expand id ∉ tail) (he : t.events.received ≤ s.requests.sent.length + 1) :
    t.Decided := by
  intro n hn
  obtain rfl := Option.some.inj (hf.focus.symm.trans hn)
  refine ⟨s.requests.sent, tail, ?_, ht, .inl ⟨hf.pending, he⟩⟩
  rw [hr, hf.reqs]
  rfl

/-- Nothing is received, the events sent so far stay, and the requests that are sent are not
expansions. -/
theorem Decided.keep (h : s.Decided) (xs : List Request) (evs : List Event)
    (hv : SameVerdict s.app t.app) (hr : t.requests.sent = s.requests.sent ++ xs)
    (hx : ∀ id, .expand id ∉ xs) (he : t.events.sent = s.events.sent ++ evs)
    (hrec : t.events.received = s.events.received) : t.Decided := by
  intro n hn
  obtain ⟨l₁, l₂, hs, hl, hd⟩ := h n (hv.focus.symm.trans hn)
  refine ⟨l₁, l₂ ++ xs, ?_, ?_, ?_⟩
  · rw [hr, hs]
    simp
  · intro id hm
    rcases List.mem_append.mp hm with hm | hm
    · exact hl id hm
    · exact hx id hm
  · rw [hrec]
    rcases hd with ⟨hp, hle⟩ | ⟨j, ev, hj, hg, hsh, hd⟩
    · exact .inl ⟨hv.pending.trans hp, hle⟩
    · refine .inr ⟨j, ev, hj, ?_, hv.shows hsh, hd⟩
      rw [he]
      exact List.getElem?_append_some hg evs

variable {S : Type*} {host : Host S} {supported : Bool} {server : S} {canSearch : Bool}
  {u v : Session (CoreEngine S)} {h : History (CoreEngine S)}

/-- The answer to the last expansion comes while an earlier answer for the node is shown, and
changes nothing: it says the same. -/
theorem shows_again (htr : Traced host h u) {id : NodeId} {ev ev' : Event} {j : ℕ}
    (hj : j < u.events.received) (hgj : u.events.sent[j]? = some ev')
    (hgk : u.events.sent[u.events.received]? = some ev) (hans : Answers (.expand id) ev)
    (hlate : ∀ exp, ev = .expanded id exp → u.app.failed ≠ some id)
    (hsh : u.app.Shows id ev') : u.app.Shows id ev := by
  cases ev with
  | expanded id' exp =>
    obtain rfl : id' = id := hans
    cases ev' with
    | expanded id'' exp' =>
      obtain ⟨rfl, hp, hf, hcr, hce⟩ := hsh
      -- both are read off the one entry of the memo
      have hm := htr.expanded _ exp (List.mem_of_getElem? hgk)
      have hm' := htr.expanded _ exp' (List.mem_of_getElem? hgj)
      rw [hm'.unique hm] at hcr hce
      exact ⟨rfl, hp, hf, hcr, hce⟩
    | failed id'' why => exact absurd hsh.2.2 (hlate exp rfl)
    | _ => cases hsh
  | failed id' why =>
    obtain rfl : id' = id := hans
    cases ev' with
    | expanded id'' exp' =>
      obtain rfl := hsh.1
      have hlt := htr.lasting _ _ _ exp' why hgj hgk
      omega
    | failed id'' why' => exact ⟨rfl, hsh.2.1, hsh.2.2⟩
    | _ => cases hsh
  | _ => cases hans

theorem decided_event
    (hr : Run (Steps (step (coreEngine host supported))) (start ⟨.new server, canSearch⟩) h u)
    (hd : u.Decided) (hg : u.noLateSuccess .event = true) {ev : Event} {c : Channel Event}
    {reqs : List Request} (hc : u.events.receive = some (ev, c))
    (he : EventCase u.app ev reqs v.app) (hreq : v.requests.sent = u.requests.sent ++ reqs)
    (hev : v.events = c) : v.Decided := by
  obtain ⟨hs, hrec, hget⟩ := Channel.receive_some hc
  have hlt := (List.getElem?_eq_some_iff.mp hget).1
  rcases he.verdict with ⟨node, hf⟩ | ⟨rfl, hcase⟩
  · refine decided_focused u [] hf ?_ (by simp) ?_
    · rw [hreq, List.append_nil]
    · have hle := (aligned_of_run hr).length_le
      rw [hev, hrec]
      omega
  rw [List.append_nil] at hreq
  intro n hn
  rw [hev, hs, hrec, hreq]
  rcases hcase with ⟨id, hp, hfoc, hsh⟩ | ⟨hsame, hno⟩
  · -- the pending expansion is answered, and its answer is shown
    obtain ⟨l₁, l₂, hl, hlast, ⟨hp', hle⟩ | ⟨j, ev', -, -, hsh', -⟩⟩ := hd n (hfoc ▸ hn)
    · obtain rfl := Option.some.inj (hp.symm.trans hp')
      exact ⟨l₁, l₂, hl, hlast, .inr ⟨_, ev, by omega, hget, hsh, by omega⟩⟩
    · rw [hsh'.pending] at hp
      cases hp
  · obtain ⟨l₁, l₂, hl, hlast, hd⟩ := hd n (hsame.focus ▸ hn)
    have hexp : u.requests.sent[l₁.length]? = some (.expand n.id) := by
      rw [hl]
      simp
    have hans (hk : u.events.received = l₁.length + 1) : Answers (.expand n.id) ev :=
      answers_of_run hr hexp rfl (hk ▸ hget)
    refine ⟨l₁, l₂, hl, hlast, ?_⟩
    rcases hd with ⟨hp, hle⟩ | ⟨j, ev', hj, hgj, hsh, hd⟩
    -- a pending node whose own answer comes would have been answered
    · have hk : u.events.received ≠ l₁.length + 1 := fun hk => hno _ hp (hans hk)
      exact .inl ⟨hsame.pending.trans hp, by omega⟩
    · by_cases hk : u.events.received = l₁.length + 1
      · have hlate (exp : ResolvedExpansion) (he : ev = .expanded n.id exp) :
            u.app.failed ≠ some n.id := by
          unfold noLateSuccess at hg
          rw [Channel.queue_receive hc, he] at hg
          exact of_decide_eq_true hg
        have hsh := shows_again (traced_of_run hr) hj hgj hget (hans hk) hlate hsh
        exact .inr ⟨_, ev, by omega, hget, hsame.shows hsh, .inl hk⟩
      · exact .inr ⟨j, ev', by omega, hgj, hsame.shows hsh, by omega⟩

theorem decided_step {a : SessionAction}
    (hr : Run (Steps (step (coreEngine host supported))) (start ⟨.new server, canSearch⟩) h u)
    (hd : u.Decided) (hg : u.noLateSuccess a = true)
    (hst : StepCase (coreEngine host supported) u a v) : v.Decided := by
  have hsame : SameVerdict u.app u.app := ⟨rfl, rfl, rfl, rfl, rfl⟩
  cases hst with
  | take r c hw hc =>
    have hs := (Channel.receive_some hc).1
    exact hd.keep [] [] hsame (by simp [hs]) (by simp) (by simp) rfl
  | event ev c reqs app hl hc he => exact decided_event hr hd hg hc he rfl rfl
  | key a reqs app tail loop ha hk htail =>
    have htail := expand_notMem_tail htail
    rcases hk.verdict with ⟨node, hf⟩ | ⟨hreqs, hv⟩
    · refine decided_focused u tail hf rfl htail ?_
      have hle := (aligned_of_run hr).length_le
      have hrec := u.events.received_le
      dsimp only
      omega
    · have hnone (id : NodeId) : .expand id ∉ reqs ++ tail := by simp [hreqs id, htail id]
      exact hd.keep _ [] hv rfl hnone (by simp) rfl
  | drained quit =>
    exact hd.keep [] [] ⟨rfl, rfl, rfl, rfl, rfl⟩ (by simp) (by simp) (by simp) rfl
  | announce => exact hd.keep [] _ hsame (by simp) (by simp) rfl rfl
  | serve => exact hd.keep [] _ hsame (by simp) (by simp) rfl rfl
  | _ => exact hd.keep [] [] hsame (by simp) (by simp) (by simp) rfl

/-- The worker's loop goes on, and it is not expanding a node. -/
def Resting (s : Session σ) : Prop :=
  match s.worker with
  | .stopping | .finished | .serving (.expand _) => False
  | _ => True

/-- At rest every expansion that was sent is answered. -/
theorem answered_at_rest (hal : s.Aligned) (hq : s.requests.queue = []) (hw : s.Resting)
    {l₁ l₂ : List Request} {id : NodeId} (hs : s.requests.sent = l₁ ++ .expand id :: l₂) :
    l₁.length + 2 ≤ s.events.sent.length := by
  have hlen : l₁.length < s.requests.sent.length := by simp [hs]
  have hall := Channel.received_of_queue hq
  unfold Aligned at hal
  unfold Resting at hw
  cases hwk : s.worker with
  | starting =>
    rw [hwk] at hal
    have hzero := hal.1
    omega
  | idle =>
    rw [hwk] at hal
    rw [hal.length hall.le, List.length_nil]
    omega
  | serving r =>
    rw [hwk] at hal
    obtain ⟨n, hn, hg, ha⟩ := hal
    -- the request being served is the last one, and not an expansion
    have hne : l₁.length ≠ n := by
      rintro rfl
      have hr : r = .expand id := by simpa [hs] using hg.symm
      rw [hwk, hr] at hw
      exact hw
    rw [ha.length (by omega), List.length_nil]
    omega
  | stopping =>
    rw [hwk] at hw
    cases hw
  | finished =>
    rw [hwk] at hw
    cases hw

/-- The newest request decides what is shown. In a run in which no success is received while a
failure of the same node is shown, whenever both channels are empty and the worker is at rest,
the last expansion that was sent is the one of the focused node, and what the interface shows is
the answer to it: the event with its index behind the announcement. -/
theorem last_expand_decides
    (hr : Run (Steps (step (coreEngine host supported))) (start ⟨.new server, canSearch⟩) h u)
    (hg : ∀ p ∈ h, p.1.noLateSuccess p.2 = true) (hq : u.requests.queue = [])
    (he : u.events.queue = []) (hw : u.Resting) {n : Node} (hn : u.app.focus = some n) :
    ∃ l₁ l₂ ev, u.requests.sent = l₁ ++ .expand n.id :: l₂ ∧ (∀ id, .expand id ∉ l₂) ∧
      u.events.sent[l₁.length + 1]? = some ev ∧ u.app.pending = none ∧
      ((∃ why, ev = .failed n.id why) ∧ u.app.expansionFailed = true ∨
        ∃ exp, ev = .expanded n.id exp ∧ u.app.expansionFailed = false ∧
          u.app.callers.map Node.id = exp.callers.map Node.id ∧
          u.app.callees.map Node.id = exp.callees.map Node.id) := by
  have hd : u.Decided := by
    refine hr.guarded (fun _ s => s.Decided) (fun s a => s.noLateSuccess a = true) ?_ ?_ hg
    · exact fun n hn => by cases hn
    · exact fun h s a t hr hd hg hst => decided_step hr hd hg (step_case hst)
  obtain ⟨l₁, l₂, hl, hlast, hd⟩ := hd n hn
  have hrec := answered_at_rest (aligned_of_run hr) hq hw hl
  have hall := Channel.received_of_queue he
  rcases hd with ⟨-, hle⟩ | ⟨j, ev, hj, hgj, hsh, rfl | hle⟩
  · omega
  · refine ⟨l₁, l₂, ev, hl, hlast, hgj, hsh.pending, ?_⟩
    cases ev with
    | failed id why =>
      obtain ⟨rfl, -, hf⟩ := hsh
      exact .inl ⟨⟨why, rfl⟩, by simp [App.expansionFailed, hf, hn]⟩
    | expanded id exp =>
      obtain ⟨rfl, -, hf, hcr, hce⟩ := hsh
      exact .inr ⟨exp, rfl, by simp [App.expansionFailed, hf], hcr, hce⟩
    | _ => cases hsh
  · omega

/-- Enter is pressed again before the seeded event arrives, so that two expansions of the same
node are sent and answered. -/
def seedTwice : List SessionAction :=
  [.announce, .event, .drained, .key ⟨.char 'f', false⟩, .drained, .key ⟨.enter, false⟩,
    .take, .serve, .event, .drained, .key ⟨.enter, false⟩, .drained, .key ⟨.enter, false⟩,
    .take, .serve, .event, .take, .serve, .event, .take, .serve, .take, .serve, .event, .event]

/-- The server times out on the first of the two expansions. -/
def transientScript : List (Result Value) :=
  [.ok (symbolsAnswer [fItem]), .ok (itemsAnswer [fItem]), .ok (itemsAnswer [fItem]),
    .error (.timeout "callHierarchy/incomingCalls" requestTimeout),
    .ok (callsAnswer "from" [gItem, fItem]), .ok (callsAnswer "to" [fItem])]

/-- The first expansion fails and the last one, of the same node, succeeds: with everything
received, the failure is shown. -/
theorem late_success_is_discarded :
    ∃ h s exp, Run (Steps (step (coreEngine scripted true)))
        (start ⟨.new transientScript, true⟩) h s ∧
      h.map Prod.snd = seedTwice ∧ s.requests.queue = [] ∧ s.events.queue = [] ∧
      s.worker = .idle ∧ s.app.shouldQuit = false ∧
      s.app.focus.map Node.id = some (.fromItem fItem) ∧
      s.requests.sent.getLast? = some (.expand (.fromItem fItem)) ∧
      s.events.sent.length = s.requests.sent.length + 1 ∧
      s.events.sent.getLast? = some (.expanded (.fromItem fItem) exp) ∧
      exp.callers.length = 2 ∧ s.app.expansionFailed = true ∧ s.app.callers = [] := by
  have hr := run_of_exec (step (coreEngine scripted true)) (start ⟨.new transientScript, true⟩)
    seedTwice rfl
  exact ⟨_, _, _, hr, rfl, rfl, rfl, rfl, rfl, rfl, rfl, rfl, rfl, rfl, rfl, rfl⟩

theorem last_expand_decides_recursive :
    ∃ h s n, Run (Steps (step (coreEngine scripted true))) (start ⟨.new sessionScript, true⟩) h s ∧
      h.map Prod.snd = searchSeedExpand ∧ s.app.focus = some n ∧
      ∃ l₁ l₂ ev, s.requests.sent = l₁ ++ .expand n.id :: l₂ ∧ (∀ id, .expand id ∉ l₂) ∧
        s.events.sent[l₁.length + 1]? = some ev ∧ s.app.pending = none ∧
        ((∃ why, ev = .failed n.id why) ∧ s.app.expansionFailed = true ∨
          ∃ exp, ev = .expanded n.id exp ∧ s.app.expansionFailed = false ∧
            s.app.callers.map Node.id = exp.callers.map Node.id ∧
            s.app.callees.map Node.id = exp.callees.map Node.id) := by
  have hr := run_of_exec (step (coreEngine scripted true)) (start ⟨.new sessionScript, true⟩)
    searchSeedExpand rfl
  exact ⟨_, _, _, hr, rfl, rfl, last_expand_decides hr (by decide) rfl rfl trivial rfl⟩

end Session

end LspGraph
