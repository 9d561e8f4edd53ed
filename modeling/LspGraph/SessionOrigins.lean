import LspGraph.Breadcrumb
import LspGraph.SampleHost
import LspGraph.SessionEngine
import LspGraph.SessionView

/-! Where everything that a session shows comes from: every node goes back, by answers of the
server, to a match that a search found, and the path at the top of the screen tells how. -/
namespace LspGraph
open Runs

/-- A seed that resolves takes the first item the server prepares. -/
theorem Engine.seed_ok {S : Type*} {host : Host S} {e : Engine S} {cand : NamedCallable}
    {id : NodeId} (h : (e.seed host cand).1 = .ok (some id)) :
    ∃ path item items, host.toFilePath cand.uri = some path ∧
      (prepareCallHierarchy host path cand.position e.server).1 = .ok (item :: items) ∧
      id = .fromItem item := by
  unfold seed at h
  cases hp : host.toFilePath cand.uri with
  | none =>
    rw [hp] at h
    cases h
  | some path =>
    rw [hp] at h
    dsimp only at h
    refine ⟨path, ?_⟩
    generalize prepareCallHierarchy host path cand.position e.server = p at h ⊢
    obtain ⟨err | items, s⟩ := p
    · cases err <;> cases h
    · cases items with
      | nil => cases h
      | cons item items =>
        exact ⟨item, items, rfl, rfl, (Option.some.inj (Except.ok.inj h)).symm⟩

namespace Session

variable {S : Type*} (host : Host S) (supported : Bool)

/-- A search that the worker has served found the match. -/
def Found (h : History (CoreEngine S)) (m : SymbolMatch) : Prop :=
  ∃ s₁ query ms, (s₁, .serve) ∈ h ∧ s₁.worker = .serving (.search query) ∧
    (workspaceSymbols host supported query s₁.engine.engine.server).1 = .ok ms ∧ m ∈ ms

/-- The worker has seeded a match that was found, and the server prepared the item of this id for
the place of the match. -/
def Prepared (h : History (CoreEngine S)) (id : NodeId) : Prop :=
  ∃ s₁ m path item items, Found host supported h m ∧ (s₁, .serve) ∈ h ∧
    s₁.worker = .serving (.seed m) ∧ host.toFilePath m.uri = some path ∧
    (prepareCallHierarchy host path m.position s₁.engine.engine.server).1 = .ok (item :: items) ∧
    id = .fromItem item

/-- The server listed the second id among the callers or the callees of the first. -/
def Linked (h : History (CoreEngine S)) (id id' : NodeId) : Prop :=
  ∃ exp, ServerAnswered host h id exp ∧ (id' ∈ exp.callers ∨ id' ∈ exp.callees)

/-- What goes back to a match that was found. -/
inductive Traceable (h : History (CoreEngine S)) : NodeId → Prop where
  | prepared {id : NodeId} : Prepared host supported h id → Traceable h id
  | linked {id id' : NodeId} : Traceable h id → Linked host h id id' → Traceable h id'

/-- One node of the path behind the other: listed for it, or seeded while it was in focus. -/
def Leads (h : History (CoreEngine S)) (n n' : Node) : Prop :=
  Linked host h n.id n'.id ∨ Prepared host supported h n'.id

/-- Where the matches, the path and the panes come from. -/
structure Rooted (h : History (CoreEngine S)) (s : Session (CoreEngine S)) : Prop where
  found : ∀ m ∈ s.app.matchList, Found host supported h m
  chosen : ∀ m, .seed m ∈ s.requests.sent → Found host supported h m
  first : ∀ n, s.app.trail.head? = some n → Prepared host supported h n.id
  path : s.app.trail.IsChain (Leads host supported h)
  listed : ∀ f, s.app.focus = some f → ∀ n ∈ s.app.callers ++ s.app.callees,
    Linked host h f.id n.id

variable {host supported} {s t : Session (CoreEngine S)} {h : History (CoreEngine S)}

theorem Found.snoc {m : SymbolMatch} (hf : Found host supported h m)
    (p : Session (CoreEngine S) × SessionAction) : Found host supported (h ++ [p]) m := by
  obtain ⟨s₁, query, ms, hm, hfound⟩ := hf
  exact ⟨s₁, query, ms, List.mem_append_left _ hm, hfound⟩

theorem Prepared.snoc {id : NodeId} (hp : Prepared host supported h id)
    (p : Session (CoreEngine S) × SessionAction) : Prepared host supported (h ++ [p]) id := by
  obtain ⟨s₁, m, path, item, items, hf, hm, hprepared⟩ := hp
  exact ⟨s₁, m, path, item, items, hf.snoc p, List.mem_append_left _ hm, hprepared⟩

theorem Linked.snoc {id id' : NodeId} (hl : Linked host h id id')
    (p : Session (CoreEngine S) × SessionAction) : Linked host (h ++ [p]) id id' := by
  obtain ⟨exp, ha, hm⟩ := hl
  exact ⟨exp, ha.snoc p, hm⟩

theorem Leads.snoc {n n' : Node} (hl : Leads host supported h n n')
    (p : Session (CoreEngine S) × SessionAction) : Leads host supported (h ++ [p]) n n' :=
  hl.imp (·.snoc p) (·.snoc p)

/-- A step that leaves the path and the panes, and adds no match. -/
theorem Rooted.keep (hro : Rooted host supported h s) (p : Session (CoreEngine S) × SessionAction)
    (hfound : ∀ m ∈ t.app.matchList, Found host supported (h ++ [p]) m)
    (hchosen : ∀ m, .seed m ∈ t.requests.sent → .seed m ∈ s.requests.sent)
    (htrail : t.app.trail = s.app.trail) (hfocus : t.app.focus = s.app.focus)
    (hpanes : t.app.callers ++ t.app.callees = s.app.callers ++ s.app.callees) :
    Rooted host supported (h ++ [p]) t where
  found := hfound
  chosen m hm := (hro.chosen m (hchosen m hm)).snoc p
  first n hn := (hro.first n (htrail ▸ hn)).snoc p
  path := htrail ▸ hro.path.imp fun _ _ hl => hl.snoc p
  listed f hf n hn := (hro.listed f (hfocus ▸ hf) n (hpanes ▸ hn)).snoc p

/-- What is sent for a request answers it, unless the request was for a restart. -/
theorem answers_of_mem {σ : Type*} (ops : EngineOps σ) {engine : σ} {r : Request} {ev : Event}
    (hm : ev ∈ (serveRequest ops engine r).1) : r = .restart ∨ Answers r ev := by
  cases hend : r.ends with
  | false =>
    obtain ⟨ev', engine', he, hans⟩ := serveRequest_answers ops engine r hend
    rw [he] at hm
    rw [List.mem_singleton.mp hm]
    exact .inr hans
  | true =>
    cases r with
    | restart => exact .inl rfl
    | shutdown => cases hm
    | _ => cases hend

section Served

variable {server : S} {canSearch : Bool}
  (hr : Run (Steps (step (coreEngine host supported))) (start ⟨.new server, canSearch⟩) h s)

include hr

/-- A match that is received was found by a search. -/
theorem found_of_matched {ms : List SymbolMatch} {c : Channel Event}
    (hc : s.events.receive = some (.matched ms, c)) : ∀ m ∈ ms, Found host supported h m := by
  intro m hm
  rcases received_of_run hr hc with ⟨b, hb⟩ | ⟨i, s₁, r, -, hserve, hw, -, hev⟩
  · cases hb
  rcases answers_of_mem _ hev with rfl | hans
  · cases List.mem_singleton.mp hev
  cases r with
  | search query =>
    refine ⟨s₁, query, ms, hserve, hw, ?_, hm⟩
    have hev := List.mem_singleton.mp hev
    change Event.matched ms = searchEvent (workspaceSymbols host supported query
      s₁.engine.engine.server).1 at hev
    generalize (workspaceSymbols host supported query s₁.engine.engine.server).1 = result at hev ⊢
    cases result with
    | error e => cases hev
    | ok found => rw [Event.matched.inj hev]
  | _ => exact hans.elim

/-- A seeded node that is received was prepared for a match that was found. -/
theorem prepared_of_seeded (hro : Rooted host supported h s) {node : Node} {c : Channel Event}
    (hc : s.events.receive = some (.seeded (some node), c)) :
    Prepared host supported h node.id := by
  rcases received_of_run hr hc with ⟨b, hb⟩ | ⟨i, s₁, r, -, hserve, hw, hsent, hev⟩
  · cases hb
  rcases answers_of_mem _ hev with rfl | hans
  · cases List.mem_singleton.mp hev
  cases r with
  | seed m =>
    have hfound := hro.chosen m (List.mem_of_getElem? hsent)
    obtain ⟨h₁, h₂, hsplit⟩ := List.append_of_mem hserve
    have hinv := (traced_of_run (hsplit ▸ hr).split.1).inv.seed host (.ofMatch m)
    have hev := List.mem_singleton.mp hev
    change Event.seeded (some node) = seedEvent (coreEngine host supported)
      ⟨(s₁.engine.engine.seed host (.ofMatch m)).2, s₁.engine.canSearch⟩
      (s₁.engine.engine.seed host (.ofMatch m)).1 at hev
    cases hres : (s₁.engine.engine.seed host (.ofMatch m)).1 with
    | error e =>
      rw [hres] at hev
      cases hev
    | ok id =>
      rw [hres] at hev
      cases id with
      | none => cases hev
      | some id =>
        have hnode := Option.some.inj (Event.seeded.inj hev)
        obtain ⟨path, item, items, hpath, hitems, hid⟩ := Engine.seed_ok hres
        refine ⟨s₁, m, path, item, items, hfound, hserve, hw, hpath, hitems, ?_⟩
        rw [hnode, resolve_id host supported hinv]
        exact hid
  | _ => exact hans.elim

/-- An expansion that is received was answered by the server. -/
theorem linked_of_expanded {id : NodeId} {exp : ResolvedExpansion} {c : Channel Event}
    (hc : s.events.receive = some (.expanded id exp, c)) :
    ∀ n ∈ exp.callers ++ exp.callees, Linked host h id n.id := by
  have htr := traced_of_run hr
  have hsent := List.mem_of_getElem? (Channel.receive_some hc).2.2
  intro n hn
  refine ⟨exp.ids, htr.answered id _ (htr.expanded id exp hsent), ?_⟩
  exact (List.mem_append.mp hn).imp List.mem_map_of_mem List.mem_map_of_mem

end Served

/-- On the graph screen there is a focus, and it is what the interface waits for and lists the
neighbours of. -/
theorem focus_of_run {σ : Type*} {ops : EngineOps σ} {engine : σ} {s : Session σ} {h : History σ}
    (hr : Run (Steps (step ops)) (start engine) h s) :
    (s.app.screen = .graph → ∃ f, s.app.focus = some f) ∧
      (∀ id, s.app.pending = some id → ∃ f, s.app.focus = some f ∧ f.id = id) ∧
      ∀ n ∈ s.app.callers ++ s.app.callees, ∃ f, s.app.focus = some f := by
  obtain ⟨b, hb⟩ := browser_of_run hr
  rw [hb]
  refine ⟨?_, ?_, ?_⟩
  · intro hg
    obtain ⟨front, canSearch, query, results, pane, error, quit⟩ := b
    cases front with
    | graph o => exact ⟨o.focus, rfl⟩
    | _ => cases hg
  · intro id hid
    obtain ⟨o, ho, -, hf⟩ := Front.focusIf_eq_some_iff.mp hid
    refine ⟨o.focus, ?_, hf⟩
    change b.front.opened.map Browsed.focus = some o.focus
    rw [ho, Option.map_some]
  · intro n hn
    change n ∈ (b.front.side .callers).items ++ (b.front.side .callees).items at hn
    change ∃ f, b.front.opened.map Browsed.focus = some f
    cases ho : b.front.opened with
    | some o => exact ⟨o.focus, rfl⟩
    | none =>
      have hempty (p : Pane) : b.front.side p = .ofList [] := by
        rw [Front.side, ho]
        rfl
      rw [hempty, hempty] at hn
      cases hn

/-- With a node that has just come into focus the panes are empty. -/
theorem rooted_focusOn {a : App} {node : Node} (ht : t.app = (a.focusOn node).2)
    (hfound : ∀ m ∈ t.app.matchList, Found host supported h m)
    (hchosen : ∀ m, .seed m ∈ t.requests.sent → Found host supported h m)
    (hfirst : ∀ n, (a.history ++ [node]).head? = some n → Prepared host supported h n.id)
    (hpath : (a.history ++ [node]).IsChain (Leads host supported h)) :
    Rooted host supported h t := by
  have htrail : t.app.trail = a.history ++ [node] := by
    rw [ht]
    rfl
  have hpanes : t.app.callers ++ t.app.callees = [] := by
    rw [ht]
    rfl
  refine ⟨hfound, hchosen, htrail ▸ hfirst, htrail ▸ hpath, fun f _ n hn => ?_⟩
  rw [hpanes] at hn
  cases hn

theorem rooted_event {server : S} {canSearch : Bool} {ev : Event} {c : Channel Event}
    {reqs : List Request} {app : App}
    (hr : Run (Steps (step (coreEngine host supported))) (start ⟨.new server, canSearch⟩) h s)
    (hro : Rooted host supported h s) (hc : s.events.receive = some (ev, c))
    (he : EventCase s.app ev reqs app) :
    Rooted host supported (h ++ [(s, .event)])
      { s with app := app, events := c, requests := s.requests.send reqs } := by
  have hfound : ∀ m ∈ s.app.matchList, Found host supported (h ++ [(s, .event)]) m :=
    fun m hm => (hro.found m hm).snoc _
  have hseeds : ∀ m, .seed m ∈ s.requests.sent ++ reqs → .seed m ∈ s.requests.sent := by
    intro m hm
    refine (List.mem_append.mp hm).resolve_right fun hm => ?_
    cases he with
    | focused node => cases List.mem_singleton.mp hm
    | _ => cases hm
  cases he with
  | matched ms =>
    exact hro.keep _ (fun m hm => (found_of_matched hr hc m hm).snoc _) hseeds rfl rfl rfl
  | focused node =>
    have hprep := (prepared_of_seeded hr hro hc).snoc (s, .event)
    refine rooted_focusOn rfl hfound (fun m hm => (hro.chosen m (hseeds m hm)).snoc _) ?_ ?_
    · -- behind an older path the first node stays
      intro n hn
      rcases Option.or_eq_some_iff.mp (List.head?_append.symm.trans hn) with hn | ⟨-, hn⟩
      · have hfirst : s.app.trail.head? = some n := by
          rw [App.trail, List.head?_append, show s.app.history.head? = some n from hn]
          rfl
        exact (hro.first n hfirst).snoc _
      · obtain rfl : node = n := Option.some.inj hn
        exact hprep
    · have hold := (hro.path.imp fun _ _ hl => hl.snoc (s, .event)).left_of_append
      refine hold.append (List.isChain_singleton node) fun m _ n hn => ?_
      obtain rfl := Option.some.inj hn
      exact .inr hprep
  | expanded id exp hp =>
    obtain ⟨f, hf, hid⟩ := (focus_of_run hr).2.1 id hp
    have hlinked := linked_of_expanded hr hc
    refine ⟨hfound, fun m hm => (hro.chosen m (hseeds m hm)).snoc _,
      fun n hn => (hro.first n hn).snoc _, hro.path.imp fun _ _ hl => hl.snoc _, ?_⟩
    intro f' hf' n hn
    obtain rfl := Option.some.inj (hf.symm.trans hf')
    rw [hid]
    exact (hlinked n hn).snoc _
  | _ => exact hro.keep _ hfound hseeds rfl rfl rfl

theorem rooted_key {server : S} {canSearch : Bool} {a : SessionAction} {reqs tail : List Request}
    {app : App} {loop : LoopState}
    (hr : Run (Steps (step (coreEngine host supported))) (start ⟨.new server, canSearch⟩) h s)
    (hro : Rooted host supported h s) (hk : KeyCase s.app reqs app)
    (htail : tail = [] ∧ loop = .draining ∨ tail = [.shutdown] ∧ loop = .left) :
    Rooted host supported (h ++ [(s, a)])
      { s with app := app, requests := s.requests.send (reqs ++ tail), loop := loop } := by
  have hfound : ∀ m ∈ s.app.matchList, Found host supported (h ++ [(s, a)]) m :=
    fun m hm => (hro.found m hm).snoc _
  have hshown : ∀ m ∈ app.matchList, Found host supported (h ++ [(s, a)]) m := by
    rcases hk.matchList with ⟨-, hl⟩ | ⟨-, hl, -⟩
    · rw [hl]
      simp
    · rw [hl]
      exact hfound
  -- only a match of the list is chosen
  have hchosen : ∀ m, .seed m ∈ s.requests.sent ++ (reqs ++ tail) →
      Found host supported (h ++ [(s, a)]) m := by
    intro m hm
    rcases List.mem_append.mp hm with hm | hm
    · exact (hro.chosen m hm).snoc _
    · rcases List.mem_append.mp hm with hm | hm
      · exact hfound m (hk.mem_matchList hm)
      · rcases htail with ⟨rfl, -⟩ | ⟨rfl, -⟩ <;> simp at hm
  have hpath := hro.path.imp fun _ _ hl => hl.snoc (s, a)
  have hfirst : ∀ n, s.app.trail.head? = some n → Prepared host supported (h ++ [(s, a)]) n.id :=
    fun n hn => (hro.first n hn).snoc _
  cases hk with
  | recentred next hn hg =>
    obtain ⟨f, hf⟩ := (focus_of_run hr).1 hg
    refine rooted_focusOn rfl hshown hchosen (fun n hn => ?_) ?_
    · -- the path goes on from the focus, so that its first node stays
      obtain ⟨first, hhead⟩ : ∃ first, s.app.trail.head? = some first := by
        rw [App.trail, hf]
        cases s.app.history <;> exact ⟨_, rfl⟩
      have hhead' : (s.app.trail ++ [next]).head? = some first := by
        rw [List.head?_append, hhead, Option.some_or]
      exact hfirst n (hhead.trans (hhead'.symm.trans hn))
    · refine hpath.append (List.isChain_singleton next) fun m hm n hn' => ?_
      obtain rfl := Option.some.inj hn'
      have hlast : s.app.trail.getLast? = some f := by
        rw [App.trail, hf, Option.toList_some, List.getLast?_concat]
      obtain rfl := Option.some.inj (hlast.symm.trans hm)
      exact .inl ((hro.listed f hf next (List.mem_append.mpr hn)).snoc _)
  | wentBack init prev hh hg =>
    have hback : s.app.trail = (init ++ [prev]) ++ s.app.focus.toList := by
      rw [App.trail, hh]
    rw [hback] at hpath hfirst
    refine rooted_focusOn rfl hshown hchosen (fun n hn => hfirst n ?_) hpath.left_of_append
    rw [List.head?_append, show (init ++ [prev]).head? = some n from hn, Option.some_or]
  | _ =>
    refine ⟨hshown, hchosen, hfirst, hpath, fun f hf n hn => (hro.listed f hf n hn).snoc _⟩

theorem rooted_step {server : S} {canSearch : Bool} {a : SessionAction}
    (hr : Run (Steps (step (coreEngine host supported))) (start ⟨.new server, canSearch⟩) h s)
    (hro : Rooted host supported h s) (hst : StepCase (coreEngine host supported) s a t) :
    Rooted host supported (h ++ [(s, a)]) t := by
  have hfound : ∀ m ∈ s.app.matchList, Found host supported (h ++ [(s, a)]) m :=
    fun m hm => (hro.found m hm).snoc _
  cases hst with
  | take r c hw hc =>
    obtain ⟨hs, -, -⟩ := Channel.receive_some hc
    exact hro.keep _ hfound (fun m hm => hs ▸ hm) rfl rfl rfl
  | event ev c reqs app hl hc he => exact rooted_event hr hro hc he
  | key a reqs app tail loop ha hk htail => exact rooted_key hr hro hk htail
  | _ => exact hro.keep _ hfound (fun _ hm => hm) rfl rfl rfl

theorem rooted_of_run {server : S} {canSearch : Bool}
    (hr : Run (Steps (step (coreEngine host supported))) (start ⟨.new server, canSearch⟩) h s) :
    Rooted host supported h s := by
  refine hr.induct (Rooted host supported) ?_ ?_
  · refine ⟨fun m hm => (by cases hm), fun m hm => (by cases hm), fun n hn => (by cases hn), .nil,
      fun f hf => (by cases hf)⟩
  · exact fun h s a t hr hro hst => rooted_step hr hro (step_case hst)

/-- Along a path every node goes back to a match, since the first one does. -/
theorem Rooted.traceable (hro : Rooted host supported h s) :
    ∀ n ∈ s.app.trail, Traceable host supported h n.id := by
  refine hro.path.induction (fun n => Traceable host supported h n.id) _ ?_ fun hne => ?_
  · rintro n n' (hl | hp) hn
    · exact .linked hn hl
    · exact .prepared hp
  · exact .prepared (hro.first _ (List.head?_eq_some_head hne))

/-- Nothing on the screen is made up: in every session, whatever the server answers and whichever
of its answers fail, the path at the top begins with a symbol that the server prepared for a match
of a search; every other node of it was listed by the server for the node before, or is such a
symbol itself; the panes hold what the server listed for the focus; and so every node that the
interface holds goes back to a match that a search found. -/
theorem nothing_shown_is_made_up {server : S} {canSearch : Bool}
    (hr : Run (Steps (step (coreEngine host supported))) (start ⟨.new server, canSearch⟩) h s) :
    (∀ n, s.app.trail.head? = some n → Prepared host supported h n.id) ∧
      s.app.trail.IsChain (Leads host supported h) ∧
      (∀ f, s.app.focus = some f → ∀ n ∈ s.app.callers ++ s.app.callees,
        Linked host h f.id n.id) ∧
      ∀ n ∈ s.app.nodes, Traceable host supported h n.id := by
  have hro := rooted_of_run hr
  refine ⟨hro.first, hro.path, hro.listed, fun n hn => ?_⟩
  have hon := hro.traceable
  have hpath : s.app.trail = s.app.history ++ s.app.focus.toList := rfl
  rcases List.mem_append.mp hn with hn | hn
  · refine hon n ?_
    rw [hpath]
    exact List.mem_append.mpr (List.mem_append.mp hn).symm
  · obtain ⟨f, hf⟩ := (focus_of_run hr).2.2 n hn
    have hshown : f ∈ s.app.trail := by
      rw [hpath, hf]
      simp
    exact .linked (hon f hshown) (hro.listed f hf n hn)

/-- `f` is found, seeded and expanded, and left for its caller `g`. -/
theorem nothing_shown_is_made_up_recentred :
    ∃ h s, Run (Steps (step (coreEngine scripted true))) (start ⟨.new sessionScript, true⟩) h s ∧
      s.app.trail.map (fun n => n.id.name) = ["f", "g"] ∧
      s.app.trail.IsChain (Leads scripted true h) ∧
      ∀ n ∈ s.app.nodes, Traceable scripted true h n.id := by
  have hr := run_of_exec (step (coreEngine scripted true)) (start ⟨.new sessionScript, true⟩)
    (searchSeedExpand ++ [.drained, .key ⟨.enter, false⟩]) rfl
  obtain ⟨-, hpath, -, htraceable⟩ := nothing_shown_is_made_up hr
  exact ⟨_, _, hr, rfl, hpath, htraceable⟩

end Session

end LspGraph
