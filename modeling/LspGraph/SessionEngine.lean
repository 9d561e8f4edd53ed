import LspGraph.EngineGrowth
import LspGraph.SessionAnswers

/-! The real engine in a session: every id that travels has an item, and every expansion that
travels is in the engine's memo and was answered by the server. -/
namespace LspGraph
open Runs

def ResolvedExpansion.ids (exp : ResolvedExpansion) : Expansion :=
  ⟨exp.callers.map Node.id, exp.callees.map Node.id⟩

/-- The nodes an event carries. -/
def Event.nodes : Event → List Node
  | .seeded node => node.toList
  | .expanded _ exp => exp.callers ++ exp.callees
  | _ => []

/-- The nodes the interface holds. -/
def App.nodes (a : App) : List Node := a.focus.toList ++ a.history ++ (a.callers ++ a.callees)

theorem EventCase.nodes {a a' : App} {ev : Event} {reqs : List Request}
    (he : EventCase a ev reqs a') {n : Node} (h : n ∈ a'.nodes) : n ∈ a.nodes ∨ n ∈ ev.nodes := by
  cases he with
  | focused node =>
    have h : n ∈ [node] ++ a.history ++ ([] ++ []) := h
    simp only [App.nodes, Event.nodes, Option.toList_some, List.mem_append] at h ⊢
    tauto
  | expanded id exp =>
    simp only [App.nodes, Event.nodes, List.mem_append] at h ⊢
    tauto
  | _ => exact .inl h

theorem EventCase.expand {a a' : App} {ev : Event} {reqs : List Request}
    (he : EventCase a ev reqs a') {id : NodeId} (h : .expand id ∈ reqs) :
    ∃ n ∈ ev.nodes, n.id = id := by
  cases he with
  | focused node =>
    have hid := Request.expand.inj (List.mem_singleton.mp h)
    exact ⟨node, by simp [Event.nodes], hid.symm⟩
  | _ => cases h

theorem KeyCase.nodes {a a' : App} {reqs : List Request} (hk : KeyCase a reqs a') {n : Node}
    (h : n ∈ a'.nodes) : n ∈ a.nodes := by
  cases hk with
  | recentred next hn =>
    have h : n ∈ [next] ++ (a.history ++ a.focus.toList) ++ ([] ++ []) := h
    simp only [List.mem_append, List.mem_singleton, List.append_nil] at h
    simp only [App.nodes, List.mem_append]
    rcases h with rfl | h | h
    · exact .inr hn
    · exact .inl (.inr h)
    · exact .inl (.inl h)
  | wentBack init prev hh =>
    have h : n ∈ [prev] ++ init ++ ([] ++ []) := h
    simp only [List.mem_append, List.mem_singleton, List.append_nil] at h
    simp only [App.nodes, List.mem_append, hh, List.mem_singleton]
    tauto
  | _ => exact h

theorem KeyCase.expand {a a' : App} {reqs : List Request} (hk : KeyCase a reqs a') {id : NodeId}
    (h : .expand id ∈ reqs) : ∃ n ∈ a.nodes, n.id = id := by
  cases hk with
  | recentred next hn =>
    refine ⟨next, ?_, (Request.expand.inj (List.mem_singleton.mp h)).symm⟩
    simp [App.nodes, hn]
  | wentBack init prev hh =>
    refine ⟨prev, ?_, (Request.expand.inj (List.mem_singleton.mp h)).symm⟩
    simp [App.nodes, hh]
  | _ => simp at h

variable {S : Type*} (host : Host S) (supported : Bool)

/-- What serving a request does to the engine, and what the events sent for it say of it. -/
structure Served (c : CoreEngine S) (r : Request) (evs : List Event) (c' : CoreEngine S) :
    Prop where
  inv : c'.engine.Inv
  items : ∀ k ∈ c.engine.items, k ∈ c'.engine.items
  memo : ∀ k exp, c'.engine.graph.Memoized k exp ↔
    c.engine.graph.Memoized k exp ∨ r = .expand k ∧ c.engine.Asked host k exp
  mentioned : ∀ ev ∈ evs, ∀ n ∈ ev.nodes, n.id ∈ c'.engine.items
  expanded : ∀ id exp, .expanded id exp ∈ evs → c'.engine.graph.Memoized id exp.ids
  failed : ∀ id why, .failed id why ∈ evs → ∀ exp, ¬c.engine.graph.Memoized id exp

theorem resolve_id {c : CoreEngine S} (h : c.engine.Inv) (id : NodeId) :
    (resolve (coreEngine host supported) c id).id = id := by
  unfold resolve
  change ((c.engine.graph.get id).getD _).id = id
  cases hn : c.engine.graph.get id with
  | none => rfl
  | some n => exact h.keyed id n hn

theorem map_resolve_id {c : CoreEngine S} (h : c.engine.Inv) (ids : List NodeId) :
    (ids.map (resolve (coreEngine host supported) c)).map Node.id = ids := by
  have hid : Node.id ∘ resolve (coreEngine host supported) c = id :=
    funext (resolve_id host supported h)
  rw [List.map_map, hid, List.map_id]

/-- A request that leaves the maps alone is answered by an event without nodes. -/
theorem served_mute {c c' : CoreEngine S} {r : Request} {evs : List Event}
    (h : c'.engine.Inv) (hg : c'.engine.graph = c.engine.graph)
    (hi : c'.engine.items = c.engine.items) (hr : ∀ id, r ≠ .expand id)
    (hn : ∀ ev ∈ evs, ev.nodes = []) (hx : ∀ id exp, .expanded id exp ∉ evs)
    (hf : ∀ id why, .failed id why ∉ evs) : Served host c r evs c' where
  inv := h
  items k hk := hi ▸ hk
  memo k exp := by
    rw [hg]
    exact ⟨.inl, fun hm => hm.elim (fun hm => hm) fun hm => absurd hm.1 (hr k)⟩
  mentioned ev hev n hm := by
    rw [hn ev hev] at hm
    cases hm
  expanded id exp hm := absurd hm (hx id exp)
  failed id why hm := absurd hm (hf id why)

theorem served_seed {c : CoreEngine S} (h : c.engine.Inv) (m : SymbolMatch) :
    Served host c (.seed m) (serveRequest (coreEngine host supported) c (.seed m)).1
      (serveRequest (coreEngine host supported) c (.seed m)).2.2 := by
  have hinv := h.seed host (.ofMatch m)
  have hmem := Engine.mem_items_seed host (e := c.engine) (.ofMatch m)
  have hmemo := Engine.memoized_seed host (e := c.engine) (.ofMatch m)
  change Served host c (.seed m)
    [seedEvent (coreEngine host supported) ⟨(c.engine.seed host (.ofMatch m)).2, c.canSearch⟩
      (c.engine.seed host (.ofMatch m)).1]
    ⟨(c.engine.seed host (.ofMatch m)).2, c.canSearch⟩
  generalize c.engine.seed host (.ofMatch m) = p at hinv hmem hmemo ⊢
  obtain ⟨result, e⟩ := p
  refine ⟨hinv, fun k hk => (hmem k).mpr (.inr hk), ?_, ?_, ?_, ?_⟩
  · exact fun k exp => (hmemo k exp).trans (by simp)
  · rcases result with err | id
    · simp [seedEvent, Event.nodes]
    · have hid := resolve_id host supported (c := ⟨e, c.canSearch⟩) hinv
      intro ev hev n hn
      rw [List.mem_singleton.mp hev] at hn
      cases id with
      | none => cases hn
      | some id =>
        obtain rfl := List.mem_singleton.mp hn
        rw [hid]
        exact (hmem id).mpr (.inl (List.mem_singleton.mpr rfl))
  · intro id exp hm
    cases result <;> simp [seedEvent] at hm
  · intro id why hm
    cases result <;> simp [seedEvent] at hm

theorem served_expand {c : CoreEngine S} (h : c.engine.Inv) {id : NodeId}
    (hk : id ∈ c.engine.items) :
    Served host c (.expand id) (serveRequest (coreEngine host supported) c (.expand id)).1
      (serveRequest (coreEngine host supported) c (.expand id)).2.2 := by
  have hinv := h.expand host id
  have hmem := h.mem_items_expand host id
  have hmemo := h.memoized_expand host id
  have hok (exp : Expansion) : (c.engine.expand host id).1 = .ok exp → _ :=
    h.memoized_of_expand host hk
  have herr (err : Error) : (c.engine.expand host id).1 = .error err → _ :=
    Engine.not_memoized_of_expand host
  change Served host c (.expand id)
    [expandEvent (coreEngine host supported) ⟨(c.engine.expand host id).2, c.canSearch⟩ id
      (c.engine.expand host id).1]
    ⟨(c.engine.expand host id).2, c.canSearch⟩
  generalize c.engine.expand host id = p at hinv hmem hmemo hok herr ⊢
  obtain ⟨result, e⟩ := p
  have hids := map_resolve_id host supported (c := ⟨e, c.canSearch⟩) hinv
  refine ⟨hinv, fun k hk => (hmem k).mpr (.inr hk), ?_, ?_, ?_, ?_⟩
  · intro k exp
    refine (hmemo k exp).trans (or_congr_right ⟨?_, ?_⟩)
    · rintro ⟨rfl, ha⟩
      exact ⟨rfl, ha⟩
    · rintro ⟨hk, ha⟩
      obtain rfl := Request.expand.inj hk
      exact ⟨rfl, ha⟩
  · rcases result with err | exp
    · simp [expandEvent, Event.nodes]
    · intro ev hev n hn
      rw [List.mem_singleton.mp hev] at hn
      have hin : n.id ∈ exp.callers ++ exp.callees := by
        rw [← hids exp.callers, ← hids exp.callees, ← List.map_append]
        exact List.mem_map_of_mem hn
      exact (hmem n.id).mpr (.inl hin)
  · intro id' exp hm
    rcases result with err | exp'
    · simp [expandEvent] at hm
    · obtain ⟨rfl, rfl⟩ := Event.expanded.inj (List.mem_singleton.mp hm)
      have hexp : ResolvedExpansion.ids
          ⟨exp'.callers.map (resolve (coreEngine host supported) ⟨e, c.canSearch⟩),
            exp'.callees.map (resolve (coreEngine host supported) ⟨e, c.canSearch⟩)⟩ = exp' := by
        unfold ResolvedExpansion.ids
        rw [hids, hids]
      rw [hexp]
      exact hok exp' rfl
  · intro id' why hm
    rcases result with err | exp
    · obtain ⟨rfl, -⟩ := Event.failed.inj (List.mem_singleton.mp hm)
      exact herr err rfl
    · simp [expandEvent] at hm

theorem served_core {c : CoreEngine S} (h : c.engine.Inv) {r : Request}
    (hk : ∀ id, r = .expand id → id ∈ c.engine.items) :
    Served host c r (serveRequest (coreEngine host supported) c r).1
      (serveRequest (coreEngine host supported) c r).2.2 := by
  cases r with
  | search query =>
    refine served_mute host (h.talk _ _) rfl rfl (by simp) ?_ ?_ ?_
    all_goals
      simp only [serveRequest, List.mem_singleton]
      generalize ((coreEngine host supported).search query c).1 = result
      cases result <;> simp [searchEvent, Event.nodes]
  | seed m => exact served_seed host supported h m
  | expand id => exact served_expand host supported h (hk id rfl)
  | restart => refine served_mute host h rfl rfl ?_ ?_ ?_ ?_ <;> simp [serveRequest, Event.nodes]
  | shutdown => refine served_mute host h rfl rfl ?_ ?_ ?_ ?_ <;> simp [serveRequest]

namespace Session

/-- The worker has served an expansion of the id by asking the server, with this result. -/
def ServerAnswered (h : History (CoreEngine S)) (id : NodeId) (exp : Expansion) : Prop :=
  ∃ s₁, (s₁, .serve) ∈ h ∧ s₁.worker = .serving (.expand id) ∧ s₁.engine.engine.Asked host id exp

/-- What the logs and the interface say is what the engine remembers, and what the engine
remembers is what the server answered. -/
structure Traced (h : History (CoreEngine S)) (s : Session (CoreEngine S)) : Prop where
  inv : s.engine.engine.Inv
  answered : ∀ id exp, s.engine.engine.graph.Memoized id exp → ServerAnswered host h id exp
  requested : ∀ id, .expand id ∈ s.requests.sent → id ∈ s.engine.engine.items
  mentioned : ∀ ev ∈ s.events.sent, ∀ n ∈ ev.nodes, n.id ∈ s.engine.engine.items
  held : ∀ n ∈ s.app.nodes, n.id ∈ s.engine.engine.items
  expanded : ∀ id exp, .expanded id exp ∈ s.events.sent →
    s.engine.engine.graph.Memoized id exp.ids
  /-- No failure comes behind a success. -/
  lasting : ∀ (i j : ℕ) id exp why, s.events.sent[i]? = some (.expanded id exp) →
    s.events.sent[j]? = some (.failed id why) → j < i

variable {host supported} {s t : Session (CoreEngine S)} {h : History (CoreEngine S)}

theorem traced_start (server : S) (canSearch : Bool) :
    Traced host [] (start ⟨.new server, canSearch⟩) where
  inv := Engine.inv_new server
  answered id exp hm := absurd hm.expanded (by simp [start, Engine.new, CallGraph.new,
    CallGraph.stateOf, CallGraph.get])
  requested id hm := by cases hm
  mentioned ev hm := by cases hm
  held n hm := by cases hm
  expanded id exp hm := by cases hm
  lasting i j id exp why hi := by simp [start, Channel.empty] at hi

/-- A node that fails was not in the memo, so that no success of it was sent before. -/
theorem lasting_serve {r : Request} {evs : List Event} {c' : CoreEngine S}
    (htr : Traced host h s)
    (hsv : Served host s.engine r evs c') (hone : evs.length ≤ 1) (i j : ℕ) (id : NodeId)
    (exp : ResolvedExpansion) (why : String)
    (hi : (s.events.sent ++ evs)[i]? = some (.expanded id exp))
    (hj : (s.events.sent ++ evs)[j]? = some (.failed id why)) : j < i := by
  rcases lt_or_ge j s.events.sent.length with hjl | hjl
  · rcases lt_or_ge i s.events.sent.length with hil | hil
    · rw [List.getElem?_append_left hil] at hi
      rw [List.getElem?_append_left hjl] at hj
      exact htr.lasting i j id exp why hi hj
    · omega
  · rw [List.getElem?_append_right hjl] at hj
    rcases lt_or_ge i s.events.sent.length with hil | hil
    · rw [List.getElem?_append_left hil] at hi
      have hm := htr.expanded id exp (List.mem_of_getElem? hi)
      exact absurd hm (hsv.failed id why (List.mem_of_getElem? hj) _)
    · -- both are the one new event
      rw [List.getElem?_append_right hil] at hi
      have hil' := (List.getElem?_eq_some_iff.mp hi).1
      have hjl' := (List.getElem?_eq_some_iff.mp hj).1
      have hij : i - s.events.sent.length = j - s.events.sent.length := by omega
      rw [hij, hj] at hi
      cases hi

theorem ServerAnswered.snoc {id : NodeId} {exp : Expansion} (ha : ServerAnswered host h id exp)
    (p : Session (CoreEngine S) × SessionAction) : ServerAnswered host (h ++ [p]) id exp := by
  obtain ⟨s₁, hm, ha⟩ := ha
  exact ⟨s₁, List.mem_append_left _ hm, ha⟩

/-- A request is served: what is sent, and what is new in the memo, comes from this step. -/
theorem Traced.serve {r : Request} {evs : List Event} {c' : CoreEngine S} {w : WorkerState}
    (htr : Traced host h s) (hw : s.worker = .serving r) (hsv : Served host s.engine r evs c')
    (hone : evs.length ≤ 1) : Traced host (h ++ [(s, .serve)])
      { s with events := s.events.send evs, engine := c', worker := w } where
  inv := hsv.inv
  answered := by
    intro id exp hm
    rcases (hsv.memo id exp).mp hm with hm | ⟨rfl, ha⟩
    · exact (htr.answered id exp hm).snoc _
    · exact ⟨s, by simp, hw, ha⟩
  requested id hm := hsv.items id (htr.requested id hm)
  mentioned := by
    intro ev hev n hn
    rcases List.mem_append.mp hev with hev | hev
    · exact hsv.items _ (htr.mentioned ev hev n hn)
    · exact hsv.mentioned ev hev n hn
  held n hn := hsv.items _ (htr.held n hn)
  expanded := by
    intro id exp hm
    rcases List.mem_append.mp hm with hm | hm
    · exact (hsv.memo id _).mpr (.inl (htr.expanded id exp hm))
    · exact hsv.expanded id exp hm
  lasting := lasting_serve htr hsv hone

theorem traced_step {a : SessionAction} (hal : s.Aligned) (htr : Traced host h s)
    (hst : StepCase (coreEngine host supported) s a t) : Traced host (h ++ [(s, a)]) t := by
  have hans (id : NodeId) (exp : Expansion) (hm : s.engine.engine.graph.Memoized id exp) :
      ServerAnswered host (h ++ [(s, a)]) id exp := (htr.answered id exp hm).snoc _
  cases hst with
  | announce hw =>
    -- the announcement is the first event, and says nothing of the engine
    unfold Aligned at hal
    rw [hw] at hal
    have hsent (ev : Event) (hev : ev ∈ s.events.sent ++ [.ready s.engine.canSearch]) :
        ev = .ready s.engine.canSearch := by
      rw [hal.2] at hev
      exact List.mem_singleton.mp hev
    refine { htr with answered := hans, mentioned := ?_, expanded := ?_, lasting := ?_ }
    · intro ev hev n hn
      rw [hsent ev hev] at hn
      cases hn
    · intro id exp hm
      cases hsent _ hm
    · intro i j id exp why hi
      cases hsent _ (List.mem_of_getElem? hi)
  | take r c hw hc =>
    obtain ⟨hs, -, -⟩ := Channel.receive_some hc
    exact { htr with answered := hans, requested := fun id hm => htr.requested id (hs ▸ hm) }
  | serve r hw =>
    have hr := hal.serving_mem hw
    have hsv := served_core host supported htr.inv
      fun id hid => htr.requested id (hid ▸ hr)
    exact htr.serve hw hsv (serveRequest_length _ _ r)
  | hangUp => exact { htr with answered := hans }
  | finish => exact { htr with answered := hans }
  | event ev c reqs app hl hc he =>
    obtain ⟨hs, -, hg⟩ := Channel.receive_some hc
    have hev := List.mem_of_getElem? hg
    refine { htr with answered := hans, requested := ?_, mentioned := ?_, held := ?_,
                      expanded := ?_, lasting := ?_ }
    · intro id hm
      rcases List.mem_append.mp hm with hm | hm
      · exact htr.requested id hm
      · obtain ⟨n, hn, rfl⟩ := he.expand hm
        exact htr.mentioned ev hev n hn
    · exact fun ev' hev' => htr.mentioned ev' (hs ▸ hev')
    · intro n hn
      rcases he.nodes hn with hn | hn
      · exact htr.held n hn
      · exact htr.mentioned ev hev n hn
    · exact fun id exp hm => htr.expanded id exp (hs ▸ hm)
    · exact fun i j id exp why hi hj => htr.lasting i j id exp why (hs ▸ hi) (hs ▸ hj)
  | drained quit => exact { htr with answered := hans }
  | key a reqs app tail loop ha hk htail =>
    refine { htr with answered := hans, requested := ?_, held := ?_ }
    · intro id hm
      rcases List.mem_append.mp hm with hm | hm
      · exact htr.requested id hm
      · rcases List.mem_append.mp hm with hm | hm
        · obtain ⟨n, hn, rfl⟩ := hk.expand hm
          exact htr.held n hn
        · exact absurd hm (expand_notMem_tail htail id)
    · exact fun n hn => htr.held n (hk.nodes hn)

theorem traced_of_run {server : S} {canSearch : Bool}
    (hr : Run (Steps (step (coreEngine host supported))) (start ⟨.new server, canSearch⟩) h s) :
    Traced host h s :=
  hr.induct (Traced host) (traced_start server canSearch)
    fun _ _ _ _ hr htr hst => traced_step (aligned_of_run hr) htr (step_case hst)

end Session

end LspGraph
