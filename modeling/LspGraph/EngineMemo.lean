import LspGraph.EngineGrowth

/-! The memo of `expand` against a server with fixed answers: the lists of an expanded node are
the server's, until a file they point into is invalidated. -/
namespace LspGraph
open FiniteMaps Runs

variable {S : Type*} (host : Host S) (incoming outgoing : NodeId → Value)

/-- The server answers every request about calls, by a fixed function of the node. -/
structure FixedServer : Prop where
  incoming_eq : ∀ item s, (host.request "callHierarchy/incomingCalls"
    (.object [("item", host.itemToValue item)]) requestTimeout s).1 =
      .ok (incoming (.fromItem item))
  outgoing_eq : ∀ item s, (host.request "callHierarchy/outgoingCalls"
    (.object [("item", host.itemToValue item)]) requestTimeout s).1 =
      .ok (outgoing (.fromItem item))

/-- The ids of the server's answers for a node. -/
def serverExpansion (id : NodeId) : Expansion where
  callers := (unwrapCalls host (incoming id) "from").map .fromItem
  callees := (unwrapCalls host (outgoing id) "to").map .fromItem

/-- A request that is answered is not repeated. -/
theorem requestRetrying_answered (method : String) (params : Value) (s : S) (v : Value)
    (h : (host.request method params requestTimeout s).1 = .ok v) :
    (requestRetryingContentModified host method params s).1 = .ok v := by
  rcases he : host.request method params requestTimeout s with ⟨r, s'⟩
  rw [he] at h
  subst h
  change (requestAttempts host method params (1 + 1) s).1 = .ok v
  rw [requestAttempts, he]

theorem callsOf_answered (method field : String) (item : CallHierarchyItem) (s : S) (v : Value)
    (h : (host.request method (.object [("item", host.itemToValue item)]) requestTimeout s).1 =
      .ok v) : (callsOf host method field item s).1 = .ok (unwrapCalls host v field) := by
  have hr := requestRetrying_answered host method (.object [("item", host.itemToValue item)]) s v h
  unfold callsOf
  rcases he : requestRetryingContentModified host method
    (.object [("item", host.itemToValue item)]) s with ⟨r, s'⟩
  rw [he] at hr
  subst hr
  rfl

variable {host incoming outgoing} in
theorem FixedServer.calls (hs : FixedServer host incoming outgoing) (item : CallHierarchyItem)
    (s s' : S) :
    (incomingCalls host item s).1 = .ok (unwrapCalls host (incoming (.fromItem item)) "from") ∧
      (outgoingCalls host item s').1 = .ok (unwrapCalls host (outgoing (.fromItem item)) "to") :=
  ⟨callsOf_answered host _ _ item s _ (hs.incoming_eq item s),
    callsOf_answered host _ _ item s' _ (hs.outgoing_eq item s')⟩

namespace Engine

/-- The ids handed out in a history whose own file has not been invalidated since. -/
def live (h : List (Engine S × EngineOp)) : List NodeId :=
  h.foldl (fun ids p => match p.2 with
    | .invalidateFile uri => ids.filter fun id => id.uri ≠ uri
    | op => ids ++ (p.1.apply host op).1) []

/-- The lists of every expanded node are those of the server. -/
def Complete (e : Engine S) : Prop :=
  ∀ id, e.graph.stateOf id = some .expanded →
    e.graph.callersOf id = some (serverExpansion host incoming outgoing id).callers ∧
    e.graph.calleesOf id = some (serverExpansion host incoming outgoing id).callees

/-- The condition on a step: a file is invalidated only while no node of another file lists an
id of it. -/
def Unlisted (e : Engine S) : EngineOp → Prop
  | .invalidateFile uri => ∀ id l, id.uri ≠ uri →
      e.graph.callersOf id = some l ∨ e.graph.calleesOf id = some l → ∀ n ∈ l, n.uri ≠ uri
  | _ => True

/-- No id of the file among the values of an adjacency map, the lists of the file apart. -/
def Spared (m : FMap NodeId (List NodeId)) (uri : String) : Prop :=
  ∀ k ∈ m.keys, k.uri ≠ uri → ∀ n ∈ (m.lookup k).getD [], n.uri ≠ uri

theorem spared_iff (m : FMap NodeId (List NodeId)) (uri : String) : Spared m uri ↔
    ∀ id l, id.uri ≠ uri → m.lookup id = some l → ∀ n ∈ l, n.uri ≠ uri := by
  constructor
  · intro h id l hid hl n hn
    refine h id (Finmap.mem_keys.mpr (Finmap.mem_of_lookup_eq_some hl)) hid n ?_
    rw [hl]
    exact hn
  · intro h k hk hu
    obtain ⟨l, hl⟩ := Finmap.mem_iff.mp (Finmap.mem_keys.mp hk)
    rw [hl]
    exact h k l hu hl

instance (m : FMap NodeId (List NodeId)) (uri : String) : Decidable (Spared m uri) :=
  inferInstanceAs (Decidable (∀ k ∈ m.keys, _))

instance (e : Engine S) : DecidablePred e.Unlisted
  | .invalidateFile uri =>
    decidable_of_iff (Spared e.graph.callers uri ∧ Spared e.graph.callees uri) (by
      simp only [spared_iff, Unlisted, CallGraph.callersOf, CallGraph.calleesOf, or_imp,
        ← forall_and])
  | .seed _ | .expand _ => isTrue trivial

variable {host incoming outgoing} {e : Engine S}

theorem live_snoc (h : List (Engine S × EngineOp)) (e : Engine S) (op : EngineOp) :
    live host (h ++ [(e, op)]) = match op with
      | .invalidateFile uri => (live host h).filter fun id => id.uri ≠ uri
      | op => live host h ++ (e.apply host op).1 := by
  unfold live
  rw [List.foldl_append]
  rfl

/-- The live ids are those with an item. -/
theorem mem_live_iff {s : S} {h : List (Engine S × EngineOp)}
    (hr : Run (EngineStep host) (new s) h e) (k : NodeId) : k ∈ live host h ↔ k ∈ e.items := by
  refine hr.induct (fun h e => k ∈ live host h ↔ k ∈ e.items) ?_ ?_
  · exact iff_of_false List.not_mem_nil Finmap.notMem_empty
  · rintro h e op e' hr ih rfl
    rw [live_snoc]
    cases op with
    | seed cand =>
      rw [List.mem_append, ih, or_comm]
      exact (mem_items_seed host cand k).symm
    | expand id =>
      rw [List.mem_append, ih, or_comm]
      exact ((inv_of_run host hr).mem_items_expand host id k).symm
    | invalidateFile uri =>
      rw [List.mem_filter, ih, and_comm, decide_eq_true_iff]
      exact (mem_items_invalidateFile e uri k).symm

theorem Complete.memoized (h : e.Complete host incoming outgoing) {k : NodeId}
    (hk : e.graph.stateOf k = some .expanded) :
    e.graph.Memoized k (serverExpansion host incoming outgoing k) :=
  ⟨hk, (h k hk).1, (h k hk).2⟩

theorem Complete.interned (h : e.Complete host incoming outgoing)
    (items : List CallHierarchyItem) :
    (e.interned host items).Complete host incoming outgoing := by
  intro k hk
  have hk := (interned_state_iff host e items k .expanded (by simp)).mp hk
  have hm := (memoized_interned host items k _).mpr (h.memoized hk)
  exact ⟨hm.callers, hm.callees⟩

theorem Complete.record (h : e.Complete host incoming outgoing) (cand : NamedCallable)
    (reason : UnresolvedReason) :
    (e.record (unresolvedNode cand reason)).Complete host incoming outgoing := by
  intro k hk
  have hk := (record_state_iff e cand reason k .expanded (by simp)).mp hk
  have hm := (memoized_record cand reason k _).mpr (h.memoized hk)
  exact ⟨hm.callers, hm.callees⟩

theorem Complete.recordExpansion (h : e.Complete host incoming outgoing) (id : NodeId) :
    (e.recordExpansion id (serverExpansion host incoming outgoing id)).Complete
      host incoming outgoing := by
  intro k hk
  change (e.graph.recordExpansion id _).stateOf k = _ at hk
  change (e.graph.recordExpansion id _).callersOf k = _ ∧
    (e.graph.recordExpansion id _).calleesOf k = _
  rw [CallGraph.callersOf_recordExpansion, CallGraph.calleesOf_recordExpansion]
  by_cases hki : k = id
  · rw [if_pos hki, if_pos hki, hki]
    exact ⟨rfl, rfl⟩
  · rw [CallGraph.stateOf_recordExpansion, if_neg hki] at hk
    rw [if_neg hki, if_neg hki]
    exact h k hk

/-- While the lists are complete, every id with an item expands to the server's answer. -/
theorem Complete.expand (h : e.Complete host incoming outgoing)
    (hs : FixedServer host incoming outgoing) (hi : e.Inv) (id : NodeId) :
    (e.expand host id).2.Complete host incoming outgoing ∧
      (id ∈ e.items →
        (e.expand host id).1 = .ok (serverExpansion host incoming outgoing id)) := by
  have hc := expand_case host e id
  generalize e.expand host id = r, e.expandAnswer host id = items at hc
  cases hc with
  | memo hx =>
    obtain ⟨h₁, h₂⟩ := h id ((isExpanded_iff e id).mp hx)
    rw [h₁, h₂]
    exact ⟨h, fun _ => rfl⟩
  | noItem hx hn => exact ⟨h, fun hid => absurd hid (Finmap.lookup_eq_none.mp hn)⟩
  | failed item err s hx hit hf =>
    -- a fixed server does not fail
    obtain ⟨h₁, h₂⟩ := hs.calls item e.server (incomingCalls host item e.server).2
    rw [h₁, h₂] at hf
    simp [Except.toOption] at hf
  | asked item inc out s₁ s₂ hx hit h₁ h₂ =>
    obtain ⟨h₁', h₂'⟩ := hs.calls item e.server s₁
    rw [h₁, hi.itemsKeyed id item hit] at h₁'
    rw [h₂, hi.itemsKeyed id item hit] at h₂'
    obtain rfl := Except.ok.inj h₁'
    obtain rfl := Except.ok.inj h₂'
    have hk : Complete host incoming outgoing
        { e with server := s₂, expansions := e.expansions + 1 } := h
    exact ⟨(hk.interned _).recordExpansion id, fun _ => rfl⟩

/-- A list that loses its ids of a file stays the same exactly when it had none. -/
theorem filter_uri_eq_iff (uri : String) (l : List NodeId) :
    l.filter (fun n => n.uri ≠ uri) = l ↔ ∀ n ∈ l, n.uri ≠ uri := by
  simp [List.filter_eq_self]

theorem complete_invalidateFile_iff (h : e.Complete host incoming outgoing) (hi : e.Inv)
    (uri : String) : (e.invalidateFile uri).Complete host incoming outgoing ↔
      e.Unlisted (.invalidateFile uri) := by
  have hlists (k : NodeId) (hk : k.uri ≠ uri) :
      (e.invalidateFile uri).graph.callersOf k =
        (e.graph.callersOf k).map (·.filter fun n => n.uri ≠ uri) ∧
      (e.invalidateFile uri).graph.calleesOf k =
        (e.graph.calleesOf k).map (·.filter fun n => n.uri ≠ uri) :=
    ⟨CallGraph.callersOf_removeFile _ uri k hk, CallGraph.calleesOf_removeFile _ uri k hk⟩
  constructor
  -- a shortened list would differ from the server's
  · rintro hc k l hk (hl | hl)
    · have hst := (hi.callers_iff k).mp (Finmap.mem_of_lookup_eq_some hl)
      have hnew := (hc k ((stateOf_invalidateFile e uri k _).mpr ⟨hk, hst⟩)).1
      rw [(hlists k hk).1, ← (h k hst).1, hl] at hnew
      exact (filter_uri_eq_iff uri l).mp (Option.some.inj hnew)
    · have hst := (hi.callees_iff k).mp (Finmap.mem_of_lookup_eq_some hl)
      have hnew := (hc k ((stateOf_invalidateFile e uri k _).mpr ⟨hk, hst⟩)).2
      rw [(hlists k hk).2, ← (h k hst).2, hl] at hnew
      exact (filter_uri_eq_iff uri l).mp (Option.some.inj hnew)
  · intro hu k hk
    obtain ⟨hk, hst⟩ := (stateOf_invalidateFile e uri k _).mp hk
    obtain ⟨h₁, h₂⟩ := h k hst
    rw [(hlists k hk).1, (hlists k hk).2, h₁, h₂]
    refine ⟨congrArg some ?_, congrArg some ?_⟩
    · exact (filter_uri_eq_iff uri _).mpr (hu k _ hk (.inl h₁))
    · exact (filter_uri_eq_iff uri _).mpr (hu k _ hk (.inr h₂))

/-- What one operation does: the lists stay complete exactly where the condition holds. -/
theorem complete_apply_iff (h : e.Complete host incoming outgoing)
    (hs : FixedServer host incoming outgoing) (hi : e.Inv) (op : EngineOp) :
    (e.apply host op).2.Complete host incoming outgoing ↔ e.Unlisted op := by
  cases op with
  | seed cand =>
    refine iff_of_true ?_ trivial
    change (e.seed host cand).2.Complete host incoming outgoing
    have hc := seed_case host e cand
    generalize e.seed host cand = r, e.seedAnswer host cand = items at hc
    cases hc with
    | notAFile => exact h
    | failed err s => exact h
    | unresolved reason s => exact h.record cand reason
    | resolved item s =>
      have hk : Complete host incoming outgoing { e with server := s } := h
      exact hk.interned [item]
  | expand id => exact iff_of_true (h.expand hs hi id).1 trivial
  | invalidateFile uri => exact complete_invalidateFile_iff h hi uri

/-- Where all ids with items expand to the server's answers, the lists are complete. -/
theorem complete_iff (hs : FixedServer host incoming outgoing) (hi : e.Inv) :
    (∀ id ∈ e.items, (e.expand host id).1 = .ok (serverExpansion host incoming outgoing id)) ↔
      e.Complete host incoming outgoing := by
  refine ⟨fun ha id hst => ?_, fun h id hid => (h.expand hs hi id).2 hid⟩
  obtain ⟨exp, hm⟩ := hi.exists_memoized hst
  have he := ha id (hi.node_item id (.inr hst))
  unfold expand at he
  rw [if_pos ((isExpanded_iff e id).mpr hst), hm.callers, hm.callees] at he
  rw [hm.callers, hm.callees, ← Except.ok.inj he]
  exact ⟨rfl, rfl⟩

/-- Exactly when the memo agrees with a fixed server: all along a history every live id expands
to the server's answer, if and only if no invalidation of the history removes a file that an
expanded node of another file lists an id of. -/
theorem memo_agrees_iff {s : S} {h : List (Engine S × EngineOp)}
    (hs : FixedServer host incoming outgoing) (hr : Run (EngineStep host) (new s) h e) :
    (∀ p ∈ h, p.1.Unlisted p.2) ↔
      ∀ h₁ t, h₁ <+: h → Run (EngineStep host) (new s) h₁ t → ∀ id ∈ live host h₁,
        (t.expand host id).1 = .ok (serverExpansion host incoming outgoing id) := by
  have hp (h₁ : List (Engine S × EngineOp)) (t : Engine S)
      (hr : Run (EngineStep host) (new s) h₁ t) :
      (∀ id ∈ live host h₁,
        (t.expand host id).1 = .ok (serverExpansion host incoming outgoing id)) ↔
      t.Complete host incoming outgoing := by
    rw [← complete_iff hs (inv_of_run host hr)]
    exact forall_congr' fun id => imp_congr_left (mem_live_iff hr id)
  -- completeness is what a step keeps; it says the same as the agreement of the live ids
  rw [hr.guarded_iff (fun _ t => t.Complete host incoming outgoing) Unlisted]
  · exact forall₂_congr fun h₁ t => forall₂_congr fun _ hr => (hp h₁ t hr).symm
  · exact fun k hk => absurd hk (by simp [new, CallGraph.new, CallGraph.stateOf, CallGraph.get])
  · rintro h e op e' hr hc hg rfl
    exact (complete_apply_iff hc hs (inv_of_run host hr) op).mpr hg
  · rintro h e op e' hr hc rfl hc'
    exact (complete_apply_iff hc hs (inv_of_run host hr) op).mp hc'

/-- Who calls a node, and whom it calls, where `g` calls `f` and nothing else is called. -/
def gCallsF (method : String) (name : Option String) : Value :=
  if method = "callHierarchy/incomingCalls" then
    callsAnswer "from" (if name = some "f" then [gItem] else [])
  else callsAnswer "to" (if name = some "g" then [fItem] else [])

/-- A server with these answers, for which every position is in `f`. -/
def gCallsFHost : Host Unit :=
  answering fun method params _ =>
    if method = "textDocument/prepareCallHierarchy" then (.ok (itemsAnswer [fItem]), ())
    else (.ok (gCallsF method (((params.get "item").bind (·.get "name")).bind (·.asStr))), ())

theorem gCallsFHost_fixed : FixedServer gCallsFHost
    (fun id => gCallsF "callHierarchy/incomingCalls" (some id.name))
    (fun id => gCallsF "callHierarchy/outgoingCalls" (some id.name)) :=
  ⟨fun _ _ => rfl, fun _ _ => rfl⟩

/-- The file of the caller is invalidated: `f` stays expanded and its list of callers is empty
from then on, where the server answers `g`. -/
theorem expanded_with_shortened_list :
    ∃ h e, Run (EngineStep gCallsFHost) (new ()) h e ∧
      h.map Prod.snd = [.seed fSymbol, .expand (.fromItem fItem),
        .invalidateFile "file:///b.rs"] ∧
      .fromItem fItem ∈ live gCallsFHost h ∧
      (serverExpansion gCallsFHost
        (fun id => gCallsF "callHierarchy/incomingCalls" (some id.name))
        (fun id => gCallsF "callHierarchy/outgoingCalls" (some id.name))
        (.fromItem fItem)) = ⟨[.fromItem gItem], []⟩ ∧
      (e.expand gCallsFHost (.fromItem fItem)).1 = .ok ⟨[], []⟩ := by
  have hr := ((Run.start (EngineStep gCallsFHost) (new ())).snoc
    (a := .seed fSymbol) rfl).snoc (a := .expand (.fromItem fItem)) rfl
  have hr := hr.snoc (a := .invalidateFile "file:///b.rs") rfl
  exact ⟨_, _, hr, rfl, by decide, by decide, by decide⟩

/-- The condition is met where an unrelated file is invalidated. -/
theorem memo_agrees_unrelated_file :
    ∃ h e, Run (EngineStep gCallsFHost) (new ()) h e ∧
      h.map Prod.snd = [.seed fSymbol, .expand (.fromItem fItem),
        .invalidateFile "file:///c.rs"] ∧
      (e.expand gCallsFHost (.fromItem fItem)).1 = .ok ⟨[.fromItem gItem], []⟩ := by
  have hr := ((Run.start (EngineStep gCallsFHost) (new ())).snoc
    (a := .seed fSymbol) rfl).snoc (a := .expand (.fromItem fItem)) rfl
  have hr := hr.snoc (a := .invalidateFile "file:///c.rs") rfl
  refine ⟨_, _, hr, rfl, ?_⟩
  refine ((memo_agrees_iff gCallsFHost_fixed hr).mp ?_ _ _ (List.prefix_refl _) hr _
    (by decide)).trans (by decide)
  decide

end Engine

end LspGraph
