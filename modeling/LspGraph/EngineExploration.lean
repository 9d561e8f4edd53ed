import Mathlib.Algebra.Ring.Nat
import LspGraph.Exploration
import LspGraph.EngineOrder

/-! What a history of seeds and expansions has explored of the server's call graph, and that
finished explorations agree, whatever failed and was repeated on the way. -/
namespace LspGraph
open FiniteMaps Runs Exploration

variable {S : Type*} (host : Host S) (incoming outgoing : NodeId → Value)

/-- Where the server answers a request about calls, it answers by a fixed function of the node;
any request may fail. -/
structure ConsistentServer : Prop where
  incoming_eq : ∀ item s v s', host.request "callHierarchy/incomingCalls"
    (.object [("item", host.itemToValue item)]) requestTimeout s = (.ok v, s') →
      v = incoming (.fromItem item)
  outgoing_eq : ∀ item s v s', host.request "callHierarchy/outgoingCalls"
    (.object [("item", host.itemToValue item)]) requestTimeout s = (.ok v, s') →
      v = outgoing (.fromItem item)

/-- The nodes the server's answers for a node lead to. -/
def neighbours (id : NodeId) : Set NodeId :=
  {k | k ∈ (serverExpansion host incoming outgoing id).callers ++
    (serverExpansion host incoming outgoing id).callees}

/-- An answer that a retrying request returns was given to one of its attempts. -/
theorem requestAttempts_ok (method : String) (params : Value) (left : ℕ) (s : S) {v : Value}
    {s' : S} (h : requestAttempts host method params left s = (.ok v, s')) :
    ∃ t, host.request method params requestTimeout t = (.ok v, s') := by
  induction left generalizing s with
  | zero => exact ⟨s, h⟩
  | succ left ih =>
    rw [requestAttempts] at h
    split at h
    · exact ih _ h
    · exact ⟨s, h⟩

theorem callsOf_ok (method field : String) (item : CallHierarchyItem) (s : S)
    {items : List CallHierarchyItem} {s' : S}
    (h : callsOf host method field item s = (.ok items, s')) :
    ∃ t v, host.request method (.object [("item", host.itemToValue item)]) requestTimeout t =
      (.ok v, s') ∧ items = unwrapCalls host v field := by
  unfold callsOf at h
  split at h
  · cases h
  · rename_i v s'' hr
    obtain ⟨t, ht⟩ := requestAttempts_ok host _ _ _ s hr
    obtain ⟨h₁, rfl⟩ := Prod.mk.inj h
    exact ⟨t, v, ht, (Except.ok.inj h₁).symm⟩

variable {host incoming outgoing}

namespace Engine

variable (host) in
/-- The ids an operation seeds. -/
def seedIds (e : Engine S) : EngineOp → List NodeId
  | .seed cand => handedOut (.inl (e.seed host cand).1)
  | _ => []

variable (host) in
/-- The ids a history seeded. -/
def seeded (h : List (Engine S × EngineOp)) : List NodeId :=
  h.flatMap fun p => p.1.seedIds host p.2

variable {e : Engine S}

theorem seeded_snoc (h : List (Engine S × EngineOp)) (e : Engine S) (op : EngineOp) :
    seeded host (h ++ [(e, op)]) = seeded host h ++ e.seedIds host op := by
  unfold seeded
  rw [List.flatMap_append, List.flatMap_singleton]

/-- The nodes that are expanded. -/
def expandedNodes (e : Engine S) : Finset NodeId :=
  e.graph.nodes.keys.filter fun k => e.isExpanded k = true

/-- The nodes that can be expanded: those with an item. -/
def knownIds (e : Engine S) : Set NodeId := {k | k ∈ e.items}

theorem mem_expandedNodes (e : Engine S) (k : NodeId) :
    k ∈ e.expandedNodes ↔ e.graph.stateOf k = some .expanded := by
  rw [expandedNodes, Finset.mem_filter, isExpanded_iff, Finmap.mem_keys,
    CallGraph.mem_nodes_iff_stateOf]
  exact and_iff_right_of_imp fun h => ⟨_, h⟩

theorem not_mem_expandedNodes {id : NodeId} (hx : e.isExpanded id = false) :
    id ∉ e.expandedNodes := by
  rw [mem_expandedNodes, ← isExpanded_iff, hx]
  exact Bool.false_ne_true

theorem mem_items_of_asked {id : NodeId} {exp : Expansion} (ha : e.Asked host id exp) :
    id ∈ e.items := by
  obtain ⟨item, -, -, -, -, -, hi, -⟩ := ha
  exact Finmap.mem_of_lookup_eq_some hi

/-- A consistent server was asked for its own expansion. -/
theorem asked_eq (hs : ConsistentServer host incoming outgoing) {id : NodeId} {exp : Expansion}
    (ha : e.Asked host id exp) : exp = serverExpansion host incoming outgoing id := by
  obtain ⟨item, inc, out, s₁, s₂, -, -, rfl, h₁, h₂, rfl⟩ := ha
  obtain ⟨t₁, v₁, hr₁, rfl⟩ := callsOf_ok host _ _ _ _ h₁
  obtain ⟨t₂, v₂, hr₂, rfl⟩ := callsOf_ok host _ _ _ _ h₂
  rw [hs.incoming_eq item _ _ _ hr₁, hs.outgoing_eq item _ _ _ hr₂]
  rfl

/-- A seed opens nothing and makes known what it hands out. -/
theorem expandedNodes_seed (cand : NamedCallable) :
    (e.seed host cand).2.expandedNodes = e.expandedNodes := by
  ext k
  rw [mem_expandedNodes, mem_expandedNodes]
  have hc := seed_case host e cand
  generalize e.seed host cand = r, e.seedAnswer host cand = items at hc
  cases hc with
  | notAFile => exact Iff.rfl
  | failed err s => exact Iff.rfl
  | unresolved reason s => exact record_state_iff e cand reason k .expanded (by simp)
  | resolved item s =>
    exact interned_state_iff host { e with server := s } [item] k .expanded (by simp)

theorem knownIds_seed (cand : NamedCallable) :
    (e.seed host cand).2.knownIds =
      e.knownIds ∪ {k | k ∈ handedOut (.inl (e.seed host cand).1)} := by
  ext k
  exact (mem_items_seed host cand k).trans or_comm

theorem expansions_seed (cand : NamedCallable) :
    (e.seed host cand).2.expansions = e.expansions := by
  have hc := seed_case host e cand
  generalize e.seed host cand = r, e.seedAnswer host cand = items at hc
  cases hc with
  | notAFile => rfl
  | failed err s => rfl
  | unresolved reason s => rfl
  | resolved item s => exact interned_expansions (e := { e with server := s }) [item]

/-- What an expansion does to what is expanded and known: nothing, or it asks about a node, which
is expanded from then on and whose neighbours are known. -/
inductive Opening (host : Host S) (e : Engine S) (id : NodeId) (e' : Engine S) : Prop where
  | none : e'.expandedNodes = e.expandedNodes → e'.knownIds = e.knownIds →
      e'.expansions = e.expansions → Opening host e id e'
  | opens (exp : Expansion) : e.Asked host id exp →
      e'.expandedNodes = insert id e.expandedNodes →
      e'.knownIds = e.knownIds ∪ {k | k ∈ exp.callers ++ exp.callees} →
      e'.expansions = e.expansions + 1 → Opening host e id e'

variable (host) in
theorem Inv.opening (h : e.Inv) (id : NodeId) : Opening host e id (e.expand host id).2 := by
  have hk := h.mem_items_expand host id
  have hc := expand_case host e id
  generalize e.expand host id = r, e.expandAnswer host id = items at hc hk
  cases hc with
  | memo => exact .none rfl rfl rfl
  | noItem => exact .none rfl rfl rfl
  | failed item err s => exact .none rfl rfl rfl
  | asked item inc out s₁ s₂ hx hi h₁ h₂ =>
    have hkey := h.itemsKeyed id item hi
    let e₁ : Engine S := { e with server := s₂, expansions := e.expansions + 1 }
    have hnode : id ∈ (e₁.interned host (inc ++ out)).graph.nodes :=
      (interned_mem_nodes host e₁ (inc ++ out) id).mpr
        (.inr (h.items_nodes id (Finmap.mem_of_lookup_eq_some hi)))
    apply Opening.opens _ ⟨item, inc, out, s₁, s₂, hx, hi, hkey, h₁, h₂, rfl⟩
    · ext k
      rw [Finset.mem_insert, mem_expandedNodes, mem_expandedNodes]
      change ((e₁.interned host (inc ++ out)).graph.recordExpansion id _).stateOf k =
        some .expanded ↔ k = id ∨ e₁.graph.stateOf k = some .expanded
      obtain ⟨st, hst⟩ := (CallGraph.mem_nodes_iff_stateOf _ _).mp hnode
      rw [CallGraph.stateOf_recordExpansion, hst]
      split_ifs with hki
      · simp [hki]
      · rw [interned_state_iff host e₁ _ k .expanded (by simp)]
        simp [hki]
    · ext k
      exact (hk k).trans or_comm
    · exact interned_expansions (e := e₁) (inc ++ out)

theorem expandedNodes_invalidateFile (e : Engine S) (uri : String) :
    (e.invalidateFile uri).expandedNodes = e.expandedNodes.filter fun k => k.uri ≠ uri := by
  ext k
  rw [Finset.mem_filter, mem_expandedNodes, mem_expandedNodes, stateOf_invalidateFile, and_comm]

/-- Nothing opened, nothing known. -/
theorem expandedNodes_new (s : S) : (new s).expandedNodes = ∅ := rfl

theorem knownIds_new (s : S) : (new s).knownIds = ∅ :=
  Set.eq_empty_of_forall_notMem fun _ hk => Finmap.notMem_empty hk

theorem mem_seeded_snoc (h : List (Engine S × EngineOp)) (e : Engine S) (op : EngineOp) :
    {k | k ∈ seeded host (h ++ [(e, op)])} =
      {k | k ∈ seeded host h} ∪ {k | k ∈ e.seedIds host op} := by
  ext k
  rw [seeded_snoc]
  exact List.mem_append

theorem searched_of_run (hs : ConsistentServer host incoming outgoing) {s : S}
    {h : List (Engine S × EngineOp)} (hr : Run (EngineStep host) (new s) h e)
    (hkeep : ∀ p ∈ h, ∀ uri, p.2 ≠ .invalidateFile uri) :
    Searched (neighbours host incoming outgoing) {k | k ∈ seeded host h} e.expandedNodes
      e.knownIds := by
  refine hr.guarded (fun h e => Searched (neighbours host incoming outgoing)
    {k | k ∈ seeded host h} e.expandedNodes e.knownIds)
    (fun _ op => ∀ uri, op ≠ .invalidateFile uri) ?_ ?_ hkeep
  · have hroots : {k | k ∈ seeded host ([] : List (Engine S × EngineOp))} = ∅ := by
      simp [seeded]
    rw [hroots, expandedNodes_new, knownIds_new, Finset.coe_empty]
    exact searched_empty _
  · rintro h e op e' hr hf hop rfl
    rw [mem_seeded_snoc]
    cases op with
    | seed cand =>
      change Searched _ _ (e.seed host cand).2.expandedNodes (e.seed host cand).2.knownIds
      rw [expandedNodes_seed, knownIds_seed]
      exact hf.addRoots _
    | expand id =>
      have hnone : {k | k ∈ e.seedIds host (.expand id)} = ∅ := by simp [seedIds]
      rw [hnone, Set.union_empty]
      change Searched _ _ (e.expand host id).2.expandedNodes (e.expand host id).2.knownIds
      cases (inv_of_run host hr).opening host id with
      | none ho hk _ =>
        rw [ho, hk]
        exact hf
      | opens exp ha ho hk _ =>
        rw [ho, hk, asked_eq hs ha, Finset.coe_insert]
        exact hf.openNode (mem_items_of_asked ha)
    | invalidateFile uri => exact absurd rfl (hop uri)

/-- Every item is one the server's answers lead to from a seed, whatever was invalidated. -/
theorem known_reachable (hs : ConsistentServer host incoming outgoing) {s : S}
    {h : List (Engine S × EngineOp)} (hr : Run (EngineStep host) (new s) h e) :
    e.knownIds ⊆ Region (neighbours host incoming outgoing) {k | k ∈ seeded host h} := by
  refine hr.induct (fun h e => e.knownIds ⊆
    Region (neighbours host incoming outgoing) {k | k ∈ seeded host h}) ?_ ?_
  · rw [knownIds_new]
    exact Set.empty_subset _
  · rintro h e op e' hr ih rfl
    rw [mem_seeded_snoc]
    have hold : e.knownIds ⊆ Region (neighbours host incoming outgoing)
        ({k | k ∈ seeded host h} ∪ {k | k ∈ e.seedIds host op}) :=
      ih.trans (Region.mono Set.subset_union_left)
    cases op with
    | seed cand =>
      change (e.seed host cand).2.knownIds ⊆ _
      rw [knownIds_seed]
      exact Set.union_subset hold fun k hk => .root (.inr hk)
    | expand id =>
      change (e.expand host id).2.knownIds ⊆ _
      cases (inv_of_run host hr).opening host id with
      | none _ hk _ =>
        rw [hk]
        exact hold
      | opens exp ha _ hk _ =>
        rw [hk, asked_eq hs ha]
        exact Set.union_subset hold fun k hk =>
          Region.step (hold (mem_items_of_asked ha)) hk
    | invalidateFile uri => exact fun k hk => hold ((mem_items_invalidateFile e uri k).mp hk).2

/-- What is in the memo was answered by the server, whatever failed on the way. -/
theorem memoized_of_run (hs : ConsistentServer host incoming outgoing) {s : S}
    {h : List (Engine S × EngineOp)} (hr : Run (EngineStep host) (new s) h e)
    (hkeep : ∀ p ∈ h, ∀ uri, p.2 ≠ .invalidateFile uri) :
    ∀ k exp, e.graph.Memoized k exp → exp = serverExpansion host incoming outgoing k := by
  refine hr.guarded (fun _ e => ∀ k exp, e.graph.Memoized k exp →
    exp = serverExpansion host incoming outgoing k)
    (fun _ op => ∀ uri, op ≠ .invalidateFile uri) ?_ ?_ hkeep
  · exact fun k exp hm => absurd hm.callers (by simp [new, CallGraph.new, CallGraph.callersOf])
  · rintro h e op e' hr hc hop rfl k exp hm
    cases op with
    | seed cand => exact hc k exp ((memoized_seed host cand k exp).mp hm)
    | expand id =>
      rcases ((inv_of_run host hr).memoized_expand host id k exp).mp hm with hm | ⟨rfl, ha⟩
      · exact hc k exp hm
      · exact asked_eq hs ha
    | invalidateFile uri => exact absurd rfl (hop uri)

/-- The expanded nodes an operation drops. -/
def droppedBy (e : Engine S) : EngineOp → ℕ
  | .invalidateFile uri => (e.expandedNodes.filter fun k => k.uri = uri).card
  | _ => 0

variable (host) in
/-- What an operation adds to the expansions performed it adds to the expanded nodes, or drops. -/
theorem Inv.expansions_step (h : e.Inv) (op : EngineOp) :
    (e.apply host op).2.expansions + e.expandedNodes.card =
      e.expansions + (e.apply host op).2.expandedNodes.card + e.droppedBy op := by
  cases op with
  | seed cand =>
    change (e.seed host cand).2.expansions + _ =
      _ + (e.seed host cand).2.expandedNodes.card + 0
    rw [expandedNodes_seed, expansions_seed]
    omega
  | expand id =>
    change (e.expand host id).2.expansions + _ =
      _ + (e.expand host id).2.expandedNodes.card + 0
    cases h.opening host id with
    | none ho _ hn =>
      rw [ho, hn]
      omega
    | opens exp ha ho _ hn =>
      obtain ⟨item, -, -, -, -, hx, -⟩ := ha
      rw [ho, hn, Finset.card_insert_of_notMem (not_mem_expandedNodes hx)]
      omega
  | invalidateFile uri =>
    have hsplit := Finset.card_filter_add_card_filter_not (s := e.expandedNodes)
      (fun k => k.uri = uri)
    change e.expansions + _ = _ + (e.invalidateFile uri).expandedNodes.card +
      (e.expandedNodes.filter fun k => k.uri = uri).card
    rw [expandedNodes_invalidateFile]
    simp only [ne_eq]
    omega

theorem opened_eq (e : Engine S) :
    {k | e.isExpanded k = true} = (e.expandedNodes : Set NodeId) := by
  ext k
  exact (isExpanded_iff e k).trans (mem_expandedNodes e k).symm

/-- With nothing left to expand, the items are all the server leads to from the seeds. -/
theorem reached_of_finished (hs : ConsistentServer host incoming outgoing) {s : S}
    {h : List (Engine S × EngineOp)} (hr : Run (EngineStep host) (new s) h e)
    (hkeep : ∀ p ∈ h, ∀ uri, p.2 ≠ .invalidateFile uri)
    (hall : ∀ k ∈ e.items, e.isExpanded k = true) :
    e.knownIds = Region (neighbours host incoming outgoing) {k | k ∈ seeded host h} := by
  have hsub : e.knownIds ⊆ e.expandedNodes := opened_eq e ▸ hall
  exact (searched_of_run hs hr hkeep).known_eq hsub

/-- What is explored: after any history every item is one the server leads to from a seeded id.
Without invalidation the items are those seen from the seeds through expanded nodes, whatever
failed in between, and when all of them are expanded they are all the server leads to. -/
theorem exploration_reaches (hs : ConsistentServer host incoming outgoing) {s : S}
    {h : List (Engine S × EngineOp)} (hr : Run (EngineStep host) (new s) h e) :
    (∀ k ∈ e.items, k ∈ Region (neighbours host incoming outgoing) {k | k ∈ seeded host h}) ∧
      ((∀ p ∈ h, ∀ uri, p.2 ≠ .invalidateFile uri) →
        (∀ k, k ∈ e.items ↔ Seen (neighbours host incoming outgoing) {k | k ∈ seeded host h}
          {k | e.isExpanded k = true} k) ∧
        ((∀ k ∈ e.items, e.isExpanded k = true) → ∀ k, k ∈ e.items ↔
          k ∈ Region (neighbours host incoming outgoing) {k | k ∈ seeded host h})) := by
  refine ⟨fun k hk => known_reachable hs hr hk, fun hkeep => ⟨fun k => ?_, fun hall k => ?_⟩⟩
  · rw [opened_eq]
    exact (searched_of_run hs hr hkeep).known_iff k
  · exact Set.ext_iff.mp (reached_of_finished hs hr hkeep hall) k

/-- A server with the answers of `gCallsFHost` that fails the first request about calls. -/
def waking : Host Bool :=
  answering fun method params awake =>
    if method = "textDocument/prepareCallHierarchy" then (.ok (itemsAnswer [fItem]), awake)
    else if awake then
      (.ok (gCallsF method (((params.get "item").bind (·.get "name")).bind (·.asStr))), awake)
    else (.error .serverExited, true)

theorem forall_items_of_keys {p : NodeId → Prop} (h : ∀ k ∈ e.items.keys, p k) :
    ∀ k ∈ e.items, p k := fun k hk => h k (Finmap.mem_keys.mpr hk)

theorem waking_consistent : ConsistentServer waking
    (fun id => gCallsF "callHierarchy/incomingCalls" (some id.name))
    (fun id => gCallsF "callHierarchy/outgoingCalls" (some id.name)) := by
  constructor
  · intro item s v s' h
    cases s with
    | true => exact (Except.ok.inj (Prod.mk.inj h).1).symm
    | false => cases h
  · intro item s v s' h
    cases s with
    | true => exact (Except.ok.inj (Prod.mk.inj h).1).symm
    | false => cases h

/-- `f` fails to expand, is expanded, and so is its caller: there is nothing else. -/
theorem exploration_reaches_waking :
    ∃ h e, Run (EngineStep waking) (new false) h e ∧
      h.map Prod.snd = [.seed fSymbol, .expand (.fromItem fItem), .expand (.fromItem fItem),
        .expand (.fromItem gItem)] ∧
      ∀ k, k ∈ e.items ↔ k ∈ Region (neighbours waking
        (fun id => gCallsF "callHierarchy/incomingCalls" (some id.name))
        (fun id => gCallsF "callHierarchy/outgoingCalls" (some id.name)))
          {k | k ∈ seeded waking h} := by
  have hr := ((Run.start (EngineStep waking) (new false)).snoc
    (a := .seed fSymbol) rfl).snoc (a := .expand (.fromItem fItem)) rfl
  have hr := (hr.snoc (a := .expand (.fromItem fItem)) rfl).snoc
    (a := .expand (.fromItem gItem)) rfl
  refine ⟨_, _, hr, rfl, ((exploration_reaches waking_consistent hr).2 (by simp)).2 ?_⟩
  exact forall_items_of_keys (by decide)

/-- With nothing left to expand and nothing invalidated, the expanded nodes are those with an
item, and each took one expansion. -/
theorem expansions_of_finished {s : S} {h : List (Engine S × EngineOp)}
    (hr : Run (EngineStep host) (new s) h e) (hkeep : ∀ p ∈ h, ∀ uri, p.2 ≠ .invalidateFile uri)
    (hall : ∀ k ∈ e.items, e.isExpanded k = true) : e.expansions = e.items.keys.card := by
  have hcount : e.expansions = e.expandedNodes.card := by
    refine hr.guarded (fun _ e => e.expansions = e.expandedNodes.card)
      (fun _ op => ∀ uri, op ≠ .invalidateFile uri) rfl ?_ hkeep
    rintro h e op e' hr ih hop rfl
    have hstep := (inv_of_run host hr).expansions_step host op
    cases op with
    | invalidateFile uri => exact absurd rfl (hop uri)
    | _ =>
      dsimp only [droppedBy] at hstep
      omega
  have hnodes : e.expandedNodes = e.items.keys := by
    ext k
    rw [mem_expandedNodes, Finmap.mem_keys]
    constructor
    · exact fun hk => (inv_of_run host hr).node_item k (.inr hk)
    · exact fun hk => (isExpanded_iff e k).mp (hall k hk)
  rw [hcount, hnodes]

/-- The expansion of an id with a fixed server, where nothing is left to expand. -/
theorem memoized_of_finished (hs : ConsistentServer host incoming outgoing) {s : S}
    {h : List (Engine S × EngineOp)} (hr : Run (EngineStep host) (new s) h e)
    (hkeep : ∀ p ∈ h, ∀ uri, p.2 ≠ .invalidateFile uri)
    (hall : ∀ k ∈ e.items, e.isExpanded k = true) {k : NodeId} (hk : k ∈ e.items) :
    e.graph.Memoized k (serverExpansion host incoming outgoing k) := by
  obtain ⟨exp, hm⟩ := (inv_of_run host hr).exists_memoized ((isExpanded_iff e k).mp (hall k hk))
  rwa [memoized_of_run hs hr hkeep k exp hm] at hm

end Engine

end LspGraph
