import LspGraph.Runs
import LspGraph.Server

/-! Lazy, memoized call graph expansion (`engine.rs`). -/
namespace LspGraph
open FiniteMaps

/-- The engine; `server` is the state of the host it talks to. -/
structure Engine (S : Type*) where
  server : S
  graph : CallGraph
  items : FMap NodeId CallHierarchyItem
  expansions : Nat

variable {S : Type*}

namespace Engine

def new (server : S) : Engine S := ⟨server, .new, ∅, 0⟩

def invalidateFile (e : Engine S) (uri : String) : Engine S :=
  { e with graph := e.graph.removeFile uri, items := retain (fun k _ => k.uri ≠ uri) e.items }

/-- `self.graph.upsert(node)`. -/
def record (e : Engine S) (node : Node) : Engine S := { e with graph := e.graph.upsert node }

/-- The id under which `seed` records a symbol that does not resolve. -/
def unresolvedId (cand : NamedCallable) : NodeId where
  uri := cand.uri.serialization
  line := cand.position.line
  character := cand.position.character
  name := cand.name

/-- The node recorded for a symbol that does not resolve. -/
def unresolvedNode (cand : NamedCallable) (reason : UnresolvedReason) : Node :=
  ⟨unresolvedId cand, "Unknown", none, .unresolved reason⟩

variable (host : Host S)

/-- The node recorded for an item. -/
def itemNode (item : CallHierarchyItem) : Node :=
  ⟨.fromItem item, host.kindName item.kind, item.detail, .unexpanded⟩

def intern (e : Engine S) (item : CallHierarchyItem) : NodeId × Engine S :=
  (.fromItem item, { e.record (itemNode host item) with
    items := e.items.insert (.fromItem item) item })

/-- `iter().map(|i| self.intern(i)).collect()`. -/
def internAll (e : Engine S) : List CallHierarchyItem → List NodeId × Engine S
  | [] => ([], e)
  | item :: items =>
    let (id, e) := intern host e item
    let (ids, e) := internAll e items
    (id :: ids, e)

/-- Resolve a candidate into a graph node. -/
def seed (e : Engine S) (cand : NamedCallable) : Result (Option NodeId) × Engine S :=
  match host.toFilePath cand.uri with
  | none => (.ok none, e)
  | some path =>
    match prepareCallHierarchy host path cand.position e.server with
    | (.error (.contentModified _), s) =>
      -- the retries are exhausted: record the symbol, do not drop it
      (.ok none, { e.record (unresolvedNode cand .transientContentModified) with server := s })
    | (.error err, s) => (.error err, { e with server := s })
    | (.ok [], s) =>
      (.ok none, { e.record (unresolvedNode cand .noCallHierarchyItem) with server := s })
    -- only the first item is used
    | (.ok (item :: _), s) =>
      let (id, e) := intern host { e with server := s } item
      (.ok (some id), e)

/-- Whether the node is in the graph and already expanded. -/
def isExpanded (e : Engine S) (id : NodeId) : Bool :=
  (e.graph.get id).map (·.state) = some .expanded

theorem isExpanded_iff (e : Engine S) (id : NodeId) :
    e.isExpanded id = true ↔ e.graph.stateOf id = some .expanded := decide_eq_true_iff

/-- `self.graph.record_expansion(id, &exp)`. -/
def recordExpansion (e : Engine S) (id : NodeId) (exp : Expansion) : Engine S :=
  { e with graph := e.graph.recordExpansion id exp }

/-- Expand a node into its callers and callees. Memoized. -/
def expand (e : Engine S) (id : NodeId) : Result Expansion × Engine S :=
  if e.isExpanded id then
    (.ok ⟨(e.graph.callersOf id).getD [], (e.graph.calleesOf id).getD []⟩, e)
  else match e.items.lookup id with
    -- `Expansion::default()`, without asking
    | none => (.ok ⟨[], []⟩, e)
    | some item =>
      match incomingCalls host item e.server with
      | (.error err, s) => (.error err, { e with server := s })
      | (.ok incoming, s) =>
        match outgoingCalls host item s with
        -- the answer to the first request is lost with the failure of the second
        | (.error err, s) => (.error err, { e with server := s })
        | (.ok outgoing, s) =>
          let e := { e with server := s, expansions := e.expansions + 1 }
          let (callers, e) := internAll host e incoming
          let (callees, e) := internAll host e outgoing
          let exp := ⟨callers, callees⟩
          (.ok exp, e.recordExpansion id exp)

/-- The engine after interning a list of items. -/
def interned (e : Engine S) (items : List CallHierarchyItem) : Engine S :=
  (internAll host e items).2

theorem internAll_ids (e : Engine S) (items : List CallHierarchyItem) :
    (internAll host e items).1 = items.map .fromItem := by
  induction items generalizing e with
  | nil => rfl
  | cons item items ih => exact congrArg (NodeId.fromItem item :: ·) (ih _)

theorem interned_append (e : Engine S) (items more : List CallHierarchyItem) :
    interned host (interned host e items) more = interned host e (items ++ more) := by
  induction items generalizing e with
  | nil => rfl
  | cons item items ih => exact ih _

/-- Interning keeps the state of a node that is there and makes the others unexpanded. -/
theorem interned_stateOf (e : Engine S) (items : List CallHierarchyItem) (k : NodeId) :
    (interned host e items).graph.stateOf k =
      if k ∈ items.map NodeId.fromItem then some ((e.graph.stateOf k).getD .unexpanded)
      else e.graph.stateOf k := by
  induction items generalizing e with
  | nil => simp [interned, internAll]
  | cons item items ih =>
    have hs : (intern host e item).2.graph.stateOf k =
        if k = .fromItem item then some ((e.graph.stateOf k).getD .unexpanded)
        else e.graph.stateOf k := by
      change (e.graph.upsert (itemNode host item)).stateOf k = _
      rw [CallGraph.stateOf_upsert]
      split_ifs with h₁ h₂ h₂
      · rw [h₂]
        rfl
      · exact absurd h₁ h₂
      · exact absurd h₂ h₁
      · rfl
    change (interned host (intern host e item).2 items).graph.stateOf k = _
    rw [ih, hs]
    -- an id that occurs twice keeps the state it got first
    by_cases h₁ : k = .fromItem item <;> by_cases h₂ : k ∈ items.map NodeId.fromItem <;>
      simp [h₁, h₂]

theorem interned_mem_items (e : Engine S) (items : List CallHierarchyItem) (k : NodeId) :
    k ∈ (interned host e items).items ↔ k ∈ items.map NodeId.fromItem ∨ k ∈ e.items := by
  induction items generalizing e with
  | nil => simp [interned, internAll]
  | cons item items ih =>
    change k ∈ (interned host (intern host e item).2 items).items ↔ _
    rw [ih]
    change _ ∨ k ∈ e.items.insert (.fromItem item) item ↔ _
    rw [Finmap.mem_insert, List.map_cons, List.mem_cons]
    tauto

theorem interned_mem_nodes (e : Engine S) (items : List CallHierarchyItem) (k : NodeId) :
    k ∈ (interned host e items).graph.nodes ↔
      k ∈ items.map NodeId.fromItem ∨ k ∈ e.graph.nodes := by
  rw [CallGraph.mem_nodes_iff_stateOf, CallGraph.mem_nodes_iff_stateOf, interned_stateOf]
  split_ifs with h <;> simp [h]

theorem interned_lists (e : Engine S) (items : List CallHierarchyItem) :
    (interned host e items).graph.callers = e.graph.callers ∧
      (interned host e items).graph.callees = e.graph.callees := by
  induction items generalizing e with
  | nil => exact ⟨rfl, rfl⟩
  | cons item items ih =>
    have h := ih (intern host e item).2
    exact ⟨h.1.trans (CallGraph.upsert_callers _ _), h.2.trans (CallGraph.upsert_callees _ _)⟩

theorem interned_keyed (e : Engine S) (items : List CallHierarchyItem) (h : e.graph.Keyed) :
    (interned host e items).graph.Keyed := by
  induction items generalizing e with
  | nil => exact h
  | cons item items ih => exact ih _ (CallGraph.keyed_upsert _ _ h)

/-- Every item is stored under the id it describes. -/
def ItemsKeyed (e : Engine S) : Prop := ∀ k item, e.items.lookup k = some item → .fromItem item = k

theorem interned_itemsKeyed (e : Engine S) (items : List CallHierarchyItem) (h : e.ItemsKeyed) :
    (interned host e items).ItemsKeyed := by
  induction items generalizing e with
  | nil => exact h
  | cons item items ih =>
    apply ih
    intro k it hk
    change (e.items.insert (.fromItem item) item).lookup k = some it at hk
    rw [lookup_insert_ite] at hk
    split_ifs at hk with hki
    · obtain rfl := Option.some.inj hk
      exact hki.symm
    · exact h k it hk

/-- The item a seed gets from the server and interns: the first one prepared. -/
def seedAnswer (e : Engine S) (cand : NamedCallable) : List CallHierarchyItem :=
  match host.toFilePath cand.uri with
  | none => []
  | some path =>
    match (prepareCallHierarchy host path cand.position e.server).1 with
    | .ok items => items.take 1
    | .error _ => []

/-- The items an expansion that asks gets from the server and interns: those of both answers. -/
def expandAnswer (e : Engine S) (id : NodeId) : List CallHierarchyItem :=
  if e.isExpanded id then []
  else match e.items.lookup id with
    | none => []
    | some item =>
      match incomingCalls host item e.server with
      | (.error _, _) => []
      | (.ok incoming, s) =>
        match (outgoingCalls host item s).1 with
        | .error _ => []
        | .ok outgoing => incoming ++ outgoing

/-- What `seed` can do: nothing but talk to the server, record an unresolved symbol, or intern
the item the server gave. -/
inductive SeedCase (e : Engine S) (cand : NamedCallable) :
    List CallHierarchyItem → Result (Option NodeId) × Engine S → Prop where
  | notAFile : SeedCase e cand [] (.ok none, e)
  | failed (err : Error) (s : S) : SeedCase e cand [] (.error err, { e with server := s })
  | unresolved (reason : UnresolvedReason) (s : S) :
      SeedCase e cand [] (.ok none, { e.record (unresolvedNode cand reason) with server := s })
  | resolved (item : CallHierarchyItem) (s : S) :
      SeedCase e cand [item]
        (.ok (some (.fromItem item)), interned host { e with server := s } [item])

theorem seed_case (e : Engine S) (cand : NamedCallable) :
    SeedCase host e cand (e.seedAnswer host cand) (e.seed host cand) := by
  unfold seed seedAnswer
  cases host.toFilePath cand.uri with
  | none => exact .notAFile
  | some path =>
    dsimp only
    rcases prepareCallHierarchy host path cand.position e.server with ⟨r, s⟩
    rcases r with err | items
    · cases err <;> first | exact .failed _ s | exact .unresolved _ s
    · cases items with
      | nil => exact .unresolved _ s
      | cons item items => exact .resolved item s

/-- What `expand` can do: answer from the memo, answer for an id it has no item for, fail in one
of the two requests, or ask both and record the answers. -/
inductive ExpandCase (e : Engine S) (id : NodeId) :
    List CallHierarchyItem → Result Expansion × Engine S → Prop where
  | memo : e.isExpanded id = true → ExpandCase e id []
      (.ok ⟨(e.graph.callersOf id).getD [], (e.graph.calleesOf id).getD []⟩, e)
  | noItem : e.isExpanded id = false → e.items.lookup id = none →
      ExpandCase e id [] (.ok ⟨[], []⟩, e)
  | failed (item : CallHierarchyItem) (err : Error) (s : S) : e.isExpanded id = false →
      e.items.lookup id = some item →
      ((incomingCalls host item e.server).1.toOption = none ∨
        (outgoingCalls host item (incomingCalls host item e.server).2).1.toOption = none) →
      ExpandCase e id [] (.error err, { e with server := s })
  | asked (item : CallHierarchyItem) (incoming outgoing : List CallHierarchyItem) (s₁ s₂ : S) :
      e.isExpanded id = false → e.items.lookup id = some item →
      incomingCalls host item e.server = (.ok incoming, s₁) →
      outgoingCalls host item s₁ = (.ok outgoing, s₂) →
      ExpandCase e id (incoming ++ outgoing)
        (.ok ⟨incoming.map .fromItem, outgoing.map .fromItem⟩,
          (interned host { e with server := s₂, expansions := e.expansions + 1 }
            (incoming ++ outgoing)).recordExpansion id
              ⟨incoming.map .fromItem, outgoing.map .fromItem⟩)

theorem expand_case (e : Engine S) (id : NodeId) :
    ExpandCase host e id (e.expandAnswer host id) (e.expand host id) := by
  unfold expand expandAnswer
  cases hx : e.isExpanded id with
  | true => exact .memo hx
  | false =>
    simp only [Bool.false_eq_true, ↓reduceIte]
    cases hi : e.items.lookup id with
    | none => exact .noItem hx hi
    | some item =>
      dsimp only
      rcases h₁ : incomingCalls host item e.server with ⟨r₁, s₁⟩
      rcases r₁ with err | incoming
      · exact .failed item err s₁ hx hi (.inl (by rw [h₁]; rfl))
      dsimp only
      rcases h₂ : outgoingCalls host item s₁ with ⟨r₂, s₂⟩
      rcases r₂ with err | outgoing
      · exact .failed item err s₂ hx hi (.inr (by rw [h₁, h₂]; rfl))
      have hc := ExpandCase.asked item incoming outgoing s₁ s₂ hx hi h₁ h₂
      rw [← interned_append] at hc
      simpa only [interned, internAll_ids] using hc

end Engine

/-- The operations of the engine that change it. -/
inductive EngineOp where
  | seed (cand : NamedCallable)
  | expand (id : NodeId)
  | invalidateFile (uri : String)

/-- The ids an operation hands out: the seeded one, or those inside the expansion. -/
def handedOut : Result (Option NodeId) ⊕ Result Expansion → List NodeId
  | .inl (.ok id) => id.toList
  | .inr (.ok exp) => exp.callers ++ exp.callees
  | _ => []

variable (host : Host S)

/-- The engine after an operation, and the ids handed out by it. -/
def Engine.apply (e : Engine S) : EngineOp → List NodeId × Engine S
  | .seed cand => (handedOut (.inl (e.seed host cand).1), (e.seed host cand).2)
  | .expand id => (handedOut (.inr (e.expand host id).1), (e.expand host id).2)
  | .invalidateFile uri => ([], e.invalidateFile uri)

/-- The items an operation gets from the server and interns. -/
def Engine.answered (e : Engine S) : EngineOp → List CallHierarchyItem
  | .seed cand => e.seedAnswer host cand
  | .expand id => e.expandAnswer host id
  | .invalidateFile _ => []

/-- One operation of a history of the engine. -/
def EngineStep (e : Engine S) (op : EngineOp) (e' : Engine S) : Prop := e' = (e.apply host op).2

end LspGraph
