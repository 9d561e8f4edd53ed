import LspGraph.EngineMemo
import LspGraph.EngineReplay

/-! Exploring in another order: with a server that always gives the same answers, what a list of
operations adds to the engine depends on which operations are in it and not on their order. -/
namespace LspGraph
open FiniteMaps Runs

variable {S : Type*} (host : Host S) (answer : String → Value → Value)
  (describe : NodeId → CallHierarchyItem)

/-- The server answers every request by a fixed function, and describes every id by one item. -/
structure DescribingServer : Prop where
  answers : ∀ method params timeout s,
    (host.request method params timeout s).1 = .ok (answer method params)
  prepared : ∀ params items,
    host.itemsFromValue (answer "textDocument/prepareCallHierarchy" params) = .ok items →
      ∀ item ∈ items, item = describe (.fromItem item)
  calling : ∀ params,
    ∀ item ∈ unwrapCalls host (answer "callHierarchy/incomingCalls" params) "from",
      item = describe (.fromItem item)
  called : ∀ params,
    ∀ item ∈ unwrapCalls host (answer "callHierarchy/outgoingCalls" params) "to",
      item = describe (.fromItem item)

/-- The server's answer about the calls of a node. -/
def callsAbout (method field : String) (id : NodeId) : List CallHierarchyItem :=
  unwrapCalls host (answer method (.object [("item", host.itemToValue (describe id))])) field

variable {host answer describe}

theorem DescribingServer.callsOf (hs : DescribingServer host answer describe)
    (method field : String) (id : NodeId) (s : S) :
    (callsOf host method field (describe id) s).1 =
      .ok (callsAbout host answer describe method field id) :=
  callsOf_answered host method field (describe id) s _ (hs.answers _ _ _ s)

variable (host answer) in
/-- What the server prepares for a position. -/
def preparedAt (path : Path) (pos : Position) : Result (List CallHierarchyItem) :=
  let v := answer "textDocument/prepareCallHierarchy"
    (.object [("textDocument", .object [("uri", .string (pathToUri host path).serialization)]),
      ("position", positionToValue pos)])
  if v.isNull then .ok []
  else (host.itemsFromValue v).mapError .json

theorem DescribingServer.prepare (hs : DescribingServer host answer describe) (path : Path)
    (pos : Position) (s : S) :
    (prepareCallHierarchy host path pos s).1 = preparedAt host answer path pos := by
  have hone := requestRetrying_answered host "textDocument/prepareCallHierarchy"
    (.object [("textDocument", .object [("uri", .string (pathToUri host path).serialization)]),
      ("position", positionToValue pos)]) s _ (hs.answers _ _ _ s)
  unfold prepareCallHierarchy preparedAt
  generalize requestRetryingContentModified host _ _ s = p at hone ⊢
  obtain ⟨r, t⟩ := p
  obtain rfl : r = _ := hone
  dsimp only
  split_ifs
  · rfl
  · cases host.itemsFromValue _ <;> rfl

theorem DescribingServer.described_of_prepared (hs : DescribingServer host answer describe)
    {path : Path} {pos : Position} {items : List CallHierarchyItem}
    (h : preparedAt host answer path pos = .ok items) :
    ∀ item ∈ items, item = describe (.fromItem item) := by
  unfold preparedAt at h
  dsimp only at h
  split_ifs at h
  · obtain rfl := Except.ok.inj h
    exact fun item hit => absurd hit List.not_mem_nil
  · cases hd : host.itemsFromValue (answer "textDocument/prepareCallHierarchy" _) with
    | error text =>
      rw [hd] at h
      cases h
    | ok items' =>
      rw [hd] at h
      obtain rfl := Except.ok.inj h
      exact hs.prepared _ _ hd

namespace Engine

variable {e e' : Engine S}

/-- Every item is the one by which the server describes its id. -/
def Described (describe : NodeId → CallHierarchyItem) (e : Engine S) : Prop :=
  ∀ k item, e.items.lookup k = some item → item = describe k

/-- Interning described items stores the descriptions of their ids. -/
theorem interned_lookup (items : List CallHierarchyItem)
    (hd : ∀ item ∈ items, item = describe (.fromItem item)) (k : NodeId) :
    (e.interned host items).items.lookup k =
      if k ∈ items.map NodeId.fromItem then some (describe k) else e.items.lookup k := by
  induction items generalizing e with
  | nil => simp [interned, internAll]
  | cons item items ih =>
    have ht := ih (e := (intern host e item).2) fun it hit => hd it (List.mem_cons_of_mem _ hit)
    have hone : (intern host e item).2.items.lookup k =
        if k = .fromItem item then some (describe k) else e.items.lookup k := by
      change (e.items.insert (.fromItem item) item).lookup k = _
      rw [lookup_insert_ite]
      split_ifs with hk
      · rw [hk, ← hd item List.mem_cons_self]
      · rfl
    change (interned host (intern host e item).2 items).items.lookup k = _
    rw [ht, hone]
    by_cases h₁ : k = .fromItem item <;> by_cases h₂ : k ∈ items.map NodeId.fromItem <;>
      simp [h₁, h₂]

/-- The node under which the graph knows an id it has met in an answer. -/
def metNode (host : Host S) (describe : NodeId → CallHierarchyItem) (e : Engine S) (k : NodeId) :
    Node :=
  ⟨k, host.kindName (describe k).kind, (describe k).detail, (e.graph.stateOf k).getD .unexpanded⟩

theorem intern_get {item : CallHierarchyItem} (hd : item = describe (.fromItem item))
    (hk : e.graph.Keyed) (k : NodeId) : (intern host e item).2.graph.get k =
      if k = .fromItem item then some (metNode host describe e k) else e.graph.get k := by
  change (e.graph.upsert (itemNode host item)).get k = _
  rw [CallGraph.get_upsert]
  by_cases h : k = .fromItem item
  · rw [if_pos h]
    refine (if_pos h).trans ?_
    -- the stored node keeps its id, which is the key, and its state
    have hst : e.graph.stateOf k = (e.graph.get k).map Node.state := rfl
    change some (((e.graph.get (.fromItem item)).map _).getD (itemNode host item)) = _
    rw [metNode, hst, h]
    cases hg : e.graph.get (.fromItem item) with
    | none =>
      rw [← hd]
      rfl
    | some n =>
      have hid := hk _ _ hg
      rw [← hd, ← hid]
      rfl
  · rw [if_neg h]
    exact if_neg h

theorem interned_get (items : List CallHierarchyItem)
    (hd : ∀ item ∈ items, item = describe (.fromItem item)) (hk : e.graph.Keyed) (k : NodeId) :
    (e.interned host items).graph.get k =
      if k ∈ items.map NodeId.fromItem then some (metNode host describe e k)
      else e.graph.get k := by
  induction items generalizing e with
  | nil => simp [interned, internAll]
  | cons item items ih =>
    have hit := hd item List.mem_cons_self
    have hkeyed : (intern host e item).2.graph.Keyed := CallGraph.keyed_upsert _ _ hk
    have hone := @intern_get _ host _ e item hit hk k
    have ht := ih (fun it h => hd it (List.mem_cons_of_mem _ h)) hkeyed
    have hmet : metNode host describe (intern host e item).2 k = metNode host describe e k := by
      have hst : (intern host e item).2.graph.stateOf k =
          ((intern host e item).2.graph.get k).map Node.state := rfl
      rw [metNode, hst, hone]
      split_ifs <;> rfl
    change (interned host (intern host e item).2 items).graph.get k = _
    rw [ht, hone, hmet]
    by_cases h₁ : k = .fromItem item <;> by_cases h₂ : k ∈ items.map NodeId.fromItem <;>
      simp [h₁, h₂]

/-- Interning asks nothing: the server and the count of expansions pass through it. -/
theorem interned_talk (items : List CallHierarchyItem) (s : S) (n : ℕ) :
    interned host { e with server := s, expansions := n } items =
      { interned host e items with server := s, expansions := n } := by
  induction items generalizing e with
  | nil => rfl
  | cons item items ih => exact ih (e := (intern host e item).2)

theorem interned_expansions (items : List CallHierarchyItem) :
    (interned host e items).expansions = e.expansions := by
  induction items generalizing e with
  | nil => rfl
  | cons item items ih => exact ih (e := (intern host e item).2)

/-- The operations whose order does not matter: seeding a candidate that resolves and expanding
an id that has an item. -/
def Explores (host : Host S) (e : Engine S) : EngineOp → Prop
  | .seed cand => ∃ id, (e.seed host cand).1 = .ok (some id)
  | .expand id => id ∈ e.items
  | .invalidateFile _ => False

/-- The ids that an operation meets in the server's answers. -/
def metIds (host : Host S) (e : Engine S) (op : EngineOp) : List NodeId :=
  (e.answered host op).map .fromItem

/-- The ids about whose calls an operation asks. -/
def askedIds (e : Engine S) : EngineOp → List NodeId
  | .expand id => if e.isExpanded id then [] else [id]
  | _ => []

/-- The ids in the server's answers about the calls of a node. -/
def callsExpansion (host : Host S) (answer : String → Value → Value)
    (describe : NodeId → CallHierarchyItem) (k : NodeId) : Expansion where
  callers := (callsAbout host answer describe "callHierarchy/incomingCalls" "from" k).map .fromItem
  callees := (callsAbout host answer describe "callHierarchy/outgoingCalls" "to" k).map .fromItem

/-- The node of an id, after the ids in `met` were met and those in `asked` expanded. -/
def exploredNode (host : Host S) (describe : NodeId → CallHierarchyItem) (e : Engine S)
    (met asked : List NodeId) (k : NodeId) : Option Node :=
  let node := if k ∈ met then some (metNode host describe e k) else e.graph.get k
  if k ∈ asked then node.map fun n => { n with state := .expanded } else node

/-- What the engine `e'` knows beyond `e`: the ids in `met` and the calls of the ids in `asked`.
The order in which it came to know them is not in it. -/
structure Explored (host : Host S) (answer : String → Value → Value)
    (describe : NodeId → CallHierarchyItem) (e : Engine S) (met asked : List NodeId)
    (e' : Engine S) : Prop where
  get : ∀ k, e'.graph.get k = exploredNode host describe e met asked k
  callersOf : ∀ k, e'.graph.callersOf k =
    if k ∈ asked then some (callsExpansion host answer describe k).callers
    else e.graph.callersOf k
  calleesOf : ∀ k, e'.graph.calleesOf k =
    if k ∈ asked then some (callsExpansion host answer describe k).callees
    else e.graph.calleesOf k
  items : ∀ k, e'.items.lookup k = if k ∈ met then some (describe k) else e.items.lookup k
  expansions : e'.expansions = e.expansions + asked.toFinset.card
  asked_items : ∀ k ∈ asked, k ∈ e.items ∧ e.isExpanded k = false
  asked_met : ∀ k ∈ asked, ∀ n, n ∈ (callsExpansion host answer describe k).callers ++
    (callsExpansion host answer describe k).callees → n ∈ met

variable {met asked : List NodeId}

theorem explored_start (e : Engine S) : Explored host answer describe e [] [] e := by
  refine ⟨?_, ?_, ?_, ?_, ?_, ?_, ?_⟩ <;> simp [exploredNode]

theorem Explored.talk (h : Explored host answer describe e met asked e') (s : S) :
    Explored host answer describe e met asked { e' with server := s } :=
  ⟨h.get, h.callersOf, h.calleesOf, h.items, h.expansions, h.asked_items, h.asked_met⟩

/-- Two engines that know the same are the same, their servers apart. -/
theorem Explored.sameMaps {e₁ e₂ : Engine S} (h₁ : Explored host answer describe e met asked e₁)
    (h₂ : Explored host answer describe e met asked e₂) : SameMaps e₁ e₂ := by
  have hnodes : e₁.graph.nodes = e₂.graph.nodes :=
    Finmap.ext_lookup fun k => (h₁.get k).trans (h₂.get k).symm
  have hcallers : e₁.graph.callers = e₂.graph.callers :=
    Finmap.ext_lookup fun k => (h₁.callersOf k).trans (h₂.callersOf k).symm
  have hcallees : e₁.graph.callees = e₂.graph.callees :=
    Finmap.ext_lookup fun k => (h₁.calleesOf k).trans (h₂.calleesOf k).symm
  refine ⟨?_, Finmap.ext_lookup fun k => (h₁.items k).trans (h₂.items k).symm,
    h₁.expansions.trans h₂.expansions.symm⟩
  obtain ⟨server₁, ⟨nodes₁, callers₁, callees₁⟩, items₁, n₁⟩ := e₁
  obtain ⟨server₂, ⟨nodes₂, callers₂, callees₂⟩, items₂, n₂⟩ := e₂
  obtain rfl : nodes₁ = nodes₂ := hnodes
  obtain rfl : callers₁ = callers₂ := hcallers
  obtain rfl : callees₁ = callees₂ := hcallees
  rfl

/-- Only which ids are in the two lists matters. -/
theorem Explored.congr (h : Explored host answer describe e met asked e')
    {met' asked' : List NodeId} (hm : ∀ k, k ∈ met ↔ k ∈ met')
    (ha : ∀ k, k ∈ asked ↔ k ∈ asked') : Explored host answer describe e met' asked' e' := by
  have hcard : asked.toFinset = asked'.toFinset := by
    ext k
    rw [List.mem_toFinset, List.mem_toFinset]
    exact ha k
  refine ⟨?_, ?_, ?_, ?_, ?_, ?_, ?_⟩
  · intro k
    rw [h.get, exploredNode, exploredNode]
    simp only [hm, ha]
  · intro k
    rw [h.callersOf]
    simp only [ha]
  · intro k
    rw [h.calleesOf]
    simp only [ha]
  · intro k
    rw [h.items]
    simp only [hm]
  · rw [← hcard]
    exact h.expansions
  · exact fun k hk => h.asked_items k ((ha k).mpr hk)
  · exact fun k hk n hn => (hm n).mp (h.asked_met k ((ha k).mpr hk) n hn)

/-- The state of a node is that of the start unless its calls were asked for. -/
theorem Explored.stateOf (h : Explored host answer describe e met asked e') (hi : e.Inv)
    (k : NodeId) : e'.graph.stateOf k =
      if k ∈ asked then some .expanded
      else if k ∈ met then some ((e.graph.stateOf k).getD .unexpanded)
      else e.graph.stateOf k := by
  have hst : e'.graph.stateOf k = (e'.graph.get k).map Node.state := rfl
  rw [hst, h.get, exploredNode]
  by_cases ha : k ∈ asked
  · obtain ⟨n, hn⟩ := (CallGraph.mem_nodes _ _).mp (hi.items_nodes k (h.asked_items k ha).1)
    by_cases hm : k ∈ met <;> simp [ha, hm, hn]
  · by_cases hm : k ∈ met
    · simp [ha, hm, metNode]
    · simp [ha, hm, CallGraph.stateOf]

theorem Explored.isExpanded (h : Explored host answer describe e met asked e') (hi : e.Inv)
    {id : NodeId} (hid : id ∈ e.items) :
    e'.isExpanded id = true ↔ id ∈ asked ∨ e.isExpanded id = true := by
  obtain ⟨st, hst⟩ := (CallGraph.mem_nodes_iff_stateOf _ _).mp (hi.items_nodes id hid)
  rw [isExpanded_iff, isExpanded_iff, h.stateOf hi, hst]
  split_ifs with ha hm <;> simp [ha]

/-- Meeting described items in an answer. -/
theorem Explored.interned (h : Explored host answer describe e met asked e') (hi : e.Inv)
    (hi' : e'.Inv) (items : List CallHierarchyItem)
    (hd : ∀ item ∈ items, item = describe (.fromItem item)) :
    Explored host answer describe e (met ++ items.map .fromItem) asked
      (e'.interned host items) := by
  obtain ⟨hcallers, hcallees⟩ := interned_lists host e' items
  refine ⟨?_, ?_, ?_, ?_, ?_, h.asked_items, ?_⟩
  · intro k
    rw [interned_get items hd hi'.keyed, h.get, metNode, h.stateOf hi]
    unfold exploredNode
    -- an id met again keeps the state it has; one that was asked about is expanded
    by_cases ha : k ∈ asked <;> by_cases hm : k ∈ met <;>
      by_cases hk : k ∈ items.map NodeId.fromItem <;> simp [ha, hm, hk, metNode]
  · intro k
    unfold CallGraph.callersOf
    rw [hcallers]
    exact h.callersOf k
  · intro k
    unfold CallGraph.calleesOf
    rw [hcallees]
    exact h.calleesOf k
  · intro k
    rw [interned_lookup items hd, h.items]
    by_cases hm : k ∈ met <;> by_cases hk : k ∈ items.map NodeId.fromItem <;> simp [hm, hk]
  · rw [interned_expansions]
    exact h.expansions
  · exact fun k hk n hn => List.mem_append_left _ (h.asked_met k hk n hn)

/-- Expanding an id that was not asked about, once the ids in its calls are met. -/
theorem Explored.recordExpansion (h : Explored host answer describe e met asked e') {id : NodeId}
    (hid : id ∈ e.items) (hx : e.isExpanded id = false) (hnew : id ∉ asked)
    (hmet : ∀ n, n ∈ (callsExpansion host answer describe id).callers ++
      (callsExpansion host answer describe id).callees → n ∈ met) :
    Explored host answer describe e met (asked ++ [id])
      (Engine.recordExpansion { e' with expansions := e'.expansions + 1 } id
        (callsExpansion host answer describe id)) := by
  have hmem (k : NodeId) : k ∈ asked ++ [id] ↔ k = id ∨ k ∈ asked := by
    rw [List.mem_append, List.mem_singleton, or_comm]
  refine ⟨?_, ?_, ?_, h.items, ?_, ?_, ?_⟩
  · intro k
    change (e'.graph.recordExpansion id _).get k = _
    rw [CallGraph.get_recordExpansion, h.get, h.get, exploredNode, exploredNode, exploredNode]
    by_cases hk : k = id
    · simp [hk, hmem, hnew]
    · simp [hk, hmem]
  · intro k
    change (e'.graph.recordExpansion id _).callersOf k = _
    rw [CallGraph.callersOf_recordExpansion, h.callersOf]
    by_cases hk : k = id <;> simp [hk, hmem]
  · intro k
    change (e'.graph.recordExpansion id _).calleesOf k = _
    rw [CallGraph.calleesOf_recordExpansion, h.calleesOf]
    by_cases hk : k = id <;> simp [hk, hmem]
  · have hcard : (asked ++ [id]).toFinset.card = asked.toFinset.card + 1 := by
      rw [List.toFinset_append, List.toFinset_cons, List.toFinset_nil, Finset.union_comm,
        Finset.insert_union, Finset.empty_union,
        Finset.card_insert_of_notMem (by rwa [List.mem_toFinset])]
    change e'.expansions + 1 = _
    rw [h.expansions, hcard, Nat.add_assoc]
  · intro k hk
    rcases (hmem k).mp hk with rfl | hk
    · exact ⟨hid, hx⟩
    · exact h.asked_items k hk
  · intro k hk
    rcases (hmem k).mp hk with rfl | hk
    · exact hmet
    · exact h.asked_met k hk

/-- A candidate that resolves once does so at any time, to the same item. -/
theorem seed_resolved (hs : DescribingServer host answer describe) {cand : NamedCallable}
    {id : NodeId} (h : (e.seed host cand).1 = .ok (some id)) :
    ∃ item, item = describe (.fromItem item) ∧ ∀ t : Engine S, t.seedAnswer host cand = [item] ∧
      ∃ s, t.seed host cand =
        (.ok (some (.fromItem item)), interned host { t with server := s } [item]) := by
  unfold seed at h
  cases hp : host.toFilePath cand.uri with
  | none => simp [hp] at h
  | some path =>
    have hprep := hs.prepare path cand.position e.server
    simp only [hp] at h
    generalize prepareCallHierarchy host path cand.position e.server = p at h hprep
    obtain ⟨r, s⟩ := p
    obtain rfl : r = _ := hprep
    cases hr : preparedAt host answer path cand.position with
    | error err =>
      rw [hr] at h
      cases err <;> simp at h
    | ok items =>
      cases items with
      | nil => simp [hr] at h
      | cons item items =>
        refine ⟨item, hs.described_of_prepared hr item List.mem_cons_self, fun t => ?_⟩
        have ht := hs.prepare path cand.position t.server
        unfold seed seedAnswer
        simp only [hp]
        generalize prepareCallHierarchy host path cand.position t.server = p at ht
        obtain ⟨r, s'⟩ := p
        obtain rfl : r = _ := ht
        rw [hr]
        exact ⟨rfl, s', rfl⟩

/-- An expansion that asks gets the server's answers about the id. -/
theorem expand_asked (hs : DescribingServer host answer describe) {id : NodeId}
    (hx : e.isExpanded id = false) (hit : e.items.lookup id = some (describe id)) :
    (e.metIds host (.expand id) = (callsExpansion host answer describe id).callers ++
      (callsExpansion host answer describe id).callees) ∧
    (∀ item ∈ e.expandAnswer host id, item = describe (.fromItem item)) ∧
    ∃ s, e.expand host id = (.ok (callsExpansion host answer describe id),
      { Engine.recordExpansion
          { interned host e (e.expandAnswer host id) with expansions := e.expansions + 1 } id
          (callsExpansion host answer describe id) with server := s }) := by
  have hc := expand_case host e id
  change (e.expandAnswer host id).map NodeId.fromItem = _ ∧ _
  generalize e.expand host id = r, e.expandAnswer host id = items at hc ⊢
  have hin := hs.callsOf "callHierarchy/incomingCalls" "from" id
  have hout := hs.callsOf "callHierarchy/outgoingCalls" "to" id
  cases hc with
  | memo hx' => simp [hx] at hx'
  | noItem _ hn => simp [hit] at hn
  | failed item err s _ hi hf =>
    obtain rfl := Option.some.inj (hit.symm.trans hi)
    rcases hf with hf | hf
    · rw [incomingCalls, hin] at hf
      cases hf
    · rw [outgoingCalls, hout] at hf
      cases hf
  | asked item incoming outgoing s₁ s₂ _ hi h₁ h₂ =>
    obtain rfl := Option.some.inj (hit.symm.trans hi)
    have hin := hin e.server
    have hout := hout s₁
    change (incomingCalls host (describe id) e.server).1 = _ at hin
    change (outgoingCalls host (describe id) s₁).1 = _ at hout
    rw [h₁] at hin
    rw [h₂] at hout
    obtain rfl := Except.ok.inj hin
    obtain rfl := Except.ok.inj hout
    refine ⟨List.map_append, ?_, s₂, ?_⟩
    · intro item hm
      rcases List.mem_append.mp hm with hm | hm
      · exact hs.calling _ item hm
      · exact hs.called _ item hm
    · rw [interned_talk]
      rfl

theorem Inv.perform (h : e.Inv) (op : EngineOp) : Inv (e.perform host op).2 := by
  rw [perform_snd]
  exact h.apply host op

/-- An id that had an item at the start still has one. -/
theorem Explored.item (h : Explored host answer describe e met asked e')
    (hd : e.Described describe) {id : NodeId} (hid : id ∈ e.items) :
    e'.items.lookup id = some (describe id) := by
  obtain ⟨item, hit⟩ := Finmap.mem_iff.mp hid
  rw [h.items, hit, hd id item hit]
  split_ifs <;> rfl

/-- Expanding an id that has an item: from the memo, or by asking. -/
theorem Explored.expand (hs : DescribingServer host answer describe) (hi : e.Inv)
    (hd : e.Described describe) (hi' : e'.Inv)
    (h : Explored host answer describe e met asked e') {id : NodeId} (hid : id ∈ e.items) :
    (e'.expand host id).1 = (e.expand host id).1 ∧
      Explored host answer describe e (met ++ e.metIds host (.expand id))
        (asked ++ e.askedIds (.expand id)) (e'.expand host id).2 := by
  obtain ⟨item, hit⟩ := Finmap.mem_iff.mp hid
  obtain rfl := hd id item hit
  have hit' := h.item hd hid
  cases hx : e.isExpanded id with
  | true =>
    -- expanded before the start: nothing is met, nothing asked
    have hx' := (h.isExpanded hi hid).mpr (.inr hx)
    have hnew : id ∉ asked := fun ha => by simp [(h.asked_items id ha).2] at hx
    have hmet : e.metIds host (.expand id) = [] := by
      simp [metIds, answered, expandAnswer, hx]
    have hasked : e.askedIds (.expand id) = [] := if_pos hx
    rw [hmet, hasked, List.append_nil, List.append_nil]
    unfold Engine.expand
    rw [if_pos hx', if_pos hx, h.callersOf, h.calleesOf, if_neg hnew, if_neg hnew]
    exact ⟨rfl, h⟩
  | false =>
    obtain ⟨hmet, hdesc, s, he⟩ := expand_asked hs hx hit
    have hasked : e.askedIds (.expand id) = [id] := if_neg (by simp [hx])
    rw [hmet, hasked, he]
    by_cases ha : id ∈ asked
    · -- asked about since: the answer is in the memo, and its ids were met then
      have hx' := (h.isExpanded hi hid).mpr (.inl ha)
      unfold Engine.expand
      rw [if_pos hx', h.callersOf, h.calleesOf, if_pos ha, if_pos ha]
      refine ⟨rfl, h.congr (fun k => ?_) fun k => ?_⟩
      · rw [List.mem_append]
        exact (or_iff_left_of_imp (h.asked_met id ha k)).symm
      · rw [List.mem_append, List.mem_singleton]
        exact (or_iff_left_of_imp fun hk => hk ▸ ha).symm
    · have hx' : e'.isExpanded id = false := by
        rw [Bool.eq_false_iff, ne_eq, h.isExpanded hi hid]
        simp [ha, hx]
      obtain ⟨hmet', hdesc', s', he'⟩ := expand_asked hs hx' hit'
      have hstep := h.interned hi hi' (e'.expandAnswer host id) hdesc'
      have hids : (e'.expandAnswer host id).map NodeId.fromItem = _ := hmet'
      rw [hids] at hstep
      have hstep := hstep.recordExpansion hid hx ha fun n hn => List.mem_append_right _ hn
      rw [interned_expansions] at hstep
      rw [he']
      exact ⟨rfl, hstep.talk s'⟩

/-- One operation: it returns what it would have returned at the start, and adds what it would
have added there. -/
theorem Explored.perform (hs : DescribingServer host answer describe) (hi : e.Inv)
    (hd : e.Described describe) (hi' : e'.Inv)
    (h : Explored host answer describe e met asked e') {op : EngineOp}
    (hop : e.Explores host op) :
    (e'.perform host op).1 = (e.perform host op).1 ∧
      Explored host answer describe e (met ++ e.metIds host op) (asked ++ e.askedIds op)
        (e'.perform host op).2 := by
  cases op with
  | seed cand =>
    obtain ⟨id, hseed⟩ := hop
    obtain ⟨item, hdesc, hall⟩ := seed_resolved hs hseed
    obtain ⟨hmet, s, he⟩ := hall e
    obtain ⟨-, s', he'⟩ := hall e'
    have hmet : e.metIds host (.seed cand) = [item].map .fromItem := congrArg _ hmet
    have hstep := (h.talk s').interned hi (hi'.talk s' _) [item] (by simpa using hdesc)
    change OpResult.seeded (e'.seed host cand).1 = OpResult.seeded (e.seed host cand).1 ∧
      Explored host answer describe e _ (asked ++ []) (e'.seed host cand).2
    rw [hmet, he, he', List.append_nil]
    exact ⟨rfl, hstep⟩
  | expand id =>
    obtain ⟨hres, hstep⟩ := h.expand hs hi hd hi' hop
    exact ⟨congrArg OpResult.expanded hres, hstep⟩
  | invalidateFile uri => exact absurd hop id

/-- Operations one after the other. -/
def performAll (host : Host S) (e : Engine S) : List EngineOp → List OpResult × Engine S
  | [] => ([], e)
  | op :: ops =>
    let (r, e) := e.perform host op
    let (rs, e) := performAll host e ops
    (r :: rs, e)

theorem Explored.performAll (hs : DescribingServer host answer describe) (hi : e.Inv)
    (hd : e.Described describe) (ops : List EngineOp) (hops : ∀ op ∈ ops, e.Explores host op)
    (hi' : e'.Inv) (h : Explored host answer describe e met asked e') :
    (e'.performAll host ops).1 = ops.map (fun op => (e.perform host op).1) ∧
      Explored host answer describe e (met ++ ops.flatMap (e.metIds host))
        (asked ++ ops.flatMap e.askedIds) (e'.performAll host ops).2 := by
  induction ops generalizing met asked e' with
  | nil => simpa [Engine.performAll] using h
  | cons op ops ih =>
    obtain ⟨hres, hstep⟩ := h.perform hs hi hd hi' (hops op List.mem_cons_self)
    obtain ⟨hress, hsteps⟩ := ih (fun o ho => hops o (List.mem_cons_of_mem op ho))
      (hi'.perform op) hstep
    rw [List.flatMap_cons, List.flatMap_cons, ← List.append_assoc, ← List.append_assoc,
      List.map_cons, ← hres, ← hress]
    exact ⟨rfl, hsteps⟩

theorem Described.interned (hd : e.Described describe) (items : List CallHierarchyItem)
    (hi : ∀ item ∈ items, item = describe (.fromItem item)) :
    (e.interned host items).Described describe := by
  intro k item hk
  rw [interned_lookup items hi] at hk
  split_ifs at hk
  · exact (Option.some.inj hk).symm
  · exact hd k item hk

theorem Described.seed (hs : DescribingServer host answer describe) (hd : e.Described describe)
    (cand : NamedCallable) : (e.seed host cand).2.Described describe := by
  by_cases hr : ∃ id, (e.seed host cand).1 = .ok (some id)
  · obtain ⟨id, hr⟩ := hr
    obtain ⟨item, hi, hall⟩ := seed_resolved hs hr
    obtain ⟨-, s, he⟩ := hall e
    rw [he]
    have hd' : Described describe { e with server := s } := hd
    exact hd'.interned [item] (by simpa using hi)
  · have hc := seed_case host e cand
    generalize e.seed host cand = r, e.seedAnswer host cand = items at hc hr
    cases hc with
    | resolved item s => exact absurd ⟨_, rfl⟩ hr
    | _ => exact hd

theorem Described.expand (hs : DescribingServer host answer describe) (hd : e.Described describe)
    (id : NodeId) : (e.expand host id).2.Described describe := by
  cases hx : e.isExpanded id with
  | true =>
    unfold Engine.expand
    rw [if_pos hx]
    exact hd
  | false =>
    cases hit : e.items.lookup id with
    | none =>
      unfold Engine.expand
      simp only [hx, hit, Bool.false_eq_true, ↓reduceIte]
      exact hd
    | some item =>
      obtain rfl := hd id item hit
      obtain ⟨-, hdesc, s, he⟩ := expand_asked hs hx hit
      rw [he]
      exact hd.interned _ hdesc

/-- The items of a reachable engine are the server's descriptions. -/
theorem described_of_run (hs : DescribingServer host answer describe) {s : S}
    {h : List (Engine S × EngineOp)} (hr : Run (EngineStep host) (new s) h e) :
    e.Described describe := by
  refine hr.invariant (Described describe) (fun k item hk => absurd hk (by simp [new])) ?_
  rintro e op e' hd rfl
  cases op with
  | seed cand => exact hd.seed hs cand
  | expand id => exact hd.expand hs id
  | invalidateFile uri =>
    intro k item hk
    change (e.invalidateFile uri).items.lookup k = some item at hk
    rw [items_invalidateFile] at hk
    split_ifs at hk
    exact hd k item hk

/-- Exploration order does not matter: with a server that always answers the same, a list of
seeds that resolve and expansions of known ids leads to the same maps in every order, and every
operation returns the same wherever it stands. -/
theorem exploration_order_does_not_matter (hs : DescribingServer host answer describe) {s : S}
    {h : List (Engine S × EngineOp)} (hr : Run (EngineStep host) (new s) h e)
    {ops ops' : List EngineOp} (hops : ∀ op ∈ ops, e.Explores host op) (hp : ops.Perm ops') :
    SameMaps (e.performAll host ops).2 (e.performAll host ops').2 ∧
      (e.performAll host ops).1 = ops.map (fun op => (e.perform host op).1) ∧
      (e.performAll host ops').1 = ops'.map (fun op => (e.perform host op).1) := by
  have hi : e.Inv := inv_of_run host hr
  have hd := described_of_run hs hr
  have hops' : ∀ op ∈ ops', e.Explores host op := fun op ho => hops op (hp.mem_iff.mpr ho)
  obtain ⟨hres, hknown⟩ := (explored_start e).performAll hs hi hd ops hops hi
  obtain ⟨hres', hknown'⟩ := (explored_start e).performAll hs hi hd ops' hops' hi
  refine ⟨hknown.sameMaps (hknown'.congr (fun k => ?_) fun k => ?_), hres, hres'⟩
  · exact (hp.flatMap_right _).symm.mem_iff
  · exact (hp.flatMap_right _).symm.mem_iff

theorem gCallsFHost_describing : DescribingServer gCallsFHost
    (fun method params =>
      if method = "textDocument/prepareCallHierarchy" then itemsAnswer [fItem]
      else gCallsF method (((params.get "item").bind (·.get "name")).bind (·.asStr)))
    (fun id => if id = .fromItem gItem then gItem else fItem) where
  answers method params timeout s := by
    simp only [gCallsFHost, answering]
    split_ifs <;> rfl
  prepared params items h := by
    obtain rfl : [fItem] = items := Except.ok.inj h
    simp [fItem, gItem, sampleItem, NodeId.fromItem]
  calling params item hit := by
    have hg : unwrapCalls gCallsFHost (callsAnswer "from" [gItem]) "from" = [gItem] := rfl
    simp only [gCallsF, String.reduceEq, ↓reduceIte] at hit
    split_ifs at hit
    · rw [hg, List.mem_singleton] at hit
      rw [hit, if_pos rfl]
    · cases hit
  called params item hit := by
    have hf : unwrapCalls gCallsFHost (callsAnswer "to" [fItem]) "to" = [fItem] := rfl
    simp only [gCallsF, String.reduceEq, ↓reduceIte] at hit
    split_ifs at hit
    · rw [hf, List.mem_singleton] at hit
      rw [hit, if_neg (by decide)]
    · cases hit

/-- A second seed of `f` before or after its expansion. -/
theorem exploration_order_does_not_matter_seeded_again :
    ∃ h e, Run (EngineStep gCallsFHost) (new ()) h e ∧ h.length = 1 ∧
      SameMaps (e.performAll gCallsFHost [.seed fSymbol, .expand (.fromItem fItem)]).2
        (e.performAll gCallsFHost [.expand (.fromItem fItem), .seed fSymbol]).2 := by
  have hr := (Run.start (EngineStep gCallsFHost) (new ())).snoc (a := .seed fSymbol) rfl
  refine ⟨_, _, hr, rfl, ?_⟩
  refine (exploration_order_does_not_matter gCallsFHost_describing hr ?_ (.swap _ _ [])).1
  simp only [List.forall_mem_cons, List.not_mem_nil, false_imp_iff, implies_true, and_true]
  refine ⟨⟨.fromItem fItem, by decide⟩, ?_⟩
  change NodeId.fromItem fItem ∈ Engine.items _
  decide

end Engine

end LspGraph
