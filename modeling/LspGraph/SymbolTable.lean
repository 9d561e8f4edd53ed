import LspGraph.Machines
import LspGraph.EngineOrder

/-! What the engine is for, as one table of symbols: how each is shown, what is known of its
calls, and the item to ask about it with. The four maps of the engine behave as this table. -/
namespace LspGraph
open FiniteMaps Machines

/-- What is known of the calls of a symbol. -/
inductive Knowledge where
  | unresolved (reason : UnresolvedReason)
  | unasked
  | asked (exp : Expansion)

/-- What is left of it when the symbols of a file are forgotten. -/
def Knowledge.without (uri : String) : Knowledge → Knowledge
  | .asked exp => .asked ⟨exp.callers.filter fun n => n.uri ≠ uri,
      exp.callees.filter fun n => n.uri ≠ uri⟩
  | known => known

structure SymbolEntry where
  kindName : String
  detail : Option String
  knowledge : Knowledge
  item : Option CallHierarchyItem

/-- The table, the server the symbols are from, and how often it was asked about calls. -/
structure SymbolTable (S : Type*) where
  server : S
  symbols : FMap NodeId SymbolEntry
  expansions : Nat

variable {S : Type*} (host : Host S)

namespace SymbolTable

def start (server : S) : SymbolTable S := ⟨server, ∅, 0⟩

/-- Describe a symbol, new or known: what is known of its calls stays. -/
def describe (t : SymbolTable S) (id : NodeId) (entry : SymbolEntry) : SymbolTable S :=
  let old := t.symbols.lookup id
  { t with symbols := t.symbols.insert id { entry with
      knowledge := (old.map (·.knowledge)).getD entry.knowledge
      item := entry.item.or (old.bind (·.item)) } }

/-- The server gave an item. -/
def meet (t : SymbolTable S) (item : CallHierarchyItem) : SymbolTable S :=
  t.describe (.fromItem item) ⟨host.kindName item.kind, item.detail, .unasked, some item⟩

/-- The server gave nothing for a candidate. -/
def miss (t : SymbolTable S) (cand : NamedCallable) (reason : UnresolvedReason) : SymbolTable S :=
  t.describe (Engine.unresolvedId cand) ⟨"Unknown", none, .unresolved reason, none⟩

/-- The server told the calls of a symbol. -/
def learn (t : SymbolTable S) (id : NodeId) (exp : Expansion) : SymbolTable S :=
  match t.symbols.lookup id with
  | none => t
  | some entry => { t with symbols := t.symbols.insert id { entry with knowledge := .asked exp } }

/-- Forget the symbols of a file, also where they are listed. -/
def invalidateFile (t : SymbolTable S) (uri : String) : SymbolTable S :=
  let kept := retain (fun k _ => k.uri ≠ uri) t.symbols
  let forget (entry : SymbolEntry) := { entry with knowledge := entry.knowledge.without uri }
  { t with symbols := mapValues (fun _ entry => forget entry) kept }

def seed (t : SymbolTable S) (cand : NamedCallable) : Result (Option NodeId) × SymbolTable S :=
  match host.toFilePath cand.uri with
  | none => (.ok none, t)
  | some path =>
    match prepareCallHierarchy host path cand.position t.server with
    | (.error (.contentModified _), s) =>
      (.ok none, { t.miss cand .transientContentModified with server := s })
    | (.error err, s) => (.error err, { t with server := s })
    | (.ok [], s) => (.ok none, { t.miss cand .noCallHierarchyItem with server := s })
    | (.ok (item :: _), s) => (.ok (some (.fromItem item)), meet host { t with server := s } item)

/-- Ask the server about the calls of a symbol, and remember what it tells. -/
def ask (t : SymbolTable S) (id : NodeId) (item : CallHierarchyItem) :
    Result Expansion × SymbolTable S :=
  match incomingCalls host item t.server with
  | (.error err, s) => (.error err, { t with server := s })
  | (.ok incoming, s) =>
    match outgoingCalls host item s with
    | (.error err, s) => (.error err, { t with server := s })
    | (.ok outgoing, s) =>
      let exp := ⟨incoming.map .fromItem, outgoing.map .fromItem⟩
      let t := (incoming ++ outgoing).foldl (meet host)
        { t with server := s, expansions := t.expansions + 1 }
      (.ok exp, t.learn id exp)

/-- The calls of a symbol: as remembered, or as the server tells; none for a symbol without an
item to ask with. -/
def expand (t : SymbolTable S) (id : NodeId) : Result Expansion × SymbolTable S :=
  match t.symbols.lookup id with
  | none => (.ok ⟨[], []⟩, t)
  | some entry =>
    match entry.knowledge, entry.item with
    | .asked exp, _ => (.ok exp, t)
    | _, none => (.ok ⟨[], []⟩, t)
    | _, some item => ask host t id item

/-- An operation with its result. -/
def perform (t : SymbolTable S) : EngineOp → OpResult × SymbolTable S
  | .seed cand => (.seeded (t.seed host cand).1, (t.seed host cand).2)
  | .expand id => (.expanded (t.expand host id).1, (t.expand host id).2)
  | .invalidateFile uri => (.invalidated, t.invalidateFile uri)

end SymbolTable

namespace Engine

/-- What the engine knows of the calls of a node in this state. -/
def knowledgeOf (e : Engine S) (id : NodeId) : NodeState → Knowledge
  | .unresolved reason => .unresolved reason
  | .unexpanded => .unasked
  | .expanded => .asked ⟨(e.graph.callersOf id).getD [], (e.graph.calleesOf id).getD []⟩

def entryOf (e : Engine S) (id : NodeId) (n : Node) : SymbolEntry :=
  ⟨n.kindName, n.detail, e.knowledgeOf id n.state, e.items.lookup id⟩

/-- The table that the maps of the engine stand for. -/
def table (e : Engine S) : SymbolTable S :=
  ⟨e.server, mapValues e.entryOf e.graph.nodes, e.expansions⟩

variable {host} {e : Engine S}

theorem table_lookup (e : Engine S) (k : NodeId) :
    e.table.symbols.lookup k = (e.graph.get k).map (e.entryOf k) :=
  lookup_mapValues e.entryOf k e.graph.nodes

theorem table_ext {t t' : SymbolTable S} (hs : t.server = t'.server)
    (hl : ∀ k, t.symbols.lookup k = t'.symbols.lookup k) (hn : t.expansions = t'.expansions) :
    t = t' := by
  obtain ⟨server, symbols, n⟩ := t
  obtain ⟨server', symbols', n'⟩ := t'
  obtain rfl : server = server' := hs
  obtain rfl : n = n' := hn
  obtain rfl : symbols = symbols' := Finmap.ext_lookup hl
  rfl

theorem lookup_describe (t : SymbolTable S) (id : NodeId) (entry : SymbolEntry) (k : NodeId) :
    (t.describe id entry).symbols.lookup k =
      if k = id then some { entry with
        knowledge := ((t.symbols.lookup id).map (·.knowledge)).getD entry.knowledge
        item := entry.item.or ((t.symbols.lookup id).bind (·.item)) }
      else t.symbols.lookup k :=
  lookup_insert_ite k id _ t.symbols

theorem knowledgeOf_congr {e e' : Engine S} (hcallers : e'.graph.callers = e.graph.callers)
    (hcallees : e'.graph.callees = e.graph.callees) (k : NodeId) (st : NodeState) :
    e'.knowledgeOf k st = e.knowledgeOf k st := by
  cases st <;> simp only [knowledgeOf, CallGraph.callersOf, CallGraph.calleesOf, hcallers, hcallees]

/-- Inserting a node that is not expanded, with or without an item, describes its symbol. -/
theorem table_upsert {e e' : Engine S} (node : Node) (it : Option CallHierarchyItem)
    (hg : e'.graph = e.graph.upsert node)
    (hi : ∀ k, e'.items.lookup k =
      if k = node.id then it.or (e.items.lookup k) else e.items.lookup k)
    (hnew : e.graph.get node.id = none → e.items.lookup node.id = none) (k : NodeId) :
    e'.table.symbols.lookup k = (e.table.describe node.id
      ⟨node.kindName, node.detail, e.knowledgeOf node.id node.state, it⟩).symbols.lookup k := by
  have hknown (st : NodeState) : e'.knowledgeOf k st = e.knowledgeOf k st :=
    knowledgeOf_congr (hg ▸ CallGraph.upsert_callers _ _) (hg ▸ CallGraph.upsert_callees _ _) k st
  rw [table_lookup, lookup_describe, hg, CallGraph.get_upsert]
  split_ifs with hk
  · subst hk
    simp only [Option.map_some, entryOf, hknown, hi, if_pos, table_lookup]
    cases hn : e.graph.get node.id with
    | none => simp [hnew hn]
    | some n => simp [entryOf]
  · rw [table_lookup]
    cases e.graph.get k with
    | none => rfl
    | some n => simp [hknown, entryOf, hi, hk]

theorem Inv.lookup_of_get_none (h : e.Inv) (k : NodeId) (hk : e.graph.get k = none) :
    e.items.lookup k = none := by
  refine Finmap.lookup_eq_none.mpr fun hm => ?_
  obtain ⟨n, hn⟩ := (CallGraph.mem_nodes _ k).mp (h.items_nodes k hm)
  rw [hk] at hn
  cases hn

theorem Inv.table_intern (h : e.Inv) (item : CallHierarchyItem) :
    (intern host e item).2.table = e.table.meet host item := by
  refine table_ext rfl (table_upsert (itemNode host item) (some item) rfl ?_ ?_) rfl
  · exact fun k => lookup_insert_ite k _ item e.items
  · exact h.lookup_of_get_none _

variable (host) in
theorem Inv.table_interned (h : e.Inv) (items : List CallHierarchyItem) :
    (e.interned host items).table = items.foldl (SymbolTable.meet host) e.table := by
  induction items generalizing e with
  | nil => rfl
  | cons item items ih =>
    have hi : Inv (intern host e item).2 := h.interned host [item]
    change ((intern host e item).2.interned host items).table = _
    rw [ih hi, h.table_intern, List.foldl_cons]

theorem Inv.table_record (h : e.Inv) (cand : NamedCallable) (reason : UnresolvedReason) :
    (e.record (unresolvedNode cand reason)).table = e.table.miss cand reason := by
  refine table_ext rfl (table_upsert (unresolvedNode cand reason) none rfl ?_ ?_) rfl
  · intro k
    rw [Option.none_or, ite_self]
    rfl
  · exact h.lookup_of_get_none _

theorem table_recordExpansion (e : Engine S) (id : NodeId) (exp : Expansion) :
    (e.recordExpansion id exp).table = e.table.learn id exp := by
  have hlearn (k : NodeId) : (e.table.learn id exp).symbols.lookup k =
      if k = id then
        (e.table.symbols.lookup id).map fun entry => { entry with knowledge := .asked exp }
      else e.table.symbols.lookup k := by
    unfold SymbolTable.learn
    cases hn : e.table.symbols.lookup id with
    | none =>
      split_ifs with hk
      · rw [hk, hn]
        rfl
      · rfl
    | some entry => exact lookup_insert_ite k id _ e.table.symbols
  have htalk : (e.table.learn id exp).server = e.server ∧
      (e.table.learn id exp).expansions = e.expansions := by
    unfold SymbolTable.learn
    split <;> exact ⟨rfl, rfl⟩
  have hcallers := CallGraph.callersOf_recordExpansion e.graph id exp
  have hcallees := CallGraph.calleesOf_recordExpansion e.graph id exp
  refine table_ext htalk.1.symm (fun k => ?_) htalk.2.symm
  rw [hlearn, table_lookup, table_lookup, table_lookup]
  change ((e.graph.recordExpansion id exp).get k).map _ = _
  rw [CallGraph.get_recordExpansion]
  split_ifs with hk
  · subst hk
    cases e.graph.get k with
    | none => rfl
    | some n => simp [entryOf, knowledgeOf, recordExpansion, hcallers, hcallees]
  · cases e.graph.get k with
    | none => rfl
    | some n =>
      cases n.state <;>
        simp [entryOf, knowledgeOf, recordExpansion, hcallers, hcallees, hk]

theorem table_invalidateFile (e : Engine S) (uri : String) :
    (e.invalidateFile uri).table = e.table.invalidateFile uri := by
  refine table_ext rfl (fun k => ?_) rfl
  have hitem := items_invalidateFile e uri k
  have hright : (e.table.invalidateFile uri).symbols.lookup k =
      (if k.uri ≠ uri then e.table.symbols.lookup k else none).map fun entry =>
        { entry with knowledge := entry.knowledge.without uri } := by
    unfold SymbolTable.invalidateFile
    dsimp only
    rw [lookup_mapValues, lookup_retain_key fun k : NodeId => decide (k.uri ≠ uri)]
    simp only [decide_eq_true_eq]
  rw [hright, table_lookup, table_lookup]
  change ((e.graph.removeFile uri).get k).map _ = _
  rw [CallGraph.get_removeFile]
  by_cases hk : k.uri = uri
  · simp [hk]
  · have hcallers := CallGraph.callersOf_removeFile e.graph uri k hk
    have hcallees := CallGraph.calleesOf_removeFile e.graph uri k hk
    rw [if_neg hk, if_pos hk]
    cases e.graph.get k with
    | none => rfl
    | some n =>
      have hknown : (e.invalidateFile uri).knowledgeOf k n.state =
          (e.knowledgeOf k n.state).without uri := by
        cases n.state with
        | expanded =>
          simp only [knowledgeOf, Knowledge.without]
          change Knowledge.asked ⟨((e.graph.removeFile uri).callersOf k).getD [],
            ((e.graph.removeFile uri).calleesOf k).getD []⟩ = _
          rw [hcallers, hcallees]
          cases e.graph.callersOf k <;> cases e.graph.calleesOf k <;> rfl
        | _ => rfl
      simp [entryOf, hknown, hitem, hk]

theorem table_server (e : Engine S) : e.table.server = e.server := rfl

/-- A seed does to the table what the table's own seed does. -/
theorem Inv.table_seed (h : e.Inv) (cand : NamedCallable) :
    (e.seed host cand).1 = (e.table.seed host cand).1 ∧
      (e.seed host cand).2.table = (e.table.seed host cand).2 := by
  have htalk (s : S) : Inv { e with server := s } := h.talk s _
  unfold Engine.seed SymbolTable.seed
  rw [table_server]
  cases host.toFilePath cand.uri with
  | none => exact ⟨rfl, rfl⟩
  | some path =>
    dsimp only
    rcases prepareCallHierarchy host path cand.position e.server with ⟨r | items, s⟩
    · cases r with
      | contentModified => exact ⟨rfl, (htalk s).table_record cand .transientContentModified⟩
      | _ => exact ⟨rfl, rfl⟩
    · cases items with
      | nil => exact ⟨rfl, (htalk s).table_record cand .noCallHierarchyItem⟩
      | cons item items => exact ⟨rfl, (htalk s).table_intern item⟩

/-- The table asks about a symbol it has an item for, unless it knows the answer. -/
theorem expand_of_not_asked {t : SymbolTable S} {id : NodeId} {entry : SymbolEntry}
    (hl : t.symbols.lookup id = some entry) (hk : ∀ exp, entry.knowledge ≠ .asked exp) :
    t.expand host id = match entry.item with
      | none => (.ok ⟨[], []⟩, t)
      | some item => t.ask host id item := by
  obtain ⟨kindName, detail, knowledge, item⟩ := entry
  unfold SymbolTable.expand
  rw [hl]
  cases knowledge with
  | asked exp => exact absurd rfl (hk exp)
  | _ => cases item <;> rfl

/-- Asking the server does to the table what the table's own asking does. -/
theorem Inv.table_ask (h : e.Inv) {id : NodeId} {item : CallHierarchyItem}
    (hx : e.isExpanded id = false) (hi : e.items.lookup id = some item) :
    (e.expand host id).1 = (e.table.ask host id item).1 ∧
      (e.expand host id).2.table = (e.table.ask host id item).2 := by
  unfold Engine.expand SymbolTable.ask
  rw [table_server]
  simp only [hx, hi, Bool.false_eq_true, ↓reduceIte]
  rcases incomingCalls host item e.server with ⟨r₁ | incoming, s₁⟩
  · exact ⟨rfl, rfl⟩
  dsimp only
  rcases outgoingCalls host item s₁ with ⟨r₂ | outgoing, s₂⟩
  · exact ⟨rfl, rfl⟩
  dsimp only
  have hmet := (h.talk s₂ (e.expansions + 1)).table_interned host (incoming ++ outgoing)
  rw [← interned_append] at hmet
  simp only [internAll_ids]
  refine ⟨trivial, ?_⟩
  rw [table_recordExpansion]
  exact congrArg (SymbolTable.learn · id _) hmet

/-- Expanding: from memory, for want of an item, or by asking. -/
theorem Inv.table_expand (h : e.Inv) (id : NodeId) :
    (e.expand host id).1 = (e.table.expand host id).1 ∧
      (e.expand host id).2.table = (e.table.expand host id).2 := by
  have hx := isExpanded_iff e id
  have hstate : e.graph.stateOf id = (e.graph.get id).map (·.state) := rfl
  have hlookup := table_lookup e id
  have hnone (hx : e.isExpanded id = false) (hi : e.items.lookup id = none) :
      e.expand host id = (.ok ⟨[], []⟩, e) := by
    unfold Engine.expand
    simp only [hx, hi, Bool.false_eq_true, ↓reduceIte]
  cases hn : e.graph.get id with
  -- a symbol that is not in the table has no item
  | none =>
    rw [hstate, hn] at hx
    rw [hn] at hlookup
    rw [hnone (by simpa using hx) (h.lookup_of_get_none id hn), SymbolTable.expand, hlookup]
    exact ⟨rfl, rfl⟩
  | some n =>
    rw [hstate, hn, Option.map_some] at hx
    rw [hn, Option.map_some] at hlookup
    by_cases hst : n.state = .expanded
    · rw [SymbolTable.expand, hlookup, Engine.expand, if_pos (hx.mpr (congrArg some hst))]
      simp only [entryOf, knowledgeOf, hst]
      exact ⟨trivial, trivial⟩
    · have hx : e.isExpanded id = false := by
        rw [← Bool.not_eq_true, hx]
        exact fun h => hst (Option.some.inj h)
      have hk (exp : Expansion) : e.knowledgeOf id n.state ≠ .asked exp := by
        cases hs : n.state with
        | expanded => exact absurd hs hst
        | _ => exact Knowledge.noConfusion
      rw [expand_of_not_asked hlookup hk]
      cases hi : e.items.lookup id with
      | none =>
        simp only [entryOf, hi, hnone hx hi]
        exact ⟨trivial, trivial⟩
      | some item =>
        simp only [entryOf, hi]
        exact h.table_ask hx hi

theorem Inv.table_perform (h : e.Inv) (op : EngineOp) :
    (e.perform host op).1 = (e.table.perform host op).1 ∧
      (e.perform host op).2.table = (e.table.perform host op).2 := by
  cases op with
  | seed cand => exact (h.table_seed cand).imp_left (congrArg OpResult.seeded)
  | expand id => exact (h.table_expand id).imp_left (congrArg OpResult.expanded)
  | invalidateFile uri => exact ⟨rfl, table_invalidateFile e uri⟩

/-- An entry of the table tells the node. -/
theorem Inv.node_eq {e' : Engine S} (h : e.Inv) (h' : e'.Inv) {k : NodeId} {n n' : Node}
    (hn : e.graph.get k = some n) (hn' : e'.graph.get k = some n')
    (he : e.entryOf k n = e'.entryOf k n') : n = n' := by
  have hstate : n.state = n'.state := by
    have hk : e.knowledgeOf k n.state = e'.knowledgeOf k n'.state :=
      congrArg SymbolEntry.knowledge he
    cases hs : n.state <;> cases hs' : n'.state <;> rw [hs, hs'] at hk <;>
      first | rfl | cases hk
    rfl
  obtain ⟨id, kindName, detail, state⟩ := n
  obtain ⟨id', kindName', detail', state'⟩ := n'
  obtain rfl : id = k := h.keyed k _ hn
  obtain rfl : id' = id := h'.keyed id _ hn'
  obtain rfl : kindName = kindName' := congrArg SymbolEntry.kindName he
  obtain rfl : detail = detail' := congrArg SymbolEntry.detail he
  obtain rfl : state = state' := hstate
  rfl

/-- The table says everything: engines whose maps agree and that stand for one table are one. -/
theorem Inv.eq_of_table_eq {e' : Engine S} (h : e.Inv) (h' : e'.Inv)
    (ht : e.table = e'.table) : e = e' := by
  have hentry (k : NodeId) : (e.graph.get k).map (e.entryOf k) =
      (e'.graph.get k).map (e'.entryOf k) := by
    rw [← table_lookup, ← table_lookup, ht]
  have hget (k : NodeId) : e.graph.get k = e'.graph.get k := by
    have hk := hentry k
    cases hn : e.graph.get k with
    | none =>
      rw [hn] at hk
      exact (Option.map_eq_none_iff.mp hk.symm).symm
    | some n =>
      rw [hn] at hk
      obtain ⟨n', hn', he⟩ := Option.map_eq_some_iff.mp hk.symm
      rw [hn', h.node_eq h' hn hn' he.symm]
  have hitems (k : NodeId) : e.items.lookup k = e'.items.lookup k := by
    have hk := hentry k
    rw [← hget k] at hk
    cases hn : e.graph.get k with
    | none => rw [h.lookup_of_get_none k hn, h'.lookup_of_get_none k ((hget k).symm.trans hn)]
    | some n =>
      rw [hn] at hk
      exact congrArg SymbolEntry.item (Option.some.inj hk)
  have hlists (k : NodeId) : e.graph.callersOf k = e'.graph.callersOf k ∧
      e.graph.calleesOf k = e'.graph.calleesOf k := by
    have hst' : e'.graph.stateOf k = e.graph.stateOf k := congrArg _ (hget k).symm
    by_cases hst : e.graph.stateOf k = some .expanded
    · obtain ⟨exp, hm⟩ := h.exists_memoized hst
      obtain ⟨exp', hm'⟩ := h'.exists_memoized (hst'.trans hst)
      obtain ⟨n, hn, hs⟩ := Option.map_eq_some_iff.mp hst
      have hk := hentry k
      rw [← hget k, hn] at hk
      have hk := congrArg SymbolEntry.knowledge (Option.some.inj hk)
      simp only [entryOf, knowledgeOf, hs, hm.callers, hm.callees, hm'.callers, hm'.callees,
        Option.getD_some] at hk
      have hexp := Knowledge.asked.inj hk
      rw [hm.callers, hm.callees, hm'.callers, hm'.callees]
      exact ⟨congrArg (some ·.callers) hexp, congrArg (some ·.callees) hexp⟩
    · have hnone := h.lists_of_not_expanded hst
      have hnone' := h'.lists_of_not_expanded (hst'.symm ▸ hst)
      exact ⟨hnone.1.trans hnone'.1.symm, hnone.2.trans hnone'.2.symm⟩
  obtain ⟨server, ⟨nodes, callers, callees⟩, items, n⟩ := e
  obtain ⟨server', ⟨nodes', callers', callees'⟩, items', n'⟩ := e'
  obtain rfl : server = server' := congrArg SymbolTable.server ht
  obtain rfl : n = n' := congrArg SymbolTable.expansions ht
  obtain rfl : nodes = nodes' := Finmap.ext_lookup hget
  obtain rfl : callers = callers' := Finmap.ext_lookup fun k => (hlists k).1
  obtain rfl : callees = callees' := Finmap.ext_lookup fun k => (hlists k).2
  obtain rfl : items = items' := Finmap.ext_lookup hitems
  rfl

theorem performAll_eq (e : Engine S) (ops : List EngineOp) :
    e.performAll host ops = runAll (perform host) e ops := by
  induction ops generalizing e with
  | nil => rfl
  | cons op ops ih =>
    rw [performAll, runAll, ← ih]

end Engine

end LspGraph
