import LspGraph.FiniteMaps
import LspGraph.LspTypes

/-! The call graph: identity, nodes, edges, and per-file invalidation (`graph.rs`). -/
namespace LspGraph
open FiniteMaps

/-- Identity is (uri, selectionRange.start, name). -/
structure NodeId where
  uri : String
  line : UInt32
  character : UInt32
  name : String
  deriving DecidableEq, Repr

def NodeId.fromItem (item : CallHierarchyItem) : NodeId where
  uri := item.uri.serialization
  line := item.selectionRange.start.line
  character := item.selectionRange.start.character
  name := item.name

inductive UnresolvedReason where
  | noCallHierarchyItem
  | transientContentModified
  deriving DecidableEq, Repr

def UnresolvedReason.toString : UnresolvedReason → String
  | .noCallHierarchyItem =>
    "no call hierarchy: likely an overload signature or an anonymous function"
  | .transientContentModified =>
    "server repeatedly reported content modified; the symbol may resolve on a later attempt"

inductive NodeState where
  | unexpanded
  | expanded
  | unresolved (reason : UnresolvedReason)
  deriving DecidableEq, Repr

structure Node where
  id : NodeId
  kindName : String
  detail : Option String
  state : NodeState
  deriving DecidableEq, Repr

structure Expansion where
  callers : List NodeId
  callees : List NodeId
  deriving DecidableEq, Repr

structure CallGraph where
  nodes : FMap NodeId Node
  callers : FMap NodeId (List NodeId)
  callees : FMap NodeId (List NodeId)
  deriving DecidableEq

namespace CallGraph

def new : CallGraph := ⟨∅, ∅, ∅⟩

def len (g : CallGraph) : Nat := g.nodes.keys.card

/-- Insert a node, preserving the existing state if already present. -/
def upsert (g : CallGraph) (node : Node) : CallGraph :=
  match g.nodes.lookup node.id with
  | some existing =>
    -- the state is kept: an expanded node stays so when another expansion lists it
    let merged := { existing with kindName := node.kindName, detail := node.detail }
    { g with nodes := g.nodes.insert node.id merged }
  | none => { g with nodes := g.nodes.insert node.id node }

def get (g : CallGraph) (id : NodeId) : Option Node := g.nodes.lookup id

def setState (g : CallGraph) (id : NodeId) (state : NodeState) : CallGraph :=
  match g.nodes.lookup id with
  | some n => { g with nodes := g.nodes.insert id { n with state := state } }
  | none => g

def recordExpansion (g : CallGraph) (id : NodeId) (exp : Expansion) : CallGraph :=
  setState { g with callers := g.callers.insert id exp.callers,
                    callees := g.callees.insert id exp.callees } id .expanded

def callersOf (g : CallGraph) (id : NodeId) : Option (List NodeId) := g.callers.lookup id

def calleesOf (g : CallGraph) (id : NodeId) : Option (List NodeId) := g.callees.lookup id

/-- The keys with this uri, as a set: the code gives them in the map's iteration order. -/
def nodesInFile (g : CallGraph) (uri : String) : Finset NodeId :=
  g.nodes.keys.filter fun k => k.uri = uri

/-- An edited file invalidates all of its nodes wholesale; then dangling references are dropped
from the lists of the surviving nodes. -/
def removeFile (g : CallGraph) (uri : String) : CallGraph where
  nodes := retain (fun k _ => k ∉ g.nodesInFile uri) g.nodes
  callers := mapValues (fun _ l => l.filter fun n => n.uri ≠ uri)
    (retain (fun k _ => k ∉ g.nodesInFile uri) g.callers)
  callees := mapValues (fun _ l => l.filter fun n => n.uri ≠ uri)
    (retain (fun k _ => k ∉ g.nodesInFile uri) g.callees)

def stateOf (g : CallGraph) (id : NodeId) : Option NodeState := (g.get id).map (·.state)

/-- The expansion is in the memo under the id. -/
structure Memoized (g : CallGraph) (id : NodeId) (exp : Expansion) : Prop where
  expanded : g.stateOf id = some .expanded
  callers : g.callersOf id = some exp.callers
  callees : g.calleesOf id = some exp.callees

/-- What a node is shown with: its kind and its detail. -/
def descriptionOf (g : CallGraph) (id : NodeId) : Option (String × Option String) :=
  (g.get id).map fun n => (n.kindName, n.detail)

/-- Every node is stored under its own id. -/
def Keyed (g : CallGraph) : Prop := ∀ k n, g.get k = some n → n.id = k

theorem Memoized.unique {g : CallGraph} {id : NodeId} {exp exp' : Expansion}
    (h : g.Memoized id exp) (h' : g.Memoized id exp') : exp = exp' := by
  have hcallers : exp.callers = exp'.callers := Option.some.inj (h.callers.symm.trans h'.callers)
  have hcallees : exp.callees = exp'.callees := Option.some.inj (h.callees.symm.trans h'.callees)
  cases exp
  cases exp'
  simp_all

variable (g : CallGraph)

theorem mem_nodes (k : NodeId) : k ∈ g.nodes ↔ ∃ n, g.get k = some n := Finmap.mem_iff

theorem mem_nodes_iff_stateOf (k : NodeId) : k ∈ g.nodes ↔ ∃ st, g.stateOf k = some st := by
  simp [mem_nodes, stateOf]

@[simp] theorem upsert_callers (node : Node) : (g.upsert node).callers = g.callers := by
  unfold upsert
  split <;> rfl

@[simp] theorem upsert_callees (node : Node) : (g.upsert node).callees = g.callees := by
  unfold upsert
  split <;> rfl

theorem get_upsert (node : Node) (k : NodeId) : (g.upsert node).get k =
    if k = node.id then
      some (((g.get node.id).map fun existing =>
        { existing with kindName := node.kindName, detail := node.detail }).getD node)
    else g.get k := by
  unfold upsert get
  cases h : g.nodes.lookup node.id <;> simp only [lookup_insert_ite] <;> rfl

theorem stateOf_upsert (node : Node) (k : NodeId) : (g.upsert node).stateOf k =
    if k = node.id then some ((g.stateOf node.id).getD node.state) else g.stateOf k := by
  unfold stateOf
  rw [get_upsert]
  split_ifs
  · cases g.get node.id <;> rfl
  · rfl

/-- The description is overwritten, whoever described the node before. -/
theorem descriptionOf_upsert (node : Node) (k : NodeId) : (g.upsert node).descriptionOf k =
    if k = node.id then some (node.kindName, node.detail) else g.descriptionOf k := by
  unfold descriptionOf
  rw [get_upsert]
  split_ifs
  · cases g.get node.id <;> rfl
  · rfl

theorem mem_upsert (node : Node) (k : NodeId) :
    k ∈ (g.upsert node).nodes ↔ k = node.id ∨ k ∈ g.nodes := by
  rw [mem_nodes, get_upsert, mem_nodes]
  split_ifs with hk <;> simp [hk]

theorem keyed_upsert (node : Node) (h : g.Keyed) : (g.upsert node).Keyed := by
  intro k n hn
  rw [get_upsert] at hn
  split_ifs at hn with hk
  · obtain rfl := Option.some.inj hn
    cases he : g.get node.id with
    | none => exact hk.symm
    | some existing => exact (h _ _ he).trans hk.symm
  · exact h k n hn

theorem get_setState (id : NodeId) (state : NodeState) (k : NodeId) :
    (g.setState id state).get k =
      if k = id then (g.get id).map fun n => { n with state := state } else g.get k := by
  unfold setState get
  cases h : g.nodes.lookup id with
  | none =>
    split_ifs with hk
    · rw [hk]
      exact h
    · rfl
  | some n => exact lookup_insert_ite k id _ g.nodes

@[simp] theorem setState_callers (id : NodeId) (state : NodeState) :
    (g.setState id state).callers = g.callers := by
  unfold setState
  split <;> rfl

@[simp] theorem setState_callees (id : NodeId) (state : NodeState) :
    (g.setState id state).callees = g.callees := by
  unfold setState
  split <;> rfl

theorem get_recordExpansion (id : NodeId) (exp : Expansion) (k : NodeId) :
    (g.recordExpansion id exp).get k =
      if k = id then (g.get id).map fun n => { n with state := .expanded } else g.get k :=
  get_setState _ id .expanded k

theorem stateOf_recordExpansion (id : NodeId) (exp : Expansion) (k : NodeId) :
    (g.recordExpansion id exp).stateOf k =
      if k = id then (g.stateOf id).map fun _ => .expanded else g.stateOf k := by
  unfold stateOf
  rw [get_recordExpansion]
  split_ifs
  · cases g.get id <;> rfl
  · rfl

theorem descriptionOf_recordExpansion (id : NodeId) (exp : Expansion) (k : NodeId) :
    (g.recordExpansion id exp).descriptionOf k = g.descriptionOf k := by
  unfold descriptionOf
  rw [get_recordExpansion]
  split_ifs with hk
  · rw [hk]
    cases g.get id <;> rfl
  · rfl

theorem mem_recordExpansion (id : NodeId) (exp : Expansion) (k : NodeId) :
    k ∈ (g.recordExpansion id exp).nodes ↔ k ∈ g.nodes := by
  rw [mem_nodes, get_recordExpansion, mem_nodes]
  split_ifs with hk <;> simp [hk]

theorem keyed_recordExpansion (id : NodeId) (exp : Expansion) (h : g.Keyed) :
    (g.recordExpansion id exp).Keyed := by
  intro k n hn
  rw [get_recordExpansion] at hn
  split_ifs at hn with hk
  · obtain ⟨m, hm, rfl⟩ := Option.map_eq_some_iff.mp hn
    exact (h _ _ hm).trans hk.symm
  · exact h k n hn

theorem callersOf_recordExpansion (id : NodeId) (exp : Expansion) (k : NodeId) :
    (g.recordExpansion id exp).callersOf k =
      if k = id then some exp.callers else g.callersOf k := by
  unfold callersOf recordExpansion
  rw [setState_callers]
  exact lookup_insert_ite k id _ g.callers

theorem calleesOf_recordExpansion (id : NodeId) (exp : Expansion) (k : NodeId) :
    (g.recordExpansion id exp).calleesOf k =
      if k = id then some exp.callees else g.calleesOf k := by
  unfold calleesOf recordExpansion
  rw [setState_callees]
  exact lookup_insert_ite k id _ g.callees

theorem mem_nodesInFile (uri : String) (k : NodeId) :
    k ∈ g.nodesInFile uri ↔ k ∈ g.nodes ∧ k.uri = uri := by
  simp [nodesInFile, Finmap.mem_keys]

theorem get_removeFile (uri : String) (k : NodeId) :
    (g.removeFile uri).get k = if k.uri = uri then none else g.get k := by
  unfold removeFile get
  rw [lookup_retain_key (fun k => decide (k ∉ g.nodesInFile uri))]
  simp only [decide_eq_true_eq, mem_nodesInFile]
  by_cases hk : k.uri = uri
  · -- the keys removed are those of the nodes: without a node there is nothing to remove
    by_cases hm : k ∈ g.nodes
    · simp [hk, hm]
    · simp [hk, Finmap.lookup_eq_none.mpr hm]
  · simp [hk]

theorem stateOf_removeFile (uri : String) (k : NodeId) :
    (g.removeFile uri).stateOf k = if k.uri = uri then none else g.stateOf k := by
  unfold stateOf
  rw [get_removeFile]
  split_ifs <;> rfl

theorem descriptionOf_removeFile (uri : String) (k : NodeId) :
    (g.removeFile uri).descriptionOf k = if k.uri = uri then none else g.descriptionOf k := by
  unfold descriptionOf
  rw [get_removeFile]
  split_ifs <;> rfl

theorem mem_removeFile (uri : String) (k : NodeId) :
    k ∈ (g.removeFile uri).nodes ↔ k.uri ≠ uri ∧ k ∈ g.nodes := by
  rw [mem_nodes, get_removeFile, mem_nodes]
  split_ifs with hk <;> simp [hk]

theorem keyed_removeFile (uri : String) (h : g.Keyed) : (g.removeFile uri).Keyed := by
  intro k n hn
  rw [get_removeFile] at hn
  split_ifs at hn
  exact h k n hn

/-- What a removal makes of an adjacency map: the lists of the removed nodes go, and every other
one loses the ids of the file, in place. -/
theorem lookup_removed (uri : String) (m : FMap NodeId (List NodeId)) (k : NodeId) :
    (mapValues (fun _ l => l.filter fun n => n.uri ≠ uri)
        (retain (fun k _ => k ∉ g.nodesInFile uri) m)).lookup k =
      if k ∈ g.nodes ∧ k.uri = uri then none
      else (m.lookup k).map fun l => l.filter fun n => n.uri ≠ uri := by
  rw [lookup_mapValues, lookup_retain_key (fun k => decide (k ∉ g.nodesInFile uri))]
  simp only [decide_eq_true_eq, mem_nodesInFile]
  by_cases hk : k ∈ g.nodes ∧ k.uri = uri
  · simp [hk]
  · rw [if_pos hk, if_neg hk]

theorem mem_removed (uri : String) (m : FMap NodeId (List NodeId)) (k : NodeId) :
    k ∈ mapValues (fun _ l => l.filter fun n => n.uri ≠ uri)
        (retain (fun k _ => k ∉ g.nodesInFile uri) m) ↔
      k ∈ m ∧ ¬(k ∈ g.nodes ∧ k.uri = uri) := by
  rw [mem_mapValues, mem_retain_key (fun k => decide (k ∉ g.nodesInFile uri))]
  simp only [decide_eq_true_eq, mem_nodesInFile]

theorem callersOf_removeFile_ite (uri : String) (k : NodeId) :
    (g.removeFile uri).callersOf k = if k ∈ g.nodes ∧ k.uri = uri then none
      else (g.callersOf k).map fun l => l.filter fun n => n.uri ≠ uri :=
  lookup_removed g uri g.callers k

theorem calleesOf_removeFile_ite (uri : String) (k : NodeId) :
    (g.removeFile uri).calleesOf k = if k ∈ g.nodes ∧ k.uri = uri then none
      else (g.calleesOf k).map fun l => l.filter fun n => n.uri ≠ uri :=
  lookup_removed g uri g.callees k

/-- The list of a node of another file loses the ids of the removed file, in place. -/
theorem callersOf_removeFile (uri : String) (k : NodeId) (hk : k.uri ≠ uri) :
    (g.removeFile uri).callersOf k =
      (g.callersOf k).map fun l => l.filter fun n => n.uri ≠ uri := by
  rw [callersOf_removeFile_ite, if_neg fun h => hk h.2]

theorem calleesOf_removeFile (uri : String) (k : NodeId) (hk : k.uri ≠ uri) :
    (g.removeFile uri).calleesOf k =
      (g.calleesOf k).map fun l => l.filter fun n => n.uri ≠ uri := by
  rw [calleesOf_removeFile_ite, if_neg fun h => hk h.2]

/-- The keys of the adjacency maps after a removal: those of the removed nodes go. -/
theorem mem_callers_removeFile (uri : String) (k : NodeId) :
    k ∈ (g.removeFile uri).callers ↔ k ∈ g.callers ∧ ¬(k ∈ g.nodes ∧ k.uri = uri) :=
  mem_removed g uri g.callers k

theorem mem_callees_removeFile (uri : String) (k : NodeId) :
    k ∈ (g.removeFile uri).callees ↔ k ∈ g.callees ∧ ¬(k ∈ g.nodes ∧ k.uri = uri) :=
  mem_removed g uri g.callees k

end CallGraph

end LspGraph
