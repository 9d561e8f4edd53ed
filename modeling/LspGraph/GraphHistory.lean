import LspGraph.Graph
import LspGraph.Runs

/-! Histories of the public operations of the call graph: what the removal of a file leaves of
it, in every graph they can build. -/
namespace LspGraph
open FiniteMaps Runs

/-- The serialized form of a graph, as vectors of pairs. -/
structure CallGraphRepr where
  nodes : List Node
  callers : List (NodeId × List NodeId)
  callees : List (NodeId × List NodeId)

/-- `From<CallGraphRepr> for CallGraph`. -/
def CallGraph.ofRepr (repr : CallGraphRepr) : CallGraph where
  nodes := collect (repr.nodes.map fun n => (n.id, n))
  callers := collect repr.callers
  callees := collect repr.callees

/-- The operations that make or change a graph. -/
inductive GraphOp where
  | upsert (node : Node)
  | setState (id : NodeId) (state : NodeState)
  | recordExpansion (id : NodeId) (exp : Expansion)
  | removeFile (uri : String)
  | deserialize (repr : CallGraphRepr)

namespace CallGraph

/-- The graph after an operation; what is read back replaces it. -/
def apply (g : CallGraph) : GraphOp → CallGraph
  | .upsert node => g.upsert node
  | .setState id state => g.setState id state
  | .recordExpansion id exp => g.recordExpansion id exp
  | .removeFile uri => g.removeFile uri
  | .deserialize repr => ofRepr repr

/-- One operation of a history of the graph. -/
def Step (g : CallGraph) (op : GraphOp) (g' : CallGraph) : Prop := g' = g.apply op

/-- Nothing in the graph belongs to the file: no node, no key and no element of a list. -/
structure Without (g : CallGraph) (uri : String) : Prop where
  nodes : ∀ k n, g.get k = some n → k.uri ≠ uri ∧ n.id.uri ≠ uri
  callerKeys : ∀ k ∈ g.callers, k.uri ≠ uri
  calleeKeys : ∀ k ∈ g.callees, k.uri ≠ uri
  callers : ∀ k l, g.callersOf k = some l → ∀ n ∈ l, n.uri ≠ uri
  callees : ∀ k l, g.calleesOf k = some l → ∀ n ∈ l, n.uri ≠ uri

/-- What another graph keeps of this one for the other files: their nodes as they are, and their
lists without the elements of the file, in order. -/
structure KeptOutside (g : CallGraph) (uri : String) (g' : CallGraph) : Prop where
  nodes : ∀ k, k.uri ≠ uri → g'.get k = g.get k
  callers : ∀ k, k.uri ≠ uri →
    g'.callersOf k = (g.callersOf k).map fun l => l.filter fun n => n.uri ≠ uri
  callees : ∀ k, k.uri ≠ uri →
    g'.calleesOf k = (g.calleesOf k).map fun l => l.filter fun n => n.uri ≠ uri

/-- Every key of an adjacency map is a node. -/
def Grounded (g : CallGraph) : Prop := ∀ k, k ∈ g.callers ∨ k ∈ g.callees → k ∈ g.nodes

/-- The condition on a step: an expansion is recorded for a node, and what is read back has no
list for anything but its nodes. -/
def Grounds (g : CallGraph) : GraphOp → Prop
  | .recordExpansion id _ => id ∈ g.nodes
  | .deserialize repr => ∀ k, k ∈ repr.callers.map Prod.fst ∨ k ∈ repr.callees.map Prod.fst →
      k ∈ repr.nodes.map Node.id
  | _ => True

instance (g : CallGraph) : DecidablePred g.Grounds
  | .recordExpansion id _ => inferInstanceAs (Decidable (id ∈ g.nodes))
  | .deserialize repr =>
    decidable_of_iff (∀ k ∈ repr.callers.map Prod.fst ++ repr.callees.map Prod.fst,
      k ∈ repr.nodes.map Node.id) (forall_congr' fun _ => imp_congr_left List.mem_append)
  | .upsert _ | .setState _ _ | .removeFile _ => isTrue trivial

variable {g : CallGraph}

theorem keyed_setState (id : NodeId) (state : NodeState) (h : g.Keyed) :
    (g.setState id state).Keyed := by
  intro k n hn
  rw [get_setState] at hn
  split_ifs at hn with hk
  · obtain ⟨m, hm, rfl⟩ := Option.map_eq_some_iff.mp hn
    exact (h _ _ hm).trans hk.symm
  · exact h k n hn

theorem mem_setState (id : NodeId) (state : NodeState) (k : NodeId) :
    k ∈ (g.setState id state).nodes ↔ k ∈ g.nodes := by
  rw [mem_nodes, get_setState, mem_nodes]
  split_ifs with hk <;> simp [hk]

theorem keyed_ofRepr (repr : CallGraphRepr) : (ofRepr repr).Keyed := by
  intro k n hn
  -- each pair that is collected has the id of its node as its key
  obtain ⟨m, -, hm⟩ := List.mem_map.mp (mem_of_lookup_collect hn)
  obtain ⟨rfl, rfl⟩ := Prod.mk.inj hm
  rfl

theorem mem_ofRepr (repr : CallGraphRepr) (k : NodeId) :
    k ∈ (ofRepr repr).nodes ↔ k ∈ repr.nodes.map Node.id := by
  unfold ofRepr
  rw [mem_collect, List.map_map]
  rfl

theorem keyed_apply (h : g.Keyed) (op : GraphOp) : (g.apply op).Keyed := by
  cases op with
  | upsert node => exact keyed_upsert g node h
  | setState id state => exact keyed_setState id state h
  | recordExpansion id exp => exact keyed_recordExpansion g id exp h
  | removeFile uri => exact keyed_removeFile g uri h
  | deserialize repr => exact keyed_ofRepr repr

theorem mem_callers_upsert (node : Node) (k : NodeId) :
    k ∈ (g.upsert node).callers ∨ k ∈ (g.upsert node).callees ↔ k ∈ g.callers ∨ k ∈ g.callees := by
  rw [upsert_callers, upsert_callees]

/-- Recording an expansion makes its node a key, whether or not it is a node. -/
theorem mem_callers_recordExpansion (id : NodeId) (exp : Expansion) (k : NodeId) :
    k ∈ (g.recordExpansion id exp).callers ∨ k ∈ (g.recordExpansion id exp).callees ↔
      k = id ∨ k ∈ g.callers ∨ k ∈ g.callees := by
  unfold recordExpansion
  rw [setState_callers, setState_callees, Finmap.mem_insert, Finmap.mem_insert]
  tauto

/-- What one operation does: the keys stay nodes exactly where the condition holds. -/
theorem grounded_apply_iff (h : g.Grounded) (op : GraphOp) :
    (g.apply op).Grounded ↔ g.Grounds op := by
  cases op with
  | upsert node =>
    refine iff_of_true (fun k hk => (mem_upsert g node k).mpr (.inr (h k ?_))) trivial
    exact (mem_callers_upsert node k).mp hk
  | setState id state =>
    refine iff_of_true (fun k hk => (mem_setState id state k).mpr (h k ?_)) trivial
    change k ∈ (g.setState id state).callers ∨ k ∈ (g.setState id state).callees at hk
    rwa [setState_callers, setState_callees] at hk
  | recordExpansion id exp =>
    constructor
    · intro hg
      have hk := (mem_callers_recordExpansion (g := g) id exp id).mpr (.inl rfl)
      exact (mem_recordExpansion g id exp id).mp (hg id hk)
    · intro hid k hk
      apply (mem_recordExpansion g id exp k).mpr
      rcases (mem_callers_recordExpansion id exp k).mp hk with rfl | hk
      · exact hid
      · exact h k hk
  | removeFile uri =>
    -- a key that is left was not a node of the file, so that its node is left as well
    refine iff_of_true (fun k hk => (mem_removeFile g uri k).mpr ?_) trivial
    have hk : (k ∈ g.callers ∨ k ∈ g.callees) ∧ ¬(k ∈ g.nodes ∧ k.uri = uri) := by
      rcases hk with hk | hk
      · exact ((mem_callers_removeFile g uri k).mp hk).imp_left .inl
      · exact ((mem_callees_removeFile g uri k).mp hk).imp_left .inr
    exact ⟨fun hu => hk.2 ⟨h k hk.1, hu⟩, h k hk.1⟩
  | deserialize repr =>
    refine forall_congr' fun k => imp_congr (or_congr ?_ ?_) (mem_ofRepr repr k)
    · exact mem_collect k repr.callers
    · exact mem_collect k repr.callees

/-- The removal is complete exactly if the file has no key that is not a node. -/
theorem without_removeFile_iff (h : g.Keyed) (uri : String) : (g.removeFile uri).Without uri ↔
    ∀ k, k ∈ g.callers ∨ k ∈ g.callees → k.uri = uri → k ∈ g.nodes := by
  -- the lists never keep an id of the file, whatever their key
  have hlist (m : FMap NodeId (List NodeId)) (k : NodeId) (l : List NodeId)
      (hl : (mapValues (fun _ l => l.filter fun n => n.uri ≠ uri) m).lookup k = some l) :
      ∀ n ∈ l, n.uri ≠ uri := by
    rw [lookup_mapValues] at hl
    obtain ⟨l', -, rfl⟩ := Option.map_eq_some_iff.mp hl
    exact fun n hn => by simpa using (List.mem_filter.mp hn).2
  constructor
  · -- a key of the file without a node is not looked for, and stays
    rintro hw k (hk | hk) hu
    · by_contra hm
      exact hw.callerKeys k ((mem_callers_removeFile g uri k).mpr ⟨hk, fun h => hm h.1⟩) hu
    · by_contra hm
      exact hw.calleeKeys k ((mem_callees_removeFile g uri k).mpr ⟨hk, fun h => hm h.1⟩) hu
  · intro hg
    refine ⟨?_, ?_, ?_, hlist _, hlist _⟩
    · intro k n hn
      rw [get_removeFile] at hn
      split_ifs at hn with hu
      exact ⟨hu, h k n hn ▸ hu⟩
    · intro k hk hu
      obtain ⟨hk, hn⟩ := (mem_callers_removeFile g uri k).mp hk
      exact hn ⟨hg k (.inl hk) hu, hu⟩
    · intro k hk hu
      obtain ⟨hk, hn⟩ := (mem_callees_removeFile g uri k).mp hk
      exact hn ⟨hg k (.inr hk) hu, hu⟩

theorem without_removeFile_all_iff (h : g.Keyed) :
    (∀ uri, (g.removeFile uri).Without uri) ↔ g.Grounded := by
  constructor
  · exact fun hw k hk => (without_removeFile_iff h k.uri).mp (hw k.uri) k hk rfl
  · exact fun hg uri => (without_removeFile_iff h uri).mpr fun k hk _ => hg k hk

theorem keptOutside_removeFile (g : CallGraph) (uri : String) :
    g.KeptOutside uri (g.removeFile uri) where
  nodes k hk := (get_removeFile g uri k).trans (if_neg hk)
  callers := callersOf_removeFile g uri
  callees := calleesOf_removeFile g uri

theorem ext_of_lookups {g g' : CallGraph} (hget : ∀ k, g.get k = g'.get k)
    (hcallers : ∀ k, g.callersOf k = g'.callersOf k)
    (hcallees : ∀ k, g.calleesOf k = g'.calleesOf k) : g = g' := by
  obtain ⟨nodes, callers, callees⟩ := g
  obtain ⟨nodes', callers', callees'⟩ := g'
  obtain rfl : nodes = nodes' := Finmap.ext_lookup hget
  obtain rfl : callers = callers' := Finmap.ext_lookup hcallers
  obtain rfl : callees = callees' := Finmap.ext_lookup hcallees
  rfl

/-- Removing two files of a list of ids, in either order. -/
theorem filter_uri_comm (u v : String) (l : List NodeId) :
    (l.filter fun n => n.uri ≠ u).filter (fun n => n.uri ≠ v) =
      (l.filter fun n => n.uri ≠ v).filter fun n => n.uri ≠ u := by
  simp only [List.filter_filter, Bool.and_comm]

/-- The keys one removal drops are nodes before the other one, or after it. -/
theorem removeFile_comm (g : CallGraph) (u v : String) :
    (g.removeFile u).removeFile v = (g.removeFile v).removeFile u := by
  have hlists (o : Option (List NodeId)) (k : NodeId) :
      (if (k.uri ≠ u ∧ k ∈ g.nodes) ∧ k.uri = v then none
        else (if k ∈ g.nodes ∧ k.uri = u then none
          else o.map fun l => l.filter fun n => n.uri ≠ u).map
            fun l => l.filter fun n => n.uri ≠ v) =
      if (k.uri ≠ v ∧ k ∈ g.nodes) ∧ k.uri = u then none
        else (if k ∈ g.nodes ∧ k.uri = v then none
          else o.map fun l => l.filter fun n => n.uri ≠ v).map
            fun l => l.filter fun n => n.uri ≠ u := by
    have hcomm := filter_uri_comm u v
    cases o with
    | none => split_ifs <;> rfl
    | some l => split_ifs <;> simp_all
  apply ext_of_lookups
  · intro k
    simp only [get_removeFile]
    split_ifs <;> rfl
  · intro k
    simp only [callersOf_removeFile_ite, mem_removeFile]
    exact hlists _ k
  · intro k
    simp only [calleesOf_removeFile_ite, mem_removeFile]
    exact hlists _ k

theorem keyed_of_run {h : List (CallGraph × GraphOp)} (hr : Run Step new h g) : g.Keyed := by
  apply hr.invariant Keyed
  · exact fun k n hn => absurd hn (by simp [new, get])
  · rintro g op g' hk rfl
    exact keyed_apply hk op

/-- Exactly when a removal is complete: in every graph the operations can build, one file leaves
nothing behind if and only if its keys are nodes, and every file does, all along a history, if
and only if no step of it makes a key that is not a node. The other files never lose anything
but the ids of the removed one, and the order of removals does not matter. -/
theorem removeFile_complete_iff {h : List (CallGraph × GraphOp)} (hr : Run Step new h g) :
    (∀ uri, ((g.removeFile uri).Without uri ↔
        ∀ k, k ∈ g.callers ∨ k ∈ g.callees → k.uri = uri → k ∈ g.nodes) ∧
      g.KeptOutside uri (g.removeFile uri)) ∧
    (∀ uris uris' : List String, uris.Perm uris' →
      uris.foldl removeFile g = uris'.foldl removeFile g) ∧
    ((∀ p ∈ h, p.1.Grounds p.2) ↔
      ∀ h₁ t, h₁ <+: h → Run Step new h₁ t → ∀ uri, (t.removeFile uri).Without uri) := by
  refine ⟨fun uri => ⟨without_removeFile_iff (keyed_of_run hr) uri, keptOutside_removeFile g uri⟩,
    fun uris uris' hp => hp.foldl_eq' (fun u _ v _ g => removeFile_comm g u v) g, ?_⟩
  have hiff := hr.guarded_iff (fun _ t => t.Grounded) Grounds
    (fun k hk => absurd (hk.elim (fun h => h) fun h => h) Finmap.notMem_empty)
    (by rintro h g op g' - hp hg rfl; exact (grounded_apply_iff hp op).mpr hg)
    (by rintro h g op g' - hp rfl hp'; exact (grounded_apply_iff hp op).mp hp')
  rw [hiff]
  -- in each state that is reached, grounded means that every removal is complete
  exact forall₂_congr fun h₁ t => forall₂_congr fun _ hr =>
    (without_removeFile_all_iff (keyed_of_run hr)).symm

/-- A function of the file that is removed, and its caller in another file. -/
def removedId : NodeId := ⟨"file:///a.rs", 1, 3, "f"⟩

def keptId : NodeId := ⟨"file:///b.rs", 5, 3, "g"⟩

/-- An expansion recorded for an id that is not a node outlives the removal of its file. -/
theorem expansion_survives_removal :
    ∃ h g, Run Step new h g ∧ h.map Prod.snd = [.recordExpansion removedId ⟨[keptId], []⟩] ∧
      (g.removeFile "file:///a.rs").callersOf removedId = some [keptId] := by
  have hr := (Run.start Step new).snoc (a := .recordExpansion removedId ⟨[keptId], []⟩) rfl
  exact ⟨_, _, hr, rfl, by decide⟩

/-- The condition is met where the expanded id is a node. -/
theorem removeFile_complete_caller_kept :
    ∃ h g, Run Step new h g ∧
      h.map Prod.snd = [.upsert ⟨keptId, "Function", none, .unexpanded⟩,
        .recordExpansion keptId ⟨[], [removedId]⟩] ∧
      (g.removeFile "file:///a.rs").Without "file:///a.rs" ∧
      (g.removeFile "file:///a.rs").calleesOf keptId = some [] := by
  have hr := ((Run.start Step new).snoc
    (a := .upsert ⟨keptId, "Function", none, .unexpanded⟩) rfl).snoc
      (a := .recordExpansion keptId ⟨[], [removedId]⟩) rfl
  refine ⟨_, _, hr, rfl, ?_, by decide⟩
  exact (removeFile_complete_iff hr).2.2.mp (by decide) _ _ (List.prefix_refl _) hr _

end CallGraph

end LspGraph
