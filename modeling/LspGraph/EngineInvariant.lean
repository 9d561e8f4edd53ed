import LspGraph.Engine
import LspGraph.SampleHost

/-! The representation invariant of the engine: what holds of its node map, its adjacency maps
and its item map after any history of operations. -/
namespace LspGraph
open FiniteMaps Runs

variable {S : Type*}

namespace Engine

/-- The four maps of the engine agree. -/
structure Inv (e : Engine S) : Prop where
  keyed : e.graph.Keyed
  itemsKeyed : e.ItemsKeyed
  callers_iff : ∀ k, k ∈ e.graph.callers ↔ e.graph.stateOf k = some .expanded
  callees_iff : ∀ k, k ∈ e.graph.callees ↔ e.graph.stateOf k = some .expanded
  callers_known : ∀ k l, e.graph.callersOf k = some l → ∀ n ∈ l, n ∈ e.items
  callees_known : ∀ k l, e.graph.calleesOf k = some l → ∀ n ∈ l, n ∈ e.items
  items_nodes : ∀ k, k ∈ e.items → k ∈ e.graph.nodes
  node_item : ∀ k, e.graph.stateOf k = some .unexpanded ∨ e.graph.stateOf k = some .expanded →
    k ∈ e.items

theorem inv_new (s : S) : Inv (new s) := by
  have hstate (k : NodeId) : (new s).graph.stateOf k = none := rfl
  refine ⟨?_, ?_, ?_, ?_, ?_, ?_, ?_, ?_⟩
  · exact fun k n h => absurd h (by simp [new, CallGraph.new, CallGraph.get])
  · exact fun k it h => absurd h (by simp [new])
  · exact fun k => iff_of_false Finmap.notMem_empty (by simp [hstate])
  · exact fun k => iff_of_false Finmap.notMem_empty (by simp [hstate])
  · exact fun k l h => absurd h (by simp [new, CallGraph.new, CallGraph.callersOf])
  · exact fun k l h => absurd h (by simp [new, CallGraph.new, CallGraph.calleesOf])
  · exact fun k h => absurd h Finmap.notMem_empty
  · exact fun k h => absurd h (by simp [hstate])

variable {e : Engine S}

/-- Talking to the server and counting expansions do not concern the maps. -/
theorem Inv.talk (h : e.Inv) (s : S) (n : ℕ) : Inv { e with server := s, expansions := n } :=
  ⟨h.keyed, h.itemsKeyed, h.callers_iff, h.callees_iff, h.callers_known, h.callees_known,
    h.items_nodes, h.node_item⟩

/-- Interning makes no node anything but unexpanded: the other states are those from before. -/
theorem interned_state_iff (host : Host S) (e : Engine S) (items : List CallHierarchyItem)
    (k : NodeId) (st : NodeState) (hst : st ≠ .unexpanded) :
    (e.interned host items).graph.stateOf k = some st ↔ e.graph.stateOf k = some st := by
  rw [interned_stateOf]
  split_ifs
  · cases e.graph.stateOf k with
    | none => simp [hst.symm]
    | some old => simp
  · rfl

theorem Inv.interned (host : Host S) (h : e.Inv) (items : List CallHierarchyItem) :
    Inv (e.interned host items) where
  keyed := interned_keyed host e items h.keyed
  itemsKeyed := interned_itemsKeyed host e items h.itemsKeyed
  callers_iff := by
    intro k
    rw [(interned_lists host e items).1, h.callers_iff,
      interned_state_iff host e items k .expanded (by simp)]
  callees_iff := by
    intro k
    rw [(interned_lists host e items).2, h.callees_iff,
      interned_state_iff host e items k .expanded (by simp)]
  callers_known := by
    intro k l hl n hn
    rw [CallGraph.callersOf, (interned_lists host e items).1] at hl
    exact (interned_mem_items host e items n).mpr (.inr (h.callers_known k l hl n hn))
  callees_known := by
    intro k l hl n hn
    rw [CallGraph.calleesOf, (interned_lists host e items).2] at hl
    exact (interned_mem_items host e items n).mpr (.inr (h.callees_known k l hl n hn))
  items_nodes := by
    intro k hk
    rw [interned_mem_items] at hk
    rw [interned_mem_nodes]
    exact hk.imp_right (h.items_nodes k)
  node_item := by
    intro k hk
    rw [interned_stateOf] at hk
    rw [interned_mem_items]
    split_ifs at hk with hm
    · exact .inl hm
    · exact .inr (h.node_item k hk)

/-- The memo path of `expand` finds both lists. -/
theorem Inv.exists_memoized (h : e.Inv) {id : NodeId} (hst : e.graph.stateOf id = some .expanded) :
    ∃ exp, e.graph.Memoized id exp := by
  obtain ⟨callers, h₁⟩ := Finmap.mem_iff.mp ((h.callers_iff id).mpr hst)
  obtain ⟨callees, h₂⟩ := Finmap.mem_iff.mp ((h.callees_iff id).mpr hst)
  exact ⟨⟨callers, callees⟩, hst, h₁, h₂⟩

theorem Inv.lists_of_not_expanded (h : e.Inv) {k : NodeId}
    (hst : e.graph.stateOf k ≠ some .expanded) :
    e.graph.callersOf k = none ∧ e.graph.calleesOf k = none := by
  constructor
  · exact Finmap.lookup_eq_none.mpr fun hc => hst ((h.callers_iff k).mp hc)
  · exact Finmap.lookup_eq_none.mpr fun hc => hst ((h.callees_iff k).mp hc)

/-- Everything the memo lists has an item. -/
theorem Inv.mem_items_of_memoized (h : e.Inv) {id : NodeId} {exp : Expansion}
    (hm : e.graph.Memoized id exp) : ∀ n ∈ exp.callers ++ exp.callees, n ∈ e.items := by
  intro n hn
  rcases List.mem_append.mp hn with hn | hn
  · exact h.callers_known id _ hm.callers n hn
  · exact h.callees_known id _ hm.callees n hn

/-- Recording a symbol that does not resolve leaves a node that is there in its state. -/
theorem record_stateOf (e : Engine S) (cand : NamedCallable) (reason : UnresolvedReason)
    (k : NodeId) : (e.record (unresolvedNode cand reason)).graph.stateOf k =
      if k = unresolvedId cand then some ((e.graph.stateOf k).getD (.unresolved reason))
      else e.graph.stateOf k := by
  change (e.graph.upsert (unresolvedNode cand reason)).stateOf k = _
  rw [CallGraph.stateOf_upsert]
  by_cases hk : k = unresolvedId cand
  · rw [hk]
    rfl
  · rw [if_neg hk]
    exact if_neg hk

theorem record_state_iff (e : Engine S) (cand : NamedCallable) (reason : UnresolvedReason)
    (k : NodeId) (st : NodeState) (hst : ∀ r, st ≠ .unresolved r) :
    (e.record (unresolvedNode cand reason)).graph.stateOf k = some st ↔
      e.graph.stateOf k = some st := by
  rw [record_stateOf]
  split_ifs
  · cases e.graph.stateOf k with
    | none => simp [(hst reason).symm]
    | some old => simp
  · rfl

theorem Inv.record (h : e.Inv) (cand : NamedCallable) (reason : UnresolvedReason) :
    Inv (e.record (unresolvedNode cand reason)) where
  keyed := CallGraph.keyed_upsert _ _ h.keyed
  itemsKeyed := h.itemsKeyed
  callers_iff := by
    intro k
    rw [record_state_iff e cand reason k .expanded (by simp), ← h.callers_iff]
    change k ∈ (e.graph.upsert _).callers ↔ _
    rw [CallGraph.upsert_callers]
  callees_iff := by
    intro k
    rw [record_state_iff e cand reason k .expanded (by simp), ← h.callees_iff]
    change k ∈ (e.graph.upsert _).callees ↔ _
    rw [CallGraph.upsert_callees]
  callers_known := by
    intro k l hl
    change (e.graph.upsert _).callersOf k = some l at hl
    rw [CallGraph.callersOf, CallGraph.upsert_callers] at hl
    exact h.callers_known k l hl
  callees_known := by
    intro k l hl
    change (e.graph.upsert _).calleesOf k = some l at hl
    rw [CallGraph.calleesOf, CallGraph.upsert_callees] at hl
    exact h.callees_known k l hl
  items_nodes := fun k hk => (CallGraph.mem_upsert _ _ k).mpr (.inr (h.items_nodes k hk))
  node_item := by
    intro k hk
    rw [record_state_iff e cand reason k _ (by simp),
      record_state_iff e cand reason k _ (by simp)] at hk
    exact h.node_item k hk

/-- Recording the expansion of a node with an item, into ids with items. -/
theorem Inv.recordExpansion (h : e.Inv) (id : NodeId) (exp : Expansion) (hid : id ∈ e.items)
    (hcallers : ∀ n ∈ exp.callers, n ∈ e.items) (hcallees : ∀ n ∈ exp.callees, n ∈ e.items) :
    Inv (e.recordExpansion id exp) := by
  obtain ⟨st, hst⟩ := (CallGraph.mem_nodes_iff_stateOf _ _).mp (h.items_nodes id hid)
  have hstate (k : NodeId) : (e.graph.recordExpansion id exp).stateOf k = some .expanded ↔
      k = id ∨ e.graph.stateOf k = some .expanded := by
    rw [CallGraph.stateOf_recordExpansion]
    split_ifs with hk
    · simp [hk, hst]
    · simp [hk]
  have hcallersOf := CallGraph.callersOf_recordExpansion e.graph id exp
  have hcalleesOf := CallGraph.calleesOf_recordExpansion e.graph id exp
  refine ⟨CallGraph.keyed_recordExpansion _ _ _ h.keyed, h.itemsKeyed, ?_, ?_, ?_, ?_, ?_, ?_⟩
  -- the keys of the two adjacency maps
  · intro k
    change _ ↔ (e.graph.recordExpansion id exp).stateOf k = some .expanded
    rw [hstate, ← h.callers_iff, ← Finmap.lookup_isSome, ← Finmap.lookup_isSome]
    change ((e.graph.recordExpansion id exp).callersOf k).isSome = true ↔ _
    rw [hcallersOf]
    split_ifs with hk <;> simp [hk, CallGraph.callersOf]
  · intro k
    change _ ↔ (e.graph.recordExpansion id exp).stateOf k = some .expanded
    rw [hstate, ← h.callees_iff, ← Finmap.lookup_isSome, ← Finmap.lookup_isSome]
    change ((e.graph.recordExpansion id exp).calleesOf k).isSome = true ↔ _
    rw [hcalleesOf]
    split_ifs with hk <;> simp [hk, CallGraph.calleesOf]
  -- their lists: the new ones are known by hypothesis
  · intro k l hl
    change (e.graph.recordExpansion id exp).callersOf k = some l at hl
    rw [hcallersOf] at hl
    split_ifs at hl with hk
    · obtain rfl := Option.some.inj hl
      exact hcallers
    · exact h.callers_known k l hl
  · intro k l hl
    change (e.graph.recordExpansion id exp).calleesOf k = some l at hl
    rw [hcalleesOf] at hl
    split_ifs at hl with hk
    · obtain rfl := Option.some.inj hl
      exact hcallees
    · exact h.callees_known k l hl
  · exact fun k hk => (CallGraph.mem_recordExpansion _ _ _ k).mpr (h.items_nodes k hk)
  · intro k hk
    change (e.graph.recordExpansion id exp).stateOf k = some .unexpanded ∨
      (e.graph.recordExpansion id exp).stateOf k = some .expanded at hk
    by_cases hki : k = id
    · rw [hki]
      exact hid
    · rw [CallGraph.stateOf_recordExpansion, if_neg hki] at hk
      exact h.node_item k hk

theorem items_invalidateFile (e : Engine S) (uri : String) (k : NodeId) :
    (e.invalidateFile uri).items.lookup k = if k.uri = uri then none else e.items.lookup k := by
  change (retain (fun (k : NodeId) _ => decide (k.uri ≠ uri)) e.items).lookup k = _
  rw [lookup_retain_key fun k : NodeId => decide (k.uri ≠ uri)]
  split_ifs with h₁ h₂ h₂ <;> simp_all

theorem mem_items_invalidateFile (e : Engine S) (uri : String) (k : NodeId) :
    k ∈ (e.invalidateFile uri).items ↔ k.uri ≠ uri ∧ k ∈ e.items := by
  rw [← Finmap.lookup_isSome, items_invalidateFile, ← Finmap.lookup_isSome]
  split_ifs with hk <;> simp [hk]

theorem stateOf_invalidateFile (e : Engine S) (uri : String) (k : NodeId) (st : NodeState) :
    (e.invalidateFile uri).graph.stateOf k = some st ↔
      k.uri ≠ uri ∧ e.graph.stateOf k = some st := by
  change (e.graph.removeFile uri).stateOf k = some st ↔ _
  rw [CallGraph.stateOf_removeFile]
  split_ifs with hk <;> simp [hk]

theorem Inv.invalidateFile (h : e.Inv) (uri : String) : Inv (e.invalidateFile uri) := by
  have hnode (k : NodeId) (hk : e.graph.stateOf k = some .expanded) : k ∈ e.graph.nodes :=
    (CallGraph.mem_nodes_iff_stateOf _ _).mpr ⟨_, hk⟩
  have hcallers (k : NodeId) : k ∈ (e.invalidateFile uri).graph.callers ↔
      k.uri ≠ uri ∧ e.graph.stateOf k = some .expanded := by
    change k ∈ (e.graph.removeFile uri).callers ↔ _
    rw [CallGraph.mem_callers_removeFile, h.callers_iff]
    have := hnode k
    tauto
  have hcallees (k : NodeId) : k ∈ (e.invalidateFile uri).graph.callees ↔
      k.uri ≠ uri ∧ e.graph.stateOf k = some .expanded := by
    change k ∈ (e.graph.removeFile uri).callees ↔ _
    rw [CallGraph.mem_callees_removeFile, h.callees_iff]
    have := hnode k
    tauto
  have hkept (l : List NodeId) (hl : ∀ n ∈ l, n ∈ e.items) :
      ∀ n ∈ l.filter (fun n => n.uri ≠ uri), n ∈ (e.invalidateFile uri).items := by
    intro n hn
    obtain ⟨hn, hu⟩ := List.mem_filter.mp hn
    exact (mem_items_invalidateFile e uri n).mpr ⟨by simpa using hu, hl n hn⟩
  -- every map loses the keys of the file, and every list its ids
  refine ⟨CallGraph.keyed_removeFile _ _ h.keyed, ?_, ?_, ?_, ?_, ?_, ?_, ?_⟩
  · intro k it hk
    rw [items_invalidateFile] at hk
    split_ifs at hk
    exact h.itemsKeyed k it hk
  · exact fun k => (hcallers k).trans (stateOf_invalidateFile e uri k .expanded).symm
  · exact fun k => (hcallees k).trans (stateOf_invalidateFile e uri k .expanded).symm
  · intro k l hl
    have hu := ((hcallers k).mp (Finmap.mem_of_lookup_eq_some hl)).1
    change (e.graph.removeFile uri).callersOf k = some l at hl
    rw [CallGraph.callersOf_removeFile _ _ _ hu] at hl
    obtain ⟨l', hl', rfl⟩ := Option.map_eq_some_iff.mp hl
    exact hkept l' (h.callers_known k l' hl')
  · intro k l hl
    have hu := ((hcallees k).mp (Finmap.mem_of_lookup_eq_some hl)).1
    change (e.graph.removeFile uri).calleesOf k = some l at hl
    rw [CallGraph.calleesOf_removeFile _ _ _ hu] at hl
    obtain ⟨l', hl', rfl⟩ := Option.map_eq_some_iff.mp hl
    exact hkept l' (h.callees_known k l' hl')
  · intro k hk
    rw [mem_items_invalidateFile] at hk
    exact (CallGraph.mem_removeFile _ _ k).mpr ⟨hk.1, h.items_nodes k hk.2⟩
  · intro k hk
    rw [stateOf_invalidateFile, stateOf_invalidateFile, ← and_or_left] at hk
    exact (mem_items_invalidateFile e uri k).mpr ⟨hk.1, h.node_item k hk.2⟩

variable (host : Host S)

theorem Inv.seed (h : e.Inv) (cand : NamedCallable) : Inv (e.seed host cand).2 := by
  have hc := seed_case host e cand
  generalize e.seed host cand = r, e.seedAnswer host cand = items at hc
  cases hc with
  | notAFile => exact h
  | failed err s => exact h.talk s _
  | unresolved reason s => exact (h.record cand reason).talk s _
  | resolved item s => exact (h.talk s _).interned host [item]

theorem Inv.expand (h : e.Inv) (id : NodeId) : Inv (e.expand host id).2 := by
  have hc := expand_case host e id
  generalize e.expand host id = r, e.expandAnswer host id = items at hc
  cases hc with
  | memo => exact h
  | noItem => exact h
  | failed item err s => exact h.talk s _
  | asked item incoming outgoing s₁ s₂ hx hi =>
    have hid : id ∈ e.items := Finmap.mem_of_lookup_eq_some hi
    refine ((h.talk s₂ _).interned host (incoming ++ outgoing)).recordExpansion id _ ?_ ?_ ?_
    · exact (interned_mem_items _ _ _ _).mpr (.inr hid)
    · intro n hn
      rw [interned_mem_items, List.map_append]
      exact .inl (List.mem_append_left _ hn)
    · intro n hn
      rw [interned_mem_items, List.map_append]
      exact .inl (List.mem_append_right _ hn)

theorem Inv.apply (h : e.Inv) (op : EngineOp) : Inv (e.apply host op).2 := by
  cases op with
  | seed cand => exact h.seed host cand
  | expand id => exact h.expand host id
  | invalidateFile uri => exact h.invalidateFile uri

/-- The invariant holds after every history, whatever the host answers. -/
theorem inv_of_run {s : S} {h : List (Engine S × EngineOp)}
    (hr : Run (EngineStep host) (new s) h e) : e.Inv := by
  refine hr.invariant Inv (inv_new s) ?_
  rintro e op e' he rfl
  exact he.apply host op

/-- A seed hands out the id of the item it interns. -/
theorem mem_items_seed (cand : NamedCallable) (k : NodeId) :
    k ∈ (e.seed host cand).2.items ↔
      k ∈ handedOut (.inl (e.seed host cand).1) ∨ k ∈ e.items := by
  have hc := seed_case host e cand
  generalize e.seed host cand = r, e.seedAnswer host cand = items at hc
  cases hc with
  | notAFile => simp [handedOut]
  | failed err s => simp [handedOut]
  | unresolved reason s => simp [handedOut, Engine.record]
  | resolved item s => simp [handedOut, interned_mem_items]

/-- An expansion hands out the ids of the items it interns, or else ids that have items. -/
theorem Inv.mem_items_expand (h : e.Inv) (id k : NodeId) :
    k ∈ (e.expand host id).2.items ↔
      k ∈ handedOut (.inr (e.expand host id).1) ∨ k ∈ e.items := by
  have hc := expand_case host e id
  generalize e.expand host id = r, e.expandAnswer host id = items at hc
  cases hc with
  | memo hx =>
    obtain ⟨exp, hm⟩ := h.exists_memoized ((isExpanded_iff e id).mp hx)
    simp only [handedOut, hm.callers, hm.callees, Option.getD_some]
    exact (or_iff_right_of_imp (h.mem_items_of_memoized hm k)).symm
  | noItem => simp [handedOut]
  | failed item err s => simp [handedOut]
  | asked item incoming outgoing s₁ s₂ =>
    simp only [Engine.recordExpansion, interned_mem_items, handedOut, List.map_append]

/-- The ids an operation hands out have items in the engine it leaves. -/
theorem Inv.mem_items_of_handedOut (h : e.Inv) (op : EngineOp) :
    ∀ id ∈ (e.apply host op).1, id ∈ (e.apply host op).2.items := by
  intro id hid
  cases op with
  | seed cand => exact (mem_items_seed host cand id).mpr (.inl hid)
  | expand id' => exact (h.mem_items_expand host id' id).mpr (.inl hid)
  | invalidateFile uri => cases hid

/-- After any history, with any answers: the keys of the four maps agree, every listed id has a
node and an item, and neither the memo path of `expand` nor the lookup of an id handed back
ever meets a missing entry. -/
theorem representation_invariant {s : S} {h : List (Engine S × EngineOp)}
    (hr : Run (EngineStep host) (new s) h e) :
    (∀ k n, e.graph.nodes.lookup k = some n → n.id = k) ∧
    e.graph.callers.keys = e.graph.callees.keys ∧
    (∀ k, k ∈ e.graph.callers ↔ ∃ n, e.graph.get k = some n ∧ n.state = .expanded) ∧
    (∀ k l, e.graph.callers.lookup k = some l ∨ e.graph.callees.lookup k = some l →
      ∀ n ∈ l, n ∈ e.graph.nodes ∧ n ∈ e.items) ∧
    (∀ k ∈ e.items, k ∈ e.graph.nodes) ∧
    (∀ k n, e.graph.get k = some n → n.state = .unexpanded ∨ n.state = .expanded →
      k ∈ e.items) ∧
    (∀ id, e.isExpanded id = true →
      (e.graph.callersOf id).isSome = true ∧ (e.graph.calleesOf id).isSome = true) ∧
    ∀ op, ∀ id ∈ (e.apply host op).1,
      ((e.apply host op).2.graph.get id).isSome = true := by
  have hi : e.Inv := inv_of_run host hr
  have hstate (k : NodeId) (st : NodeState) :
      e.graph.stateOf k = some st ↔ ∃ n, e.graph.get k = some n ∧ n.state = st :=
    Option.map_eq_some_iff
  refine ⟨hi.keyed, ?_, fun k => (hi.callers_iff k).trans (hstate k _), ?_, hi.items_nodes,
    ?_, ?_, ?_⟩
  · ext k
    rw [Finmap.mem_keys, Finmap.mem_keys, hi.callers_iff, hi.callees_iff]
  · rintro k l (hl | hl) n hn
    · have hn := hi.callers_known k l hl n hn
      exact ⟨hi.items_nodes n hn, hn⟩
    · have hn := hi.callees_known k l hl n hn
      exact ⟨hi.items_nodes n hn, hn⟩
  · rintro k n hn (hst | hst)
    · exact hi.node_item k (.inl ((hstate k _).mpr ⟨n, hn, hst⟩))
    · exact hi.node_item k (.inr ((hstate k _).mpr ⟨n, hn, hst⟩))
  · intro id hx
    have hst := (isExpanded_iff e id).mp hx
    exact ⟨Finmap.lookup_isSome.mpr ((hi.callers_iff id).mpr hst),
      Finmap.lookup_isSome.mpr ((hi.callees_iff id).mpr hst)⟩
  · intro op id hid
    have hit := hi.mem_items_of_handedOut host op id hid
    exact Finmap.lookup_isSome.mpr ((hi.apply host op).items_nodes id hit)

/-- A server for which `f` calls itself and is called from `g` of another file. -/
def recursiveScript : List (Result Value) :=
  [.ok (itemsAnswer [fItem]), .ok (callsAnswer "from" [gItem, fItem]),
    .ok (callsAnswer "to" [fItem])]

/-- The invariant at work: seed and expand `f`, and invalidate the file of its caller. -/
theorem representation_invariant_recursive :
    ∃ h e, Run (EngineStep scripted) (new recursiveScript) h e ∧ h.length = 3 ∧
      e.isExpanded (.fromItem fItem) = true ∧
      (e.graph.callersOf (.fromItem fItem)).isSome = true ∧
      (e.graph.calleesOf (.fromItem fItem)).isSome = true := by
  have hr := ((Run.start (EngineStep scripted) (new recursiveScript)).snoc
    (a := .seed fSymbol) rfl).snoc (a := .expand (.fromItem fItem)) rfl
  have hr := hr.snoc (a := .invalidateFile "file:///b.rs") rfl
  have hx := (representation_invariant scripted hr).2.2.2.2.2.2.1 (.fromItem fItem) (by decide)
  exact ⟨_, _, hr, rfl, by decide, hx⟩

end Engine

end LspGraph
