import LspGraph.EngineInvariant

/-! Symbols recorded as unresolved that resolve later: `upsert` keeps the state of a node it
meets again, so whether the mark goes away depends on what was recorded before. -/
namespace LspGraph
open FiniteMaps Runs

variable {S : Type*}

namespace Engine

/-- No symbol the engine holds an item for is marked as unresolved. -/
def Resolved (e : Engine S) : Prop :=
  ∀ id ∈ e.items, ∀ reason, e.graph.stateOf id ≠ some (.unresolved reason)

variable (host : Host S)

/-- The condition on a step: no item the server answers in it has an id already marked. -/
def Unmarked (e : Engine S) (op : EngineOp) : Prop :=
  ∀ item ∈ e.answered host op, ∀ reason,
    e.graph.stateOf (.fromItem item) ≠ some (.unresolved reason)

/-- Interning does not clear a mark: the items must be unmarked before. -/
theorem resolved_interned_iff {e : Engine S} (h : e.Resolved) (items : List CallHierarchyItem) :
    (e.interned host items).Resolved ↔ ∀ item ∈ items, ∀ reason,
      e.graph.stateOf (.fromItem item) ≠ some (.unresolved reason) := by
  constructor
  · intro hr item hit reason
    have hm : NodeId.fromItem item ∈ items.map NodeId.fromItem := List.mem_map_of_mem hit
    have hk := hr _ ((interned_mem_items _ _ _ _).mpr (.inl hm)) reason
    rwa [ne_eq, interned_state_iff _ _ _ _ _ (by simp)] at hk
  · intro hu k hk reason
    rw [ne_eq, interned_state_iff _ _ _ _ _ (by simp)]
    rcases (interned_mem_items _ _ _ _).mp hk with hk | hk
    · obtain ⟨item, hit, rfl⟩ := List.mem_map.mp hk
      exact hu item hit reason
    · exact h k hk reason

/-- Recording a symbol that does not resolve leaves the marks of the nodes with items. -/
theorem Resolved.record {e : Engine S} (h : e.Resolved) (hi : e.Inv) (cand : NamedCallable)
    (reason : UnresolvedReason) : (e.record (unresolvedNode cand reason)).Resolved := by
  intro k hk reason'
  obtain ⟨st, hst⟩ := (CallGraph.mem_nodes_iff_stateOf _ _).mp (hi.items_nodes k hk)
  have hkept := h k hk reason'
  rw [hst] at hkept
  rw [record_stateOf, hst]
  split_ifs
  · exact hkept
  · exact hkept

/-- An expanded node is not marked; the others stay as they are. -/
theorem resolved_recordExpansion_iff {e : Engine S} (id : NodeId) (exp : Expansion)
    (hid : ∀ reason, e.graph.stateOf id ≠ some (.unresolved reason)) :
    (e.recordExpansion id exp).Resolved ↔ e.Resolved := by
  have hstate (k : NodeId) (reason : UnresolvedReason) :
      (e.graph.recordExpansion id exp).stateOf k = some (.unresolved reason) ↔
        e.graph.stateOf k = some (.unresolved reason) := by
    rw [CallGraph.stateOf_recordExpansion]
    split_ifs with hk
    · rw [hk]
      exact iff_of_false (by simp) (hid reason)
    · rfl
  exact forall₂_congr fun k _ => forall_congr' fun reason => not_congr (hstate k reason)

/-- What one operation does: the property survives it exactly where the condition holds. -/
theorem resolved_apply_iff {e : Engine S} (hi : e.Inv) (h : e.Resolved) (op : EngineOp) :
    (e.apply host op).2.Resolved ↔ e.Unmarked host op := by
  have hnone (e' : Engine S) (h' : e'.Resolved) :
      e'.Resolved ↔ ∀ item ∈ ([] : List CallHierarchyItem), ∀ reason,
        e.graph.stateOf (.fromItem item) ≠ some (.unresolved reason) :=
    iff_of_true h' (by simp)
  cases op with
  | seed cand =>
    have hc := seed_case host e cand
    change (e.seed host cand).2.Resolved ↔ ∀ item ∈ e.seedAnswer host cand, _
    generalize e.seed host cand = r, e.seedAnswer host cand = items at hc
    cases hc with
    | notAFile => exact hnone e h
    | failed err s => exact hnone _ h
    | unresolved reason s => exact hnone _ (h.record hi cand reason)
    | resolved item s => exact resolved_interned_iff (e := { e with server := s }) host h [item]
  | expand id =>
    have hc := expand_case host e id
    change (e.expand host id).2.Resolved ↔ ∀ item ∈ e.expandAnswer host id, _
    generalize e.expand host id = r, e.expandAnswer host id = items at hc
    cases hc with
    | memo => exact hnone e h
    | noItem => exact hnone e h
    | failed item err s => exact hnone _ h
    | asked item incoming outgoing s₁ s₂ hx hit =>
      rw [resolved_recordExpansion_iff]
      -- marking the node as expanded is no help: it holds an item, so it was not marked before
      · exact resolved_interned_iff (e := { e with server := s₂, expansions := _ }) host h _
      · intro reason
        have hid := h id (Finmap.mem_of_lookup_eq_some hit) reason
        rw [ne_eq, interned_state_iff _ _ _ _ _ (by simp)]
        exact hid
  | invalidateFile uri =>
    refine hnone _ fun k hk reason hst => ?_
    have hk := (mem_items_invalidateFile e uri k).mp hk
    exact h k hk.2 reason ((stateOf_invalidateFile e uri k _).mp hst).2

/-- Exactly when no held symbol stays marked: all along a history, if and only if no step of it
interns an item whose id was recorded as unresolved before that step. -/
theorem no_held_symbol_unresolved_iff {s : S} {e : Engine S} {h : List (Engine S × EngineOp)}
    (hr : Run (EngineStep host) (new s) h e) :
    (∀ p ∈ h, p.1.Unmarked host p.2) ↔
      ∀ h₁ t, h₁ <+: h → Run (EngineStep host) (new s) h₁ t → t.Resolved := by
  refine hr.guarded_iff (fun _ t => t.Resolved) (fun e op => e.Unmarked host op) ?_ ?_ ?_
  · exact fun k hk => absurd hk Finmap.notMem_empty
  · rintro h e op e' hr hp hg rfl
    exact (resolved_apply_iff host (inv_of_run host hr) hp op).mpr hg
  · rintro h e op e' hr hp rfl hp'
    exact (resolved_apply_iff host (inv_of_run host hr) hp op).mp hp'

/-- A server that is busy while `f` is seeded first, and resolves it the second time. -/
def busyScript : List (Result Value) :=
  List.replicate 3 (.error (.contentModified "textDocument/prepareCallHierarchy")) ++
    [.ok (itemsAnswer [fItem])]

/-- Two seeds of a symbol, of which only the second resolves: the mark stays. -/
theorem resolved_symbol_stays_unresolved :
    ∃ h e, Run (EngineStep scripted) (new busyScript) h e ∧
      h.map Prod.snd = [.seed fSymbol, .seed fSymbol] ∧
      NodeId.fromItem fItem ∈ e.items ∧
      e.graph.stateOf (.fromItem fItem) = some (.unresolved .transientContentModified) := by
  have hr := ((Run.start (EngineStep scripted) (new busyScript)).snoc
    (a := .seed fSymbol) rfl).snoc (a := .seed fSymbol) rfl
  exact ⟨_, _, hr, rfl, by decide, by decide⟩

/-- The condition is met by a history that meets every symbol resolved the first time. -/
theorem no_held_symbol_unresolved_recursive :
    ∃ h e, Run (EngineStep scripted) (new recursiveScript) h e ∧ h.length = 2 ∧
      NodeId.fromItem gItem ∈ e.items ∧ e.Resolved := by
  have hr := ((Run.start (EngineStep scripted) (new recursiveScript)).snoc
    (a := .seed fSymbol) rfl).snoc (a := .expand (.fromItem fItem)) rfl
  refine ⟨_, _, hr, rfl, by decide, ?_⟩
  refine (no_held_symbol_unresolved_iff scripted hr).mp ?_ _ _ (List.prefix_refl _) hr
  have hstates : ∀ p ∈ [] ++ [(new recursiveScript, EngineOp.seed fSymbol)] ++
      [(((new recursiveScript).apply scripted (.seed fSymbol)).2, .expand (.fromItem fItem))],
      ∀ item ∈ p.1.answered scripted p.2,
        p.1.graph.stateOf (.fromItem item) ∈ [none, some .unexpanded] := by
    decide
  intro p hp item hit reason hst
  have hin := hstates p hp item hit
  rw [hst] at hin
  simp at hin

end Engine

end LspGraph
