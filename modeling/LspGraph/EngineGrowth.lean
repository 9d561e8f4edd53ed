import LspGraph.EngineInvariant

/-! What the engine remembers: the expansions in its memo, which operation adds one, and that
without invalidation none changes. -/
namespace LspGraph
open FiniteMaps Runs

variable {S : Type*} (host : Host S)

namespace Engine

variable {e : Engine S}

/-- Expanding the id asks the server, which answers both requests about the item of the id with
calls whose ids are the expansion's. -/
def Asked (e : Engine S) (id : NodeId) (exp : Expansion) : Prop :=
  ∃ item incoming outgoing s₁ s₂, e.isExpanded id = false ∧
    e.items.lookup id = some item ∧ .fromItem item = id ∧
    incomingCalls host item e.server = (.ok incoming, s₁) ∧
    outgoingCalls host item s₁ = (.ok outgoing, s₂) ∧
    exp = ⟨incoming.map .fromItem, outgoing.map .fromItem⟩

theorem memoized_interned (items : List CallHierarchyItem) (k : NodeId) (exp : Expansion) :
    (e.interned host items).graph.Memoized k exp ↔ e.graph.Memoized k exp := by
  have hstate := interned_state_iff host e items k .expanded (by simp)
  have hcallers : (e.interned host items).graph.callersOf k = e.graph.callersOf k := by
    unfold CallGraph.callersOf
    rw [(interned_lists host e items).1]
  have hcallees : (e.interned host items).graph.calleesOf k = e.graph.calleesOf k := by
    unfold CallGraph.calleesOf
    rw [(interned_lists host e items).2]
  constructor
  · exact fun ⟨h₁, h₂, h₃⟩ => ⟨hstate.mp h₁, hcallers ▸ h₂, hcallees ▸ h₃⟩
  · exact fun ⟨h₁, h₂, h₃⟩ => ⟨hstate.mpr h₁, hcallers.trans h₂, hcallees.trans h₃⟩

theorem memoized_record (cand : NamedCallable) (reason : UnresolvedReason) (k : NodeId)
    (exp : Expansion) :
    (e.record (unresolvedNode cand reason)).graph.Memoized k exp ↔ e.graph.Memoized k exp := by
  have hstate := record_state_iff e cand reason k .expanded (by simp)
  have hcallers : (e.record (unresolvedNode cand reason)).graph.callersOf k =
      e.graph.callersOf k := congrArg (Finmap.lookup k) (CallGraph.upsert_callers _ _)
  have hcallees : (e.record (unresolvedNode cand reason)).graph.calleesOf k =
      e.graph.calleesOf k := congrArg (Finmap.lookup k) (CallGraph.upsert_callees _ _)
  constructor
  · exact fun ⟨h₁, h₂, h₃⟩ => ⟨hstate.mp h₁, hcallers ▸ h₂, hcallees ▸ h₃⟩
  · exact fun ⟨h₁, h₂, h₃⟩ => ⟨hstate.mpr h₁, hcallers.trans h₂, hcallees.trans h₃⟩

theorem memoized_recordExpansion {id : NodeId} (hid : id ∈ e.graph.nodes) (exp : Expansion)
    (k : NodeId) (exp' : Expansion) : (e.recordExpansion id exp).graph.Memoized k exp' ↔
      k = id ∧ exp' = exp ∨ k ≠ id ∧ e.graph.Memoized k exp' := by
  obtain ⟨st, hst⟩ := (CallGraph.mem_nodes_iff_stateOf _ _).mp hid
  have hstate := CallGraph.stateOf_recordExpansion e.graph id exp k
  have hcallers := CallGraph.callersOf_recordExpansion e.graph id exp k
  have hcallees := CallGraph.calleesOf_recordExpansion e.graph id exp k
  by_cases hk : k = id
  · rw [if_pos hk] at hstate hcallers hcallees
    rw [hst] at hstate
    constructor
    · intro hm
      have h₁ := Option.some.inj (hm.callers.symm.trans hcallers)
      have h₂ := Option.some.inj (hm.callees.symm.trans hcallees)
      refine .inl ⟨hk, ?_⟩
      cases exp'
      simp_all
    · rintro (⟨-, rfl⟩ | ⟨hne, -⟩)
      · exact ⟨hstate, hcallers, hcallees⟩
      · exact absurd hk hne
  · rw [if_neg hk] at hstate hcallers hcallees
    constructor
    · exact fun ⟨h₁, h₂, h₃⟩ =>
        .inr ⟨hk, hstate.symm.trans h₁, hcallers.symm.trans h₂, hcallees.symm.trans h₃⟩
    · rintro (⟨hk', -⟩ | ⟨-, h₁, h₂, h₃⟩)
      · exact absurd hk' hk
      · exact ⟨hstate.trans h₁, hcallers.trans h₂, hcallees.trans h₃⟩

/-- A seed does not touch the memo. -/
theorem memoized_seed (cand : NamedCallable) (k : NodeId) (exp : Expansion) :
    (e.seed host cand).2.graph.Memoized k exp ↔ e.graph.Memoized k exp := by
  have hc := seed_case host e cand
  generalize e.seed host cand = r, e.seedAnswer host cand = items at hc
  cases hc with
  | notAFile => exact Iff.rfl
  | failed err s => exact Iff.rfl
  | unresolved reason s => exact memoized_record cand reason k exp
  | resolved item s => exact memoized_interned (e := { e with server := s }) host [item] k exp

theorem not_memoized {id : NodeId} (hx : e.isExpanded id = false) (exp : Expansion) :
    ¬e.graph.Memoized id exp := by
  intro hm
  rw [(isExpanded_iff e id).mpr hm.expanded] at hx
  cases hx

/-- An expansion adds what it asked the server for, and changes no other entry. -/
theorem Inv.memoized_expand (h : e.Inv) (id k : NodeId) (exp : Expansion) :
    (e.expand host id).2.graph.Memoized k exp ↔
      e.graph.Memoized k exp ∨ k = id ∧ e.Asked host id exp := by
  have hc := expand_case host e id
  generalize e.expand host id = r, e.expandAnswer host id = items at hc
  cases hc with
  | memo hx =>
    refine ⟨.inl, ?_⟩
    rintro (hm | ⟨-, item, incoming, outgoing, s₁, s₂, hx', -⟩)
    · exact hm
    · rw [hx] at hx'
      cases hx'
  | noItem hx hi =>
    refine ⟨.inl, ?_⟩
    rintro (hm | ⟨-, item, incoming, outgoing, s₁, s₂, -, hi', -⟩)
    · exact hm
    · rw [hi] at hi'
      cases hi'
  | failed item err s hx hi hf =>
    -- one of the two answers is missing, so that nothing was asked successfully
    refine ⟨.inl, ?_⟩
    rintro (hm | ⟨-, item', incoming, outgoing, s₁, s₂, -, hi', -, h₁, h₂, -⟩)
    · exact hm
    · obtain rfl := Option.some.inj (hi.symm.trans hi')
      rw [h₁] at hf
      rw [h₂] at hf
      rcases hf with hf | hf <;> cases hf
  | asked item incoming outgoing s₁ s₂ hx hi h₁ h₂ =>
    have hid : id ∈ e.items := Finmap.mem_of_lookup_eq_some hi
    have hnode : id ∈ (Engine.interned host { e with server := s₂, expansions := e.expansions + 1 }
        (incoming ++ outgoing)).graph.nodes :=
      (interned_mem_nodes host _ _ id).mpr (.inr (h.items_nodes id hid))
    rw [memoized_recordExpansion hnode, memoized_interned]
    constructor
    -- the entry of the id is the one just recorded; the others are older
    · rintro (⟨hk, rfl⟩ | ⟨-, hm⟩)
      · refine .inr ⟨hk, item, incoming, outgoing, s₁, s₂, hx, hi, ?_, h₁, h₂, rfl⟩
        exact h.itemsKeyed id item hi
      · exact .inl hm
    · rintro (hm | ⟨hk, item', incoming', outgoing', s₁', s₂', -, hi', -, h₁', h₂', rfl⟩)
      · refine .inr ⟨?_, hm⟩
        rintro rfl
        exact not_memoized hx exp hm
      · obtain rfl := Option.some.inj (hi.symm.trans hi')
        obtain ⟨hin, rfl⟩ := Prod.mk.inj (h₁.symm.trans h₁')
        obtain ⟨hout, -⟩ := Prod.mk.inj (h₂.symm.trans h₂')
        rw [Except.ok.inj hin, Except.ok.inj hout]
        exact .inl ⟨hk, rfl⟩

/-- What an expansion of an id with an item returns is in the memo from then on. -/
theorem Inv.memoized_of_expand (h : e.Inv) {id : NodeId} (hid : id ∈ e.items) {exp : Expansion}
    (he : (e.expand host id).1 = .ok exp) : (e.expand host id).2.graph.Memoized id exp := by
  rw [h.memoized_expand]
  have hc := expand_case host e id
  generalize e.expand host id = r, e.expandAnswer host id = items at hc he
  cases hc with
  | memo hx =>
    obtain ⟨exp', hm⟩ := h.exists_memoized ((isExpanded_iff e id).mp hx)
    have he := Except.ok.inj he
    rw [hm.callers, hm.callees] at he
    rw [← he]
    exact .inl hm
  | noItem hx hi => exact absurd hid (Finmap.lookup_eq_none.mp hi)
  | failed item err s => cases he
  | asked item incoming outgoing s₁ s₂ hx hi h₁ h₂ =>
    have hkey := h.itemsKeyed id item hi
    exact .inr ⟨rfl, item, incoming, outgoing, s₁, s₂, hx, hi, hkey, h₁, h₂,
      (Except.ok.inj he).symm⟩

/-- What is in the memo is answered from it. -/
theorem expand_of_memoized {id : NodeId} {exp : Expansion} (hm : e.graph.Memoized id exp) :
    e.expand host id = (.ok exp, e) := by
  unfold expand
  rw [if_pos ((isExpanded_iff e id).mpr hm.expanded), hm.callers, hm.callees]
  rfl

/-- An expansion that fails was not in the memo. -/
theorem not_memoized_of_expand {id : NodeId} {err : Error}
    (he : (e.expand host id).1 = .error err) (exp : Expansion) : ¬e.graph.Memoized id exp := by
  intro hm
  rw [expand_of_memoized host hm] at he
  cases he

/-- What one operation does to an entry of the memo: nothing, unless it invalidates a file. -/
theorem Inv.memoized_apply (h : e.Inv) {op : EngineOp} (hop : ∀ uri, op ≠ .invalidateFile uri)
    {id : NodeId} {exp : Expansion} (hm : e.graph.Memoized id exp) :
    (e.apply host op).2.graph.Memoized id exp := by
  cases op with
  | seed cand => exact (memoized_seed host cand id exp).mpr hm
  | expand id' => exact (h.memoized_expand host id' id exp).mpr (.inl hm)
  | invalidateFile uri => exact absurd rfl (hop uri)

/-- One operation, with whatever server it meets. -/
def AnyServerStep (e : Engine S) (a : Host S × EngineOp) (e' : Engine S) : Prop :=
  e' = (e.apply a.1 a.2).2

/-- Memoization is stable: once an expansion of an id has returned the server's answer, every
later one returns the same and leaves the engine as it is, its server included, whatever was
seeded and expanded in between and whatever the servers met there, or the one met now, would
answer. -/
theorem memoization_is_stable {s : S} {h : List (Engine S × EngineOp)}
    (hr : Run (EngineStep host) (new s) h e) {id : NodeId} (hid : id ∈ e.items) {exp : Expansion}
    (he : (e.expand host id).1 = .ok exp) {h' : List (Engine S × Host S × EngineOp)}
    {e' : Engine S} (hr' : Run AnyServerStep (e.expand host id).2 h' e')
    (hkeep : ∀ p ∈ h', ∀ uri, p.2.2 ≠ .invalidateFile uri) (host' : Host S) :
    e'.expand host' id = (.ok exp, e') := by
  have hi : e.Inv := inv_of_run host hr
  -- the entry is made by the first expansion; the invariant keeps later ones from replacing it
  have hkept := hr'.guarded (fun _ t => t.Inv ∧ t.graph.Memoized id exp)
    (fun _ a => ∀ uri, a.2 ≠ .invalidateFile uri)
    ⟨hi.expand host id, hi.memoized_of_expand host hid he⟩ ?_ hkeep
  · exact expand_of_memoized host' hkept.2
  · rintro h t a t' - ⟨ht, hm⟩ ha rfl
    exact ⟨ht.apply a.1 a.2, ht.memoized_apply a.1 ha hm⟩

/-- An expansion answered once: the server is gone by the time of the operations that follow. -/
theorem memoization_is_stable_server_gone :
    ∃ e' : Engine (List (Result Value)), e'.server = [] ∧
      e'.expand scripted (.fromItem fItem) =
        (.ok ⟨[.fromItem gItem, .fromItem fItem], [.fromItem fItem]⟩, e') := by
  have hr := (Run.start (EngineStep scripted) (new recursiveScript)).snoc
    (a := .seed fSymbol) rfl
  have hstart := Run.start AnyServerStep
    (((new recursiveScript).apply scripted (.seed fSymbol)).2.expand scripted (.fromItem fItem)).2
  have hr' := (hstart.snoc (a := (scripted, .seed fSymbol)) rfl).snoc
    (a := (scripted, .expand (.fromItem gItem))) rfl
  refine ⟨_, rfl, memoization_is_stable scripted hr (by decide) (by decide) hr' ?_ scripted⟩
  simp

end Engine

end LspGraph
