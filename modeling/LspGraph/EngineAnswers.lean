import LspGraph.EngineMemo

/-! Which expansions are answers of the server: those of an id it was asked about since the file
of the id was last invalidated. -/
namespace LspGraph
open FiniteMaps Runs

variable {S : Type*} (host : Host S)

namespace Engine

/-- An expansion of the history asked the server about the id, and was answered twice; the file
of the id has not been invalidated since. -/
def AnsweredSince (h : List (Engine S × EngineOp)) (id : NodeId) : Prop :=
  ∃ h₁ e exp h₂, h = h₁ ++ (e, .expand id) :: h₂ ∧ e.Asked host id exp ∧
    ∀ p ∈ h₂, p.2 ≠ .invalidateFile id.uri

variable {host} {e : Engine S}

theorem answeredSince_snoc (h : List (Engine S × EngineOp)) (e : Engine S) (op : EngineOp)
    (id : NodeId) : AnsweredSince host (h ++ [(e, op)]) id ↔
      (op = .expand id ∧ ∃ exp, e.Asked host id exp) ∨
        op ≠ .invalidateFile id.uri ∧ AnsweredSince host h id := by
  constructor
  · rintro ⟨h₁, e', exp, h₂, heq, ha, hk⟩
    -- the answered expansion is the last operation, or one before it
    rcases List.eq_nil_or_concat h₂ with rfl | ⟨h₃, p, rfl⟩
    · obtain ⟨-, hp⟩ := List.append_inj' heq rfl
      obtain ⟨rfl, rfl⟩ := Prod.mk.inj (List.singleton_inj.mp hp)
      exact .inl ⟨rfl, exp, ha⟩
    · have heq : h ++ [(e, op)] = (h₁ ++ (e', .expand id) :: h₃) ++ [p] := by simpa using heq
      obtain ⟨rfl, hp⟩ := List.append_inj' heq rfl
      obtain rfl := List.singleton_inj.mp hp
      have hk := List.forall_mem_append.mp (List.concat_eq_append ▸ hk)
      exact .inr ⟨hk.2 _ (List.mem_singleton.mpr rfl), h₁, e', exp, h₃, rfl, ha, hk.1⟩
  · rintro (⟨rfl, exp, ha⟩ | ⟨hop, h₁, e', exp, h₂, rfl, ha, hk⟩)
    · exact ⟨h, e, exp, [], rfl, ha, by simp⟩
    · -- an older answer counts on, unless this operation invalidates the file
      refine ⟨h₁, e', exp, h₂ ++ [(e, op)], by simp, ha, ?_⟩
      intro p hp
      rcases List.mem_append.mp hp with hp | hp
      · exact hk p hp
      · rw [List.mem_singleton.mp hp]
        exact hop

/-- What one operation does to the mark of an expanded node. -/
theorem Inv.expanded_apply_iff (h : e.Inv) (op : EngineOp) (id : NodeId) :
    (e.apply host op).2.graph.stateOf id = some .expanded ↔
      (op = .expand id ∧ ∃ exp, e.Asked host id exp) ∨
        op ≠ .invalidateFile id.uri ∧ e.graph.stateOf id = some .expanded := by
  -- the mark is set where the memo has an expansion, about which the lemmas of the memo speak
  have hmemo {e' : Engine S} (h' : e'.Inv) :
      e'.graph.stateOf id = some .expanded ↔ ∃ exp, e'.graph.Memoized id exp :=
    ⟨h'.exists_memoized, fun ⟨_, hm⟩ => hm.expanded⟩
  cases op with
  | seed cand =>
    change (e.seed host cand).2.graph.stateOf id = _ ↔ _
    rw [hmemo (h.seed host cand), hmemo h]
    simp [memoized_seed]
  | expand id' =>
    change (e.expand host id').2.graph.stateOf id = _ ↔ _
    rw [hmemo (h.expand host id'), hmemo h]
    simp only [h.memoized_expand, exists_or, exists_and_left, EngineOp.expand.injEq, ne_eq,
      reduceCtorEq, not_false_eq_true, true_and]
    constructor
    · rintro (hm | ⟨rfl, ha⟩)
      · exact .inr hm
      · exact .inl ⟨rfl, ha⟩
    · rintro (⟨rfl, ha⟩ | hm)
      · exact .inr ⟨rfl, ha⟩
      · exact .inl hm
  | invalidateFile uri =>
    apply (stateOf_invalidateFile e uri id _).trans
    simp [eq_comm]

/-- Two answers make an expansion. -/
theorem expand_of_asked {id : NodeId} {exp : Expansion} (ha : e.Asked host id exp) :
    (e.expand host id).1 = .ok exp := by
  obtain ⟨item, incoming, outgoing, s₁, s₂, hx, hi, -, h₁, h₂, rfl⟩ := ha
  unfold expand
  rw [if_neg (by simp [hx]), hi]
  simp only [h₁, h₂, internAll_ids]

/-- The nodes marked as expanded are those the server answered for. -/
theorem expanded_iff_answeredSince {s : S} {h : List (Engine S × EngineOp)}
    (hr : Run (EngineStep host) (new s) h e) (id : NodeId) :
    e.graph.stateOf id = some .expanded ↔ AnsweredSince host h id := by
  refine hr.induct (fun h e => e.graph.stateOf id = some .expanded ↔ AnsweredSince host h id)
    ?_ ?_
  · refine iff_of_false (by simp [new, CallGraph.new, CallGraph.stateOf, CallGraph.get]) ?_
    rintro ⟨h₁, e, exp, h₂, heq, -⟩
    simp at heq
  · rintro h e op e' hr ih rfl
    rw [(inv_of_run host hr).expanded_apply_iff, answeredSince_snoc, ih]

/-- Every expansion that is Ok is an answer of the server, given now or since the file of the id
was last invalidated, except for an id that was not handed out since then: that one gets the
empty expansion, without a request. -/
theorem ok_expansion_is_answered {s : S} {h : List (Engine S × EngineOp)}
    (hr : Run (EngineStep host) (new s) h e) (id : NodeId) :
    ((∃ exp, (e.expand host id).1 = .ok exp) ↔
      AnsweredSince host (h ++ [(e, .expand id)]) id ∨ id ∉ live host h) ∧
    (id ∉ live host h → e.expand host id = (.ok ⟨[], []⟩, e)) := by
  have hi : e.Inv := inv_of_run host hr
  have hlast : AnsweredSince host (h ++ [(e, .expand id)]) id ↔
      (∃ exp, e.Asked host id exp) ∨ e.graph.stateOf id = some .expanded := by
    rw [answeredSince_snoc, ← expanded_iff_answeredSince hr id]
    simp
  -- an id without an item is not expanded, and the early return gives the empty expansion
  have hempty (hl : id ∉ live host h) : e.expand host id = (.ok ⟨[], []⟩, e) := by
    have hn : id ∉ e.items := fun hm => hl ((mem_live_iff hr id).mpr hm)
    have hx : e.isExpanded id = false := by
      by_contra hx
      have hst := (isExpanded_iff e id).mp (Bool.not_eq_false _ ▸ hx)
      exact hn (hi.node_item id (.inr hst))
    unfold expand
    rw [if_neg (by simp [hx]), Finmap.lookup_eq_none.mpr hn]
  refine ⟨?_, hempty⟩
  rw [hlast]
  constructor
  · rintro ⟨exp, hok⟩
    by_cases hl : id ∈ live host h
    · -- what an id with an item expands to is in the memo afterwards
      have hm := hi.memoized_of_expand host ((mem_live_iff hr id).mp hl) hok
      rcases (hi.memoized_expand host id id exp).mp hm with hm | ⟨-, ha⟩
      · exact .inl (.inr hm.expanded)
      · exact .inl (.inl ⟨exp, ha⟩)
    · exact .inr hl
  · -- asked now, in the memo, or without an item
    rintro ((⟨exp, ha⟩ | hst) | hl)
    · exact ⟨exp, expand_of_asked ha⟩
    · obtain ⟨exp, hm⟩ := hi.exists_memoized hst
      exact ⟨exp, by rw [expand_of_memoized host hm]⟩
    · exact ⟨_, congrArg Prod.fst (hempty hl)⟩

/-- A server without an item for `f`, and with nothing else to say. -/
def itemlessScript : List (Result Value) := [.ok (itemsAnswer [])]

/-- A symbol recorded as unresolved expands, to nothing, though the server was never asked. -/
theorem unresolved_symbol_expands :
    ∃ h e, Run (EngineStep scripted) (new itemlessScript) h e ∧ h.map Prod.snd = [.seed fSymbol] ∧
      e.graph.stateOf (unresolvedId fSymbol) = some (.unresolved .noCallHierarchyItem) ∧
      e.expand scripted (unresolvedId fSymbol) = (.ok ⟨[], []⟩, e) ∧
      ¬AnsweredSince scripted (h ++ [(e, .expand (unresolvedId fSymbol))])
        (unresolvedId fSymbol) := by
  have hr := (Run.start (EngineStep scripted) (new itemlessScript)).snoc
    (a := .seed fSymbol) rfl
  refine ⟨_, _, hr, rfl, by decide, rfl, ?_⟩
  rw [answeredSince_snoc, ← expanded_iff_answeredSince hr]
  rintro (⟨-, exp, item, incoming, outgoing, s₁, s₂, -, hi, -⟩ | ⟨-, hst⟩)
  · exact absurd (Finmap.mem_of_lookup_eq_some hi) (by decide)
  · exact absurd hst (by decide)

/-- An answered expansion, repeated after the file of the caller was invalidated. -/
theorem ok_expansion_is_answered_recursive :
    ∃ h e, Run (EngineStep scripted) (new recursiveScript) h e ∧
      h.map Prod.snd = [.seed fSymbol, .expand (.fromItem fItem),
        .invalidateFile "file:///b.rs"] ∧
      AnsweredSince scripted (h ++ [(e, .expand (.fromItem fItem))]) (.fromItem fItem) := by
  have hr := ((Run.start (EngineStep scripted) (new recursiveScript)).snoc
    (a := .seed fSymbol) rfl).snoc (a := .expand (.fromItem fItem)) rfl
  have hr := hr.snoc (a := .invalidateFile "file:///b.rs") rfl
  refine ⟨_, _, hr, rfl, ?_⟩
  have ha := (ok_expansion_is_answered hr (.fromItem fItem)).1.mp
    ⟨⟨[.fromItem fItem], [.fromItem fItem]⟩, by decide⟩
  exact ha.resolve_right (not_not.mpr (by decide))

end Engine

end LspGraph
