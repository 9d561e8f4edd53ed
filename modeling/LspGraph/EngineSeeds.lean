import LspGraph.EngineInvariant

/-! Symbols that do not resolve: what a seed records of them, and what that does to the nodes
that are already there. -/
namespace LspGraph
open FiniteMaps Runs

variable {S : Type*} (host : Host S)

namespace Engine

/-- Why the server has no item for a candidate: it kept reporting modified content until the
retries were exhausted, or it answered without an item. -/
def unresolvedCause (e : Engine S) (cand : NamedCallable) : Option UnresolvedReason :=
  (host.toFilePath cand.uri).bind fun path =>
    match (prepareCallHierarchy host path cand.position e.server).1 with
    | .error (.contentModified _) => some .transientContentModified
    | .ok [] => some .noCallHierarchyItem
    | _ => none

theorem unresolvedCause_of_not_file (e : Engine S) {cand : NamedCallable}
    (h : host.toFilePath cand.uri = none) : e.unresolvedCause host cand = none := by
  unfold unresolvedCause
  rw [h]
  rfl

/-- A seed that hands out no id changes the graph by the node of the cause, if there is one. -/
theorem seed_unresolved (e : Engine S) (cand : NamedCallable)
    (hn : ∀ id, (e.seed host cand).1 ≠ .ok (some id)) :
    (e.seed host cand).2.items = e.items ∧
    (e.seed host cand).2.graph = (e.unresolvedCause host cand).elim e.graph
      fun reason => e.graph.upsert (unresolvedNode cand reason) := by
  revert hn
  unfold seed unresolvedCause
  cases host.toFilePath cand.uri with
  | none => exact fun _ => ⟨rfl, rfl⟩
  | some path =>
    dsimp only [Option.bind_some]
    rcases prepareCallHierarchy host path cand.position e.server with ⟨r, s⟩
    rcases r with err | items
    · -- of the errors only modified content leaves a node
      cases err <;> exact fun _ => ⟨rfl, rfl⟩
    · cases items with
      | nil => exact fun _ => ⟨rfl, rfl⟩
      | cons item items => exact fun hn => absurd rfl (hn _)

/-- A seed finds nothing in two ways: the candidate is in no file, or there is a cause. -/
theorem seed_ok_none_iff (e : Engine S) (cand : NamedCallable) :
    (e.seed host cand).1 = .ok none ↔
      host.toFilePath cand.uri = none ∨ e.unresolvedCause host cand ≠ none := by
  unfold seed unresolvedCause
  cases host.toFilePath cand.uri with
  | none => simp
  | some path =>
    dsimp only [Option.bind_some]
    rcases prepareCallHierarchy host path cand.position e.server with ⟨r, s⟩
    rcases r with err | items
    · cases err <;> simp
    · cases items <;> simp

theorem cause_of_ok_none (e : Engine S) {cand : NamedCallable}
    (hf : host.toFilePath cand.uri ≠ none) (h : (e.seed host cand).1 = .ok none) :
    ∃ reason, e.unresolvedCause host cand = some reason :=
  Option.ne_none_iff_exists'.mp (((seed_ok_none_iff host e cand).mp h).resolve_left hf)

/-- Seeding removes no node. -/
theorem mem_nodes_seed (e : Engine S) (cand : NamedCallable) {k : NodeId}
    (hk : k ∈ e.graph.nodes) : k ∈ (e.seed host cand).2.graph.nodes := by
  have hc := seed_case host e cand
  generalize e.seed host cand = r, e.seedAnswer host cand = items at hc
  cases hc with
  | notAFile => exact hk
  | failed err s => exact hk
  | unresolved reason s => exact (CallGraph.mem_upsert _ _ k).mpr (.inr hk)
  | resolved item s => exact (interned_mem_nodes _ _ _ k).mpr (.inr hk)

/-- A seed that hands out no id, and what the graph must say of the candidate afterwards. -/
def RecordsUnresolved (e : Engine S) (cand : NamedCallable) : Prop :=
  (e.seed host cand).1 = .ok none →
    unresolvedId cand ∈ (e.seed host cand).2.graph.nodes ∧
    (unresolvedId cand ∉ e.graph.nodes → ∃ reason, e.unresolvedCause host cand = some reason ∧
      (e.seed host cand).2.graph.stateOf (unresolvedId cand) = some (.unresolved reason))

/-- The condition on a seed: the candidate is in a file, or its id has a node already. -/
def Recordable (e : Engine S) (cand : NamedCallable) : Prop :=
  host.toFilePath cand.uri ≠ none ∨ unresolvedId cand ∈ e.graph.nodes

instance (e : Engine S) (cand : NamedCallable) : Decidable (e.Recordable host cand) :=
  inferInstanceAs (Decidable (_ ∨ _))

/-- A seed that is not recordable returns at once, with the graph as it was. -/
theorem dropped_of_not_recordable (e : Engine S) {cand : NamedCallable}
    (h : ¬e.Recordable host cand) :
    (e.seed host cand).1 = .ok none ∧ unresolvedId cand ∉ (e.seed host cand).2.graph.nodes := by
  obtain ⟨hf, hm⟩ := not_or.mp h
  have hf := not_not.mp hf
  have hnone := (seed_ok_none_iff host e cand).mpr (.inl hf)
  refine ⟨hnone, ?_⟩
  rw [(seed_unresolved host e cand (by simp [hnone])).2, unresolvedCause_of_not_file host e hf]
  exact hm

theorem recordsUnresolved_iff (e : Engine S) (cand : NamedCallable) :
    e.RecordsUnresolved host cand ↔ e.Recordable host cand := by
  constructor
  · intro hr
    by_contra hg
    obtain ⟨hnone, hm⟩ := dropped_of_not_recordable host e hg
    exact hm (hr hnone).1
  · intro hg hnone
    rw [(seed_unresolved host e cand (by simp [hnone])).2]
    by_cases hf : host.toFilePath cand.uri = none
    · -- without a file only a node from before can be meant
      have hm := hg.resolve_left (not_not.mpr hf)
      rw [unresolvedCause_of_not_file host e hf]
      exact ⟨hm, fun hm' => absurd hm hm'⟩
    · obtain ⟨reason, hreason⟩ := cause_of_ok_none host e hf hnone
      rw [hreason]
      refine ⟨(CallGraph.mem_upsert _ _ _).mpr (.inl rfl), fun hm => ⟨reason, rfl, ?_⟩⟩
      -- a new node takes the state it is recorded with
      have hst : e.graph.stateOf (unresolvedId cand) = none := by
        by_contra hst
        exact hm ((CallGraph.mem_nodes_iff_stateOf _ _).mpr (Option.ne_none_iff_exists'.mp hst))
      change (e.record (unresolvedNode cand reason)).graph.stateOf (unresolvedId cand) = _
      rw [record_stateOf, if_pos rfl, hst]
      rfl

/-- One seed of a list of candidates. -/
def SeedStep (e : Engine S) (cand : NamedCallable) (e' : Engine S) : Prop :=
  e' = (e.seed host cand).2

/-- The seed of a candidate, made in the engine `e`, is represented in a graph: by the node of
the id it handed out, or by the node of an unresolved symbol. -/
def Represented (e : Engine S) (cand : NamedCallable) (g : CallGraph) : Prop :=
  ∀ id, (e.seed host cand).1 = .ok id → id.getD (unresolvedId cand) ∈ g.nodes

theorem represented_seed_iff (e : Engine S) (cand : NamedCallable) :
    e.Represented host cand (e.seed host cand).2.graph ↔ e.Recordable host cand := by
  constructor
  · intro hr
    by_contra hg
    obtain ⟨hnone, hm⟩ := dropped_of_not_recordable host e hg
    exact hm (hr none hnone)
  · intro hg id hid
    cases id with
    | none => exact ((recordsUnresolved_iff host e cand).mpr hg hid).1
    | some id =>
      have hc := seed_case host e cand
      generalize e.seed host cand = r, e.seedAnswer host cand = items at hc hid
      cases hc with
      | resolved item s =>
        obtain rfl := Option.some.inj (Except.ok.inj hid)
        exact (interned_mem_nodes _ _ _ _).mpr (.inl (List.mem_singleton.mpr rfl))
      | notAFile => cases hid
      | failed err s => cases hid
      | unresolved reason s => cases hid

/-- Exactly when symbols without an item are recorded: one seed leaves a node for its candidate
if and only if the candidate is in a file or has a node already; and seeding a list of
candidates represents all of them, at each point of the list, if and only if every one of them
meets this when its turn comes. -/
theorem unresolved_recorded_iff (e : Engine S) :
    (∀ cand, e.RecordsUnresolved host cand ↔
      host.toFilePath cand.uri ≠ none ∨ unresolvedId cand ∈ e.graph.nodes) ∧
    ∀ h t, Run (SeedStep host) e h t →
      ((∀ p ∈ h, host.toFilePath p.2.uri ≠ none ∨ unresolvedId p.2 ∈ p.1.graph.nodes) ↔
        ∀ h₁ t₁, h₁ <+: h → Run (SeedStep host) e h₁ t₁ →
          ∀ p ∈ h₁, p.1.Represented host p.2 t₁.graph) := by
  refine ⟨recordsUnresolved_iff host e, fun h t hr => ?_⟩
  refine hr.guarded_iff (fun h t => ∀ p ∈ h, p.1.Represented host p.2 t.graph)
    (fun e cand => e.Recordable host cand) (by simp) ?_ ?_
  · rintro h e cand e' - hp hg rfl p hm
    -- earlier candidates keep their nodes, and the condition is exact for the last one
    rcases List.mem_append.mp hm with hm | hm
    · exact fun id hid => mem_nodes_seed host e cand (hp p hm id hid)
    · obtain rfl := List.mem_singleton.mp hm
      exact (represented_seed_iff host e cand).mpr hg
  · rintro h e cand e' - - rfl hp
    refine (represented_seed_iff host e cand).mp (hp (e, cand) ?_)
    exact List.mem_append_right _ (List.mem_singleton.mpr rfl)

/-- A symbol of a buffer that was never saved. -/
def unsavedSymbol : NamedCallable := ⟨"f", ⟨"untitled:Untitled-1"⟩, ⟨1, 3⟩⟩

/-- A symbol without a file leaves no trace in an empty graph. -/
theorem unsaved_symbol_is_dropped :
    (Engine.seed scripted (new []) unsavedSymbol).1 = .ok none ∧
      unresolvedId unsavedSymbol ∉ (Engine.seed scripted (new []) unsavedSymbol).2.graph.nodes := by
  decide

/-- The condition is met by candidates in files: a server without items for the first one, and
with an item for the second. -/
theorem unresolved_recorded_two_candidates :
    ∃ h t, Run (SeedStep scripted)
        (new [.ok (itemsAnswer []), .ok (itemsAnswer [gItem])]) h t ∧
      h.map Prod.snd = [fSymbol, ⟨"g", ⟨"file:///b.rs"⟩, ⟨5, 3⟩⟩] ∧
      ∀ p ∈ h, p.1.Represented scripted p.2 t.graph := by
  have hr := ((Run.start (SeedStep scripted)
    (new [.ok (itemsAnswer []), .ok (itemsAnswer [gItem])])).snoc (a := fSymbol) rfl).snoc
      (a := ⟨"g", ⟨"file:///b.rs"⟩, ⟨5, 3⟩⟩) rfl
  refine ⟨_, _, hr, rfl, ?_⟩
  exact (((unresolved_recorded_iff scripted _).2 _ _ hr).mp (by decide)) _ _
    (List.prefix_refl _) hr

end Engine

end LspGraph
