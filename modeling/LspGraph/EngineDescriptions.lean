import LspGraph.EngineSeeds

/-! The kind and the detail of the nodes: those of the item interned last, until a seed of the
same symbol finds nothing and the description of an unresolved symbol is written over them. -/
namespace LspGraph
open FiniteMaps Runs

variable {S : Type*} (host : Host S)

namespace Engine

/-- The items interned in a history, oldest first. -/
def internedItems (h : List (Engine S × EngineOp)) : List CallHierarchyItem :=
  h.flatMap fun p => p.1.answered host p.2

/-- The last of the items with this id. -/
def lastOf (items : List CallHierarchyItem) (id : NodeId) : Option CallHierarchyItem :=
  items.reverse.find? fun item => decide (NodeId.fromItem item = id)

theorem lastOf_append (items more : List CallHierarchyItem) (id : NodeId) :
    lastOf (items ++ more) id = (lastOf more id).or (lastOf items id) := by
  unfold lastOf
  rw [List.reverse_append, List.find?_append]

theorem lookup_interned (e : Engine S) (items : List CallHierarchyItem) (k : NodeId) :
    (interned host e items).items.lookup k = (lastOf items k).or (e.items.lookup k) := by
  induction items generalizing e with
  | nil => rfl
  | cons item items ih =>
    have hone : (intern host e item).2.items.lookup k =
        (lastOf [item] k).or (e.items.lookup k) := by
      change (e.items.insert (.fromItem item) item).lookup k = _
      rw [lookup_insert_ite, lastOf]
      by_cases hk : k = .fromItem item
      · simp [hk]
      · simp [hk, Ne.symm hk]
    -- the later items are looked at first
    calc (interned host (intern host e item).2 items).items.lookup k
      _ = (lastOf items k).or ((intern host e item).2.items.lookup k) := ih _
      _ = (lastOf items k).or ((lastOf [item] k).or (e.items.lookup k)) := by rw [hone]
      _ = (lastOf ([item] ++ items) k).or (e.items.lookup k) := by
          rw [lastOf_append, Option.or_assoc]

/-- What an operation does to the items: those it interns replace older ones. -/
theorem apply_lookup (e : Engine S) (op : EngineOp) {k : NodeId}
    (hk : k ∈ (e.apply host op).2.items) :
    (e.apply host op).2.items.lookup k = (lastOf (e.answered host op) k).or (e.items.lookup k) := by
  cases op with
  | seed cand =>
    have hc := seed_case host e cand
    change (e.seed host cand).2.items.lookup k = (lastOf (e.seedAnswer host cand) k).or _
    generalize e.seed host cand = r, e.seedAnswer host cand = items at hc
    cases hc with
    | resolved item s => exact lookup_interned host { e with server := s } [item] k
    | _ => rfl
  | expand id =>
    have hc := expand_case host e id
    change (e.expand host id).2.items.lookup k = (lastOf (e.expandAnswer host id) k).or _
    generalize e.expand host id = r, e.expandAnswer host id = items at hc
    cases hc with
    | asked item incoming outgoing s₁ s₂ =>
      exact lookup_interned host { e with server := s₂, expansions := e.expansions + 1 } _ k
    | _ => rfl
  | invalidateFile uri =>
    -- an item that is left is not of the file
    have hu := ((mem_items_invalidateFile e uri k).mp hk).1
    exact (items_invalidateFile e uri k).trans (if_neg hu)

/-- The item the engine holds for an id is the one interned last. -/
theorem lookup_eq_lastOf {s : S} {e : Engine S} {h : List (Engine S × EngineOp)}
    (hr : Run (EngineStep host) (new s) h e) {k : NodeId} (hk : k ∈ e.items) :
    e.items.lookup k = lastOf (internedItems host h) k := by
  refine hr.induct (fun h e => k ∈ e.items → e.items.lookup k = lastOf (internedItems host h) k)
    (fun hk => absurd hk Finmap.notMem_empty) ?_ hk
  rintro h e op e' - ih rfl hk
  have happend : internedItems host (h ++ [(e, op)]) =
      internedItems host h ++ e.answered host op := by simp [internedItems]
  rw [apply_lookup host e op hk, happend, lastOf_append]
  cases hl : lastOf (e.answered host op) k with
  | some item => rfl
  | none =>
    -- nothing is interned for the id, so that its item is an older one
    have hold := apply_lookup host e op hk
    rw [hl, Option.none_or] at hold
    rw [Option.none_or, Option.none_or]
    refine ih (Finmap.lookup_isSome.mp ?_)
    rw [← hold]
    exact Finmap.lookup_isSome.mpr hk

/-- Every node with an item is described by it. -/
def ShowsItems (e : Engine S) : Prop := ∀ k item, e.items.lookup k = some item →
  e.graph.descriptionOf k = some (host.kindName item.kind, item.detail)

/-- Every node with an item is described by the item interned last for its id. -/
def DescribedByLast (h : List (Engine S × EngineOp)) (e : Engine S) : Prop :=
  ∀ k ∈ e.items, ∃ n item, e.graph.get k = some n ∧ lastOf (internedItems host h) k = some item ∧
    n.kindName = host.kindName item.kind ∧ n.detail = item.detail

theorem describedByLast_iff {s : S} {e : Engine S} {h : List (Engine S × EngineOp)}
    (hr : Run (EngineStep host) (new s) h e) : e.DescribedByLast host h ↔ e.ShowsItems host := by
  constructor
  · intro hd k item hk
    have hm : k ∈ e.items := Finmap.mem_of_lookup_eq_some hk
    obtain ⟨n, item', hn, hl, hkind, hdetail⟩ := hd k hm
    rw [← lookup_eq_lastOf host hr hm, hk] at hl
    obtain rfl := Option.some.inj hl
    rw [CallGraph.descriptionOf, hn, Option.map_some, hkind, hdetail]
  · intro hd k hk
    obtain ⟨item, hi⟩ := Finmap.mem_iff.mp hk
    obtain ⟨n, hn, hdesc⟩ := Option.map_eq_some_iff.mp (hd k item hi)
    refine ⟨n, item, hn, (lookup_eq_lastOf host hr hk).symm.trans hi, ?_⟩
    exact Prod.mk.inj hdesc

/-- The condition on a step: a seed that finds nothing, under an id with an item, meets a node
that is described as an unresolved symbol already. -/
def Spares (e : Engine S) : EngineOp → Prop
  | .seed cand => e.unresolvedCause host cand ≠ none → unresolvedId cand ∈ e.items →
      e.graph.descriptionOf (unresolvedId cand) = some ("Unknown", none)
  | _ => True

instance (e : Engine S) : DecidablePred (e.Spares host)
  | .seed _ => inferInstanceAs (Decidable (_ → _ → _))
  | .expand _ | .invalidateFile _ => isTrue trivial

variable {host} {e : Engine S}

theorem ShowsItems.interned (h : e.ShowsItems host) (items : List CallHierarchyItem) :
    (e.interned host items).ShowsItems host := by
  induction items generalizing e with
  | nil => exact h
  | cons item items ih =>
    apply ih
    intro k it hk
    change (e.items.insert (.fromItem item) item).lookup k = some it at hk
    change (e.graph.upsert (itemNode host item)).descriptionOf k = _
    -- the item and the node of its id are replaced together
    rw [lookup_insert_ite] at hk
    apply (CallGraph.descriptionOf_upsert _ _ k).trans
    split_ifs at hk with hki
    · apply (if_pos hki).trans
      rw [← Option.some.inj hk]
      rfl
    · exact (if_neg hki).trans (h k it hk)

theorem ShowsItems.expand (h : e.ShowsItems host) (id : NodeId) :
    (e.expand host id).2.ShowsItems host := by
  have hc := expand_case host e id
  generalize e.expand host id = r, e.expandAnswer host id = items at hc
  cases hc with
  | asked item incoming outgoing s₁ s₂ =>
    have hin := ShowsItems.interned (e := { e with server := s₂, expansions := e.expansions + 1 })
      h (incoming ++ outgoing)
    exact fun k it hk => (CallGraph.descriptionOf_recordExpansion _ _ _ k).trans (hin k it hk)
  | _ => exact h

theorem ShowsItems.invalidateFile (h : e.ShowsItems host) (uri : String) :
    (e.invalidateFile uri).ShowsItems host := by
  intro k item hk
  rw [items_invalidateFile] at hk
  change (e.graph.removeFile uri).descriptionOf k = _
  rw [CallGraph.descriptionOf_removeFile]
  split_ifs at hk ⊢
  exact h k item hk

/-- A seed that finds nothing describes one node anew. -/
theorem descriptionOf_seed (cand : NamedCallable)
    (hn : ∀ id, (e.seed host cand).1 ≠ .ok (some id)) (k : NodeId) :
    (e.seed host cand).2.graph.descriptionOf k =
      if e.unresolvedCause host cand ≠ none ∧ k = unresolvedId cand then some ("Unknown", none)
      else e.graph.descriptionOf k := by
  rw [(seed_unresolved host e cand hn).2]
  cases e.unresolvedCause host cand with
  | none => simp
  | some reason => simp [CallGraph.descriptionOf_upsert, unresolvedNode]

/-- The node of an id after a seed that finds nothing: its state is kept. -/
theorem get_seed_eq_iff (cand : NamedCallable) (hn : ∀ id, (e.seed host cand).1 ≠ .ok (some id))
    {k : NodeId} (hk : k ∈ e.graph.nodes) :
    (e.seed host cand).2.graph.get k = e.graph.get k ↔
      (e.seed host cand).2.graph.descriptionOf k = e.graph.descriptionOf k := by
  refine ⟨fun h => by rw [CallGraph.descriptionOf, h]; rfl, fun h => ?_⟩
  obtain ⟨n, hg⟩ := (CallGraph.mem_nodes _ k).mp hk
  revert h
  rw [(seed_unresolved host e cand hn).2]
  cases e.unresolvedCause host cand with
  | none => exact fun _ => rfl
  | some reason =>
    change (e.graph.upsert _).descriptionOf k = _ → (e.graph.upsert _).get k = _
    unfold CallGraph.descriptionOf
    rw [CallGraph.get_upsert]
    split_ifs with hki
    · rw [← hki, hg]
      intro h
      obtain ⟨hkind, hdetail⟩ := Prod.mk.inj (Option.some.inj h)
      simp only [Option.map_some, Option.getD_some] at hkind hdetail ⊢
      rw [hkind, hdetail]
    · exact fun _ => rfl

/-- Where a seed finds nothing, the nodes with items are untouched exactly if it spares them. -/
theorem seed_frame_iff (hi : e.Inv) (cand : NamedCallable)
    (hn : ∀ id, (e.seed host cand).1 ≠ .ok (some id)) :
    (∀ k ∈ e.items, (e.seed host cand).2.graph.get k = e.graph.get k) ↔
      e.Spares host (.seed cand) := by
  constructor
  · intro h hc hm
    have hk := (get_seed_eq_iff cand hn (hi.items_nodes _ hm)).mp (h _ hm)
    rw [descriptionOf_seed cand hn, if_pos ⟨hc, rfl⟩] at hk
    exact hk.symm
  · intro h k hk
    rw [get_seed_eq_iff cand hn (hi.items_nodes k hk), descriptionOf_seed cand hn]
    split_ifs with hck
    · obtain ⟨hc, rfl⟩ := hck
      exact (h hc hk).symm
    · rfl

theorem spares_of_resolved {cand : NamedCallable} {id : NodeId}
    (h : (e.seed host cand).1 = .ok (some id)) : e.Spares host (.seed cand) := by
  intro hc
  have hnone := (seed_ok_none_iff host e cand).mpr (.inr hc)
  rw [h] at hnone
  cases hnone

theorem showsItems_seed_iff (h : e.ShowsItems host) (cand : NamedCallable) :
    (e.seed host cand).2.ShowsItems host ↔ e.Spares host (.seed cand) := by
  by_cases hn : ∀ id, (e.seed host cand).1 ≠ .ok (some id)
  · -- no id is handed out: at most the node of the cause is described anew
    constructor
    · intro hd hc hm
      obtain ⟨item, hit⟩ := Finmap.mem_iff.mp hm
      have hnew := hd (unresolvedId cand) item (by rw [(seed_unresolved host e cand hn).1, hit])
      rw [descriptionOf_seed cand hn, if_pos ⟨hc, rfl⟩] at hnew
      exact (h _ item hit).trans hnew.symm
    · intro hg k item hk
      rw [(seed_unresolved host e cand hn).1] at hk
      rw [descriptionOf_seed cand hn]
      split_ifs with hck
      · obtain ⟨hc, rfl⟩ := hck
        exact (hg hc (Finmap.mem_of_lookup_eq_some hk)).symm.trans (h _ item hk)
      · exact h k item hk
  · obtain ⟨id, hid⟩ := not_forall.mp hn
    apply iff_of_true _ (spares_of_resolved (not_not.mp hid))
    have hc := seed_case host e cand
    have hid := not_not.mp hid
    generalize e.seed host cand = r, e.seedAnswer host cand = items at hc hid
    cases hc with
    | resolved item s => exact ShowsItems.interned (e := { e with server := s }) h [item]
    | notAFile => cases hid
    | failed err s => cases hid
    | unresolved reason s => cases hid

/-- What one operation does: the descriptions survive it exactly where the condition holds. -/
theorem showsItems_apply_iff (h : e.ShowsItems host) (op : EngineOp) :
    (e.apply host op).2.ShowsItems host ↔ e.Spares host op := by
  cases op with
  | seed cand => exact showsItems_seed_iff h cand
  | expand id => exact iff_of_true (h.expand id) trivial
  | invalidateFile uri => exact iff_of_true (h.invalidateFile uri) trivial

variable (host)

/-- Exactly when a seed that finds nothing leaves the resolved nodes alone: if and only if the
node of its candidate, where it has an item, reads as unresolved already. Over a history: all
along it the nodes with items carry the kind and the detail of the item interned last, if and
only if every seed of it meets this. -/
theorem resolved_nodes_spared_iff {s : S} {h : List (Engine S × EngineOp)}
    (hr : Run (EngineStep host) (new s) h e) :
    (∀ cand, (∀ id, (e.seed host cand).1 ≠ .ok (some id)) →
      ((∀ k ∈ e.items, (e.seed host cand).2.graph.get k = e.graph.get k) ↔
        e.Spares host (.seed cand))) ∧
    ((∀ p ∈ h, p.1.Spares host p.2) ↔
      ∀ h₁ t, h₁ <+: h → Run (EngineStep host) (new s) h₁ t → t.DescribedByLast host h₁) := by
  refine ⟨seed_frame_iff (inv_of_run host hr), ?_⟩
  -- what a step keeps is the description by the item that is held
  have hiff := hr.guarded_iff (fun _ t => t.ShowsItems host) (fun e op => e.Spares host op)
    (fun k item hk => absurd (Finmap.mem_of_lookup_eq_some hk) Finmap.notMem_empty)
    (by rintro h e op e' - hd hg rfl; exact (showsItems_apply_iff hd op).mpr hg)
    (by rintro h e op e' - hd rfl hd'; exact (showsItems_apply_iff hd op).mp hd')
  rw [hiff]
  exact forall₂_congr fun h₁ t => forall₂_congr fun _ hr => (describedByLast_iff host hr).symm

/-- Two seeds of a symbol, of which only the first finds it. -/
def forgetfulScript : List (Result Value) := [.ok (itemsAnswer [fItem]), .ok (itemsAnswer [])]

/-- The second seed overwrites the kind of the function. -/
theorem resolved_node_degraded :
    ∃ h e, Run (EngineStep scripted) (new forgetfulScript) h e ∧
      h.map Prod.snd = [.seed fSymbol] ∧ NodeId.fromItem fItem ∈ e.items ∧
      e.graph.descriptionOf (.fromItem fItem) = some ("Function", none) ∧
      (e.seed scripted fSymbol).1 = .ok none ∧
      (e.seed scripted fSymbol).2.graph.descriptionOf (.fromItem fItem) =
        some ("Unknown", none) := by
  have hr := (Run.start (EngineStep scripted) (new forgetfulScript)).snoc
    (a := .seed fSymbol) rfl
  exact ⟨_, _, hr, rfl, by decide, by decide, by decide, by decide⟩

/-- The condition is met where a symbol that was found is not seeded again. -/
theorem resolved_nodes_spared_recursive :
    ∃ h e, Run (EngineStep scripted) (new recursiveScript) h e ∧
      h.map Prod.snd = [.seed fSymbol, .expand (.fromItem fItem)] ∧
      .fromItem gItem ∈ e.items ∧ e.DescribedByLast scripted h := by
  have hr := ((Run.start (EngineStep scripted) (new recursiveScript)).snoc
    (a := .seed fSymbol) rfl).snoc (a := .expand (.fromItem fItem)) rfl
  refine ⟨_, _, hr, rfl, by decide, ?_⟩
  exact ((resolved_nodes_spared_iff scripted hr).2.mp (by decide)) _ _ (List.prefix_refl _) hr

end Engine

end LspGraph
