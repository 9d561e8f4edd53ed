import LspGraph.EngineInvariant

/-! Replaying a history without the operations that failed: they have left nothing behind. -/
namespace LspGraph
open FiniteMaps Runs

/-- What an operation of the engine returns. -/
inductive OpResult where
  | seeded (r : Result (Option NodeId))
  | expanded (r : Result Expansion)
  | invalidated
  deriving DecidableEq

/-- Whether an operation returned `Err`. -/
def OpResult.isErr : OpResult → Bool
  | .seeded (.error _) | .expanded (.error _) => true
  | _ => false

variable {S : Type*} (host : Host S)

namespace Engine

/-- An operation with its result. -/
def perform (e : Engine S) : EngineOp → OpResult × Engine S
  | .seed cand => (.seeded (e.seed host cand).1, (e.seed host cand).2)
  | .expand id => (.expanded (e.expand host id).1, (e.expand host id).2)
  | .invalidateFile uri => (.invalidated, e.invalidateFile uri)

/-- Operations one after the other, each of which finds the server in the state given with it. -/
def replay (e : Engine S) : List (S × EngineOp) → List OpResult × Engine S
  | [] => ([], e)
  | (s, op) :: ops =>
    let (r, e) := perform host { e with server := s } op
    let (rs, e) := replay e ops
    (r :: rs, e)

/-- Two engines with the same graph, items and count of expansions. -/
structure SameMaps (e e' : Engine S) : Prop where
  graph : e.graph = e'.graph
  items : e.items = e'.items
  expansions : e.expansions = e'.expansions

/-- The operations of a history that did not fail, with the engines they met. -/
def succeeded (h : List (Engine S × EngineOp)) : List (Engine S × EngineOp) :=
  h.filter fun p => !(p.1.perform host p.2).1.isErr

variable {host} {e e' e₀ : Engine S}

theorem perform_snd (e : Engine S) (op : EngineOp) :
    (e.perform host op).2 = (e.apply host op).2 := by
  cases op <;> rfl

/-- What `SameMaps` leaves open is the server alone. -/
theorem SameMaps.eq_meeting (h : e.SameMaps e') : { e with server := e'.server } = e' := by
  obtain ⟨server, graph, items, expansions⟩ := e'
  obtain ⟨rfl, rfl, rfl⟩ := h
  rfl

/-- An operation that returns `Err` has only talked to the server. -/
theorem sameMaps_of_isErr (op : EngineOp) (h : (e.perform host op).1.isErr = true) :
    SameMaps (e.perform host op).2 e := by
  cases op with
  | seed cand =>
    change OpResult.isErr (.seeded (e.seed host cand).1) = true at h
    change SameMaps (e.seed host cand).2 e
    have hc := seed_case host e cand
    generalize e.seed host cand = r, e.seedAnswer host cand = items at hc h
    cases hc with
    | failed err s => exact ⟨rfl, rfl, rfl⟩
    | _ => cases h
  | expand id =>
    change OpResult.isErr (.expanded (e.expand host id).1) = true at h
    change SameMaps (e.expand host id).2 e
    have hc := expand_case host e id
    generalize e.expand host id = r, e.expandAnswer host id = items at hc h
    cases hc with
    -- whichever of the two requests failed, nothing of the first is interned
    | failed item err s => exact ⟨rfl, rfl, rfl⟩
    | _ => cases h
  | invalidateFile uri => cases h

theorem replay_append (e : Engine S) (ops more : List (S × EngineOp)) :
    replay host e (ops ++ more) =
      ((replay host e ops).1 ++ (replay host (replay host e ops).2 more).1,
        (replay host (replay host e ops).2 more).2) := by
  induction ops generalizing e with
  | nil => rfl
  | cons p ops ih =>
    obtain ⟨s, op⟩ := p
    simp only [List.cons_append, replay, ih]

/-- Failed operations are invisible: without them, and with the server in the same states for
the others, a history leads to the same maps and every other operation returns the same. -/
theorem failed_operations_are_invisible {h : List (Engine S × EngineOp)}
    (hr : Run (EngineStep host) e₀ h e) :
    (replay host e₀ ((succeeded host h).map fun p => (p.1.server, p.2))).1 =
        (succeeded host h).map (fun p => (p.1.perform host p.2).1) ∧
      SameMaps (replay host e₀ ((succeeded host h).map fun p => (p.1.server, p.2))).2 e := by
  refine hr.induct (fun h e =>
    (replay host e₀ ((succeeded host h).map fun p => (p.1.server, p.2))).1 =
        (succeeded host h).map (fun p => (p.1.perform host p.2).1) ∧
      SameMaps (replay host e₀ ((succeeded host h).map fun p => (p.1.server, p.2))).2 e) ?_ ?_
  · exact ⟨rfl, rfl, rfl, rfl⟩
  · rintro h e op e' - ⟨hres, hsame⟩ rfl
    cases hf : (e.perform host op).1.isErr with
    | true =>
      have hs : succeeded host (h ++ [(e, op)]) = succeeded host h := by
        simp [succeeded, hf]
      rw [hs]
      refine ⟨hres, ?_⟩
      -- the step that is left out has changed none of the maps
      have hstep := sameMaps_of_isErr op hf
      rw [perform_snd] at hstep
      exact ⟨hsame.graph.trans hstep.graph.symm, hsame.items.trans hstep.items.symm,
        hsame.expansions.trans hstep.expansions.symm⟩
    | false =>
      have hs : succeeded host (h ++ [(e, op)]) = succeeded host h ++ [(e, op)] := by
        simp [succeeded, hf]
      rw [hs, List.map_append, List.map_append, replay_append, hres]
      -- the replayed engine meets the step's server, so that it is the engine of the history
      have he := hsame.eq_meeting
      simp only [List.map_cons, List.map_nil, replay, he]
      rw [perform_snd]
      exact ⟨trivial, rfl, rfl, rfl⟩

/-- A server that answers the first request of an expansion and times out on the second, and
answers both the next time. -/
def flakyScript : List (Result Value) :=
  [.ok (itemsAnswer [fItem]), .ok (callsAnswer "from" [gItem]),
    .error (.timeout "callHierarchy/outgoingCalls" requestTimeout),
    .ok (callsAnswer "from" [fItem]), .ok (callsAnswer "to" [])]

/-- The failed expansion leaves no trace of the caller it had got. -/
theorem failed_operations_are_invisible_half_answered :
    ∃ h e, Run (EngineStep scripted) (new flakyScript) h e ∧ h.length = 3 ∧
      (succeeded scripted h).length = 2 ∧
      SameMaps (replay scripted (new flakyScript)
        ((succeeded scripted h).map fun p => (p.1.server, p.2))).2 e ∧
      NodeId.fromItem gItem ∉ e.items := by
  have hr := ((Run.start (EngineStep scripted) (new flakyScript)).snoc
    (a := .seed fSymbol) rfl).snoc (a := .expand (.fromItem fItem)) rfl
  have hr := hr.snoc (a := .expand (.fromItem fItem)) rfl
  exact ⟨_, _, hr, rfl, by decide, (failed_operations_are_invisible hr).2, by decide⟩

end Engine

end LspGraph
