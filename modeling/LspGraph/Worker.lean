import LspGraph.App
import LspGraph.Engine

/-! The worker that owns the engine and serves the requests one by one (`worker.rs`). -/
namespace LspGraph

/-- What the worker needs from an engine whose state is of type `σ`. Shutting it down is left
out: its result is dropped, and nothing comes after it. -/
structure EngineOps (σ : Type*) where
  canSearch : σ → Bool
  search : String → σ → Result (List SymbolMatch) × σ
  seed : SymbolMatch → σ → Result (Option NodeId) × σ
  expand : NodeId → σ → Result Expansion × σ
  node : σ → NodeId → Option Node

/-- The real engine, wearing the trait the worker speaks to. -/
structure CoreEngine (S : Type*) where
  engine : Engine S
  canSearch : Bool

/-- The operations of the real engine; `supported` is what the server advertised. -/
def coreEngine {S : Type*} (host : Host S) (supported : Bool) : EngineOps (CoreEngine S) where
  canSearch c := c.canSearch
  search query c :=
    let (result, s) := workspaceSymbols host supported query c.engine.server
    (result, { c with engine := { c.engine with server := s } })
  seed m c :=
    let (result, e) := c.engine.seed host (.ofMatch m)
    (result, { c with engine := e })
  expand id c :=
    let (result, e) := c.engine.expand host id
    (result, { c with engine := e })
  node c id := c.engine.graph.get id

variable {σ : Type*} (ops : EngineOps σ)

/-- The node of an endpoint id, or a usable one if the graph does not know it. -/
def resolve (engine : σ) (id : NodeId) : Node :=
  (ops.node engine id).getD ⟨id, "Function", none, .unexpanded⟩

def searchEvent : Result (List SymbolMatch) → Event
  | .ok ms => .matched ms
  | .error e => .warning e.toString

def seedEvent (engine : σ) : Result (Option NodeId) → Event
  | .ok id => .seeded (id.map (resolve ops engine))
  | .error e => .warning e.toString

def expandEvent (engine : σ) (id : NodeId) : Result Expansion → Event
  | .ok exp => .expanded id
      ⟨exp.callers.map (resolve ops engine), exp.callees.map (resolve ops engine)⟩
  | .error e => .failed id e.toString

/-- The body of the worker's loop: the events sent, whether the loop goes on, and the engine. -/
def serveRequest (engine : σ) : Request → List Event × Bool × σ
  | .shutdown => ([], false, engine)
  | .restart =>
    ([.fatal "language server restart requires relaunching lspgraph"], false, engine)
  | .search query =>
    let (result, engine) := ops.search query engine
    ([searchEvent result], true, engine)
  | .seed m =>
    let (result, engine) := ops.seed m engine
    ([seedEvent ops engine result], true, engine)
  | .expand id =>
    let (result, engine) := ops.expand id engine
    ([expandEvent ops engine id result], true, engine)

/-- Every request but the two that end the loop is answered by one event. -/
theorem serveRequest_answers (engine : σ) (r : Request) (hr : r.ends = false) :
    ∃ ev engine', serveRequest ops engine r = ([ev], true, engine') ∧ Answers r ev := by
  cases r with
  | search query =>
    refine ⟨_, _, rfl, ?_⟩
    cases (ops.search query engine).1 <;> trivial
  | seed m =>
    refine ⟨_, _, rfl, ?_⟩
    cases (ops.seed m engine).1 <;> trivial
  | expand id =>
    refine ⟨_, _, rfl, ?_⟩
    cases (ops.expand id engine).1 <;> rfl
  | restart => cases hr
  | shutdown => cases hr

theorem serveRequest_length (engine : σ) (r : Request) :
    (serveRequest ops engine r).1.length ≤ 1 := by
  cases r <;> simp [serveRequest]

/-- A function of the tests' engine. -/
def stubId (name : String) : NodeId := ⟨"file:///a.rs", 1, 3, name⟩

/-- The match under which a search reports the tests' function `f`. -/
def stubMatch : SymbolMatch := ⟨"f", none, ⟨"file:///a.rs"⟩, ⟨1, 3⟩, .FUNCTION⟩

/-- The engine of the worker's tests; its searches find `found`. -/
def stub (found : List SymbolMatch) : EngineOps Unit where
  canSearch _ := true
  search _ _ := (.ok found, ())
  seed _ _ := (.ok (some (stubId "f")), ())
  expand _ _ := (.ok ⟨[stubId "caller"], [stubId "callee"]⟩, ())
  node _ id := some ⟨id, "Function", none, .unexpanded⟩

end LspGraph
