import LspGraph.HostUse
import LspGraph.Recording

/-! The process of the language server (`server.rs`, `config.rs`): it is started, initialized, shut
down, and killed and reaped by whoever owns it last. -/
namespace LspGraph
open Recording

structure ServerConfig where
  /-- Full command line. -/
  cmd : String
  /-- Without a leading dot. -/
  extensions : List String
  readyTimeoutSecs : Nat
  /-- Consumed by nothing. -/
  concurrency : Nat

/-- `split_whitespace`. -/
def splitWhitespace (s : String) : List String :=
  ((s.toList.splitOnP RustText.isWhitespace).filter (· ≠ [])).map String.ofList

/-- Split `cmd` into program and arguments. -/
def ServerConfig.command (cfg : ServerConfig) : String × List String :=
  match splitWhitespace cfg.cmd with
  | [] => ("", [])
  | prog :: args => (prog, args)

/-- A child process, and what `take` finds of its two pipes. -/
structure Child where
  stdout : Bool
  stdin : Bool

/-- The outside with its processes. At most one is started by this program, so that killing and
reaping do not say which. -/
structure System (S : Type*) extends Environment S where
  /-- `Command::spawn`: program, arguments and directory. -/
  spawn : String → List String → Path → S → Result Child × S
  kill : S → Result Unit × S
  wait : S → Result Unit × S
  /-- `std::process::id`. -/
  processId : UInt32

variable {S : Type*} (sys : System S)

/-- `kill_and_reap`, and the `drop` of `ChildGuard`: errors are ignored. -/
def killAndReap (slot : Option Child) (s : S) : Option Child × S :=
  match slot with
  | none => (none, s)
  | some _ => (none, (sys.wait (sys.kill s).2).2)

structure LanguageServer where
  name : String
  root : Path
  /-- `none` once the child has been killed and reaped. -/
  child : Option Child
  supportsWorkspaceSymbol : Bool

/-- The `drop` of `LanguageServer`. -/
def LanguageServer.drop (server : LanguageServer) (s : S) : S := (killAndReap sys server.child s).2

def initializeTimeout : Duration := 180000

def shutdownTimeout : Duration := 5000

def clientCapabilities : Value :=
  .object [("window", .object [("workDoneProgress", .bool true)]),
    ("textDocument", .object [
      ("callHierarchy", .object [("dynamicRegistration", .bool false)]),
      ("documentSymbol", .object [("hierarchicalDocumentSymbolSupport", .bool true)])]),
    ("workspace", .object [("workspaceFolders", .bool true),
      ("symbol", .object [("dynamicRegistration", .bool false)])])]

def initializeParams (root : Path) : Value :=
  let rootUri := Value.string (pathToUri sys.toHost root).serialization
  .object [("processId", .ofU32 sys.processId), ("rootUri", rootUri),
    ("workspaceFolders", .array [.object [("uri", rootUri), ("name", .string "root")]]),
    ("capabilities", clientCapabilities)]

/-- Whether the answer to `initialize` advertises a provider: anything but `false` and `null`. -/
def advertises (answer : Value) (provider : String) : Bool :=
  match (answer.get "capabilities").bind (·.get provider) with
  | none | some .null | some (.bool false) => false
  | some _ => true

/-- What `start` does while its guard owns the child: whether the server can search. -/
def handshake (name : String) (child : Child) (root : Path) (s : S) : Result Bool × S :=
  if !child.stdout then (.error .serverExited, s)
  else if !child.stdin then (.error .serverExited, s)
  else match sys.request "initialize" (initializeParams sys root) initializeTimeout s with
  | (.error err, s) => (.error err, s)
  | (.ok answer, s) =>
    if !advertises answer "callHierarchyProvider" then (.error (.noCallHierarchy name), s)
    else match sys.notify "initialized" (.object []) s with
    | (.error err, s) => (.error err, s)
    | (.ok _, s) => (.ok (advertises answer "workspaceSymbolProvider"), s)

def LanguageServer.start (name : String) (cfg : ServerConfig) (root : Path) (s : S) :
    Result LanguageServer × S :=
  match sys.spawn cfg.command.1 cfg.command.2 root s with
  | (.error err, s) => (.error err, s)
  | (.ok child, s) =>
    match handshake sys name child root s with
    -- every early return drops the guard
    | (.error err, s) => (.error err, (killAndReap sys (some child) s).2)
    -- `disarm`: the child is handed over
    | (.ok search, s) => (.ok ⟨name, root, some child, search⟩, s)

/-- Ask the server to exit politely, then make sure it has; `drop` runs behind it. -/
def LanguageServer.shutdown (server : LanguageServer) (s : S) : S :=
  let s := (sys.request "shutdown" .null shutdownTimeout s).2
  let s := (sys.notify "exit" .null s).2
  let (child, s) := killAndReap sys server.child s
  { server with child := child }.drop sys s

/-- What is done to the server's process and what is said to it. -/
inductive Act where
  | spawned (child : Option Child)
  | asked (method : String) (answer : Result Value)
  | told (method : String)
  | killed
  | reaped

/-- The system with a record of what is done to the server. -/
def System.recorded : System (S × List Act) :=
  { sys.toLibraries with
    request := fun method params timeout p =>
      let (answer, s) := sys.request method params timeout p.1
      (answer, s, p.2 ++ [.asked method answer])
    sleep := fun d p => (sys.sleep d p.1, p.2)
    now := fun p => sys.now p.1
    readFile := fun path p =>
      let (answer, s) := sys.readFile path p.1
      (answer, s, p.2)
    notify := fun method params p =>
      let (answer, s) := sys.notify method params p.1
      (answer, s, p.2 ++ [.told method])
    symbolsFromValue := sys.symbolsFromValue
    log := fun p => sys.log p.1
    readFile_now := fun path p => sys.readFile_now path p.1
    notify_now := fun method params p => sys.notify_now method params p.1
    request_now := fun method params d p => sys.request_now method params d p.1
    sleep_now := fun d p => sys.sleep_now d p.1
    readFile_log := fun path p => sys.readFile_log path p.1
    notify_log := fun method params p => sys.notify_log method params p.1
    request_log := fun method params d p => sys.request_log method params d p.1
    sleep_log := fun d p => sys.sleep_log d p.1
    spawn := fun prog args dir p =>
      let (child, s) := sys.spawn prog args dir p.1
      (child, s, p.2 ++ [.spawned child.toOption])
    kill := fun p =>
      let (answer, s) := sys.kill p.1
      (answer, s, p.2 ++ [.killed])
    wait := fun p =>
      let (answer, s) := sys.wait p.1
      (answer, s, p.2 ++ [.reaped])
    processId := sys.processId }

/-- What is said to a server between `initialized` and its shutdown; `search` is whether it
advertised that it can search. -/
def Act.Conversation (search : Bool) : Act → Prop
  | .asked method _ => method ∈ "textDocument/documentSymbol" :: callMethods ∨
      search = true ∧ method = "workspace/symbol"
  | .told method => method = "textDocument/didOpen"
  | _ => False

/-- Whatever the engine and the readiness check do is conversation. -/
theorem recorded_keeps (search : Bool) : sys.recorded.Keeps
    (fun method => method ∈ "textDocument/documentSymbol" :: callMethods ∨
      search = true ∧ method = "workspace/symbol")
    (· = "textDocument/didOpen") (Adds (Act.Conversation search)) where
  refl := Adds.refl _
  trans := Adds.trans
  request {method} hm params d p :=
    Adds.single (a := .asked method (sys.request method params d p.1).1) hm rfl
  sleep _ _ := Adds.of_eq rfl
  readFile _ _ := Adds.of_eq rfl
  notify {method} hm _ _ := Adds.single (a := .told method) hm rfl

theorem killAndReap_recorded (child : Child) (p : S × List Act) :
    (killAndReap sys.recorded (some child) p).1 = none ∧
      (killAndReap sys.recorded (some child) p).2.2 = p.2 ++ [.killed, .reaped] := by
  refine ⟨rfl, ?_⟩
  change (p.2 ++ [Act.killed]) ++ [Act.reaped] = _
  rw [List.append_assoc]
  rfl

/-- The server is shut down: it is asked and told, then killed and reaped, once. -/
theorem shutdown_recorded (server : LanguageServer) {child : Child}
    (hc : server.child = some child) (p : S × List Act) :
    ∃ answer, (server.shutdown sys.recorded p).2 =
      p.2 ++ [.asked "shutdown" answer, .told "exit", .killed, .reaped] := by
  refine ⟨(sys.request "shutdown" .null shutdownTimeout p.1).1, ?_⟩
  unfold LanguageServer.shutdown
  rw [hc]
  change ((p.2 ++ [Act.asked "shutdown" _]) ++ [Act.told "exit"] ++ [Act.killed]) ++
    [Act.reaped] = _
  simp only [List.append_assoc, List.cons_append, List.nil_append]

/-- What is said while the guard owns the child, and what comes of it. -/
inductive Handshake (name : String) : List Act → Result Bool → Prop where
  | unpiped : Handshake name [] (.error .serverExited)
  | failed (err : Error) : Handshake name [.asked "initialize" (.error err)] (.error err)
  | lacking (answer : Value) : advertises answer "callHierarchyProvider" = false →
      Handshake name [.asked "initialize" (.ok answer)] (.error (.noCallHierarchy name))
  | untold (answer : Value) (err : Error) : advertises answer "callHierarchyProvider" = true →
      Handshake name [.asked "initialize" (.ok answer), .told "initialized"] (.error err)
  | done (answer : Value) : advertises answer "callHierarchyProvider" = true →
      Handshake name [.asked "initialize" (.ok answer), .told "initialized"]
        (.ok (advertises answer "workspaceSymbolProvider"))

theorem handshake_case (name : String) (child : Child) (root : Path) (p : S × List Act) :
    ∃ acts, (handshake sys.recorded name child root p).2.2 = p.2 ++ acts ∧
      Handshake name acts (handshake sys.recorded name child root p).1 := by
  unfold handshake
  split_ifs
  · exact ⟨[], (List.append_nil _).symm, .unpiped⟩
  · exact ⟨[], (List.append_nil _).symm, .unpiped⟩
  have hask : sys.recorded.request "initialize" (initializeParams sys.recorded root)
      initializeTimeout p =
      ((sys.request "initialize" (initializeParams sys root) initializeTimeout p.1).1,
        (sys.request "initialize" (initializeParams sys root) initializeTimeout p.1).2,
        p.2 ++ [.asked "initialize"
          (sys.request "initialize" (initializeParams sys root) initializeTimeout p.1).1]) := rfl
  rw [hask]
  generalize sys.request "initialize" (initializeParams sys root) initializeTimeout p.1 = q
  obtain ⟨err | answer, s⟩ := q
  · exact ⟨_, rfl, .failed err⟩
  dsimp only
  cases hcalls : advertises answer "callHierarchyProvider" with
  | false => exact ⟨_, rfl, .lacking answer hcalls⟩
  | true =>
    have htell : sys.recorded.notify "initialized" (.object [])
        (s, p.2 ++ [.asked "initialize" (.ok answer)]) =
        ((sys.notify "initialized" (.object []) s).1, (sys.notify "initialized" (.object []) s).2,
          (p.2 ++ [.asked "initialize" (.ok answer)]) ++ [.told "initialized"]) := rfl
    simp only [Bool.not_true, Bool.false_eq_true, ↓reduceIte]
    rw [htell]
    generalize sys.notify "initialized" (.object []) s = q
    obtain ⟨err | u, s'⟩ := q
    · exact ⟨_, List.append_assoc _ _ _, .untold answer err hcalls⟩
    · exact ⟨_, List.append_assoc _ _ _, .done answer hcalls⟩

/-- What a start leaves in the record: a child that is not handed over is killed and reaped. -/
inductive Started (name : String) : List Act → Result LanguageServer → Prop where
  | notSpawned (err : Error) : Started name [.spawned none] (.error err)
  | dropped (child : Child) (acts : List Act) (err : Error) : Handshake name acts (.error err) →
      Started name (.spawned (some child) :: acts ++ [.killed, .reaped]) (.error err)
  | handedOver (child : Child) (acts : List Act) (root : Path) (search : Bool) :
      Handshake name acts (.ok search) →
      Started name (.spawned (some child) :: acts) (.ok ⟨name, root, some child, search⟩)

theorem start_case (name : String) (cfg : ServerConfig) (root : Path) (p : S × List Act) :
    ∃ acts, (LanguageServer.start sys.recorded name cfg root p).2.2 = p.2 ++ acts ∧
      Started name acts (LanguageServer.start sys.recorded name cfg root p).1 := by
  unfold LanguageServer.start
  have hspawn : sys.recorded.spawn cfg.command.1 cfg.command.2 root p =
      ((sys.spawn cfg.command.1 cfg.command.2 root p.1).1,
        (sys.spawn cfg.command.1 cfg.command.2 root p.1).2,
        p.2 ++ [.spawned (sys.spawn cfg.command.1 cfg.command.2 root p.1).1.toOption]) := rfl
  rw [hspawn]
  generalize sys.spawn cfg.command.1 cfg.command.2 root p.1 = q
  obtain ⟨err | child, s⟩ := q
  · exact ⟨_, rfl, .notSpawned err⟩
  have hchild : (Except.ok child : Result Child).toOption = some child := rfl
  rw [hchild]
  dsimp only
  obtain ⟨acts, hacts, hcase⟩ :=
    handshake_case sys name child root (s, p.2 ++ [.spawned (some child)])
  generalize handshake sys.recorded name child root _ = q at hacts hcase
  obtain ⟨err | search, s', record⟩ := q
  · refine ⟨_, ?_, .dropped child acts err hcase⟩
    change (killAndReap sys.recorded (some child) (s', record)).2.2 = _
    rw [(killAndReap_recorded sys child (s', record)).2, hacts]
    simp
  · refine ⟨_, ?_, .handedOver child acts root search hcase⟩
    exact hacts.trans (List.append_assoc _ _ _)

end LspGraph
