import LspGraph.Symbols

/-! The LSP calls the engine needs (`server.rs`), over a connection given by its `request`. -/
namespace LspGraph

/-- What the engine's thread sees of the outside, with a state of any type `S`: the reply to each
request may depend on everything that happened before it, so that a host stands for any server
and any sequence of answers and failures. -/
structure Host (S : Type*) extends Libraries where
  /-- `Connection::request`: method, params and timeout. -/
  request : String → Value → Duration → S → Result Value × S
  /-- `std::thread::sleep`. -/
  sleep : Duration → S → S

def requestTimeout : Duration := 60000

def maxAttempts : Nat := 3

def retryDelay : Duration := 150

def positionToValue (pos : Position) : Value :=
  .object [("line", .ofU32 pos.line), ("character", .ofU32 pos.character)]

variable {S : Type*} (host : Host S)

def pathToUri (path : Path) : Url := host.fromFilePath path

/-- The attempts of `requestRetrying` that are left after the first `attempt - 1`. -/
def requestAttempts (method : String) (params : Value) : Nat → S → Result Value × S
  | 0, s => host.request method params requestTimeout s
  | left + 1, s =>
    match host.request method params requestTimeout s with
    | (.error (.contentModified _), s) =>
      requestAttempts method params left (host.sleep retryDelay s)
    | other => other

/-- `request_retrying_content_modified`: the initial attempt and two retries. -/
def requestRetryingContentModified (method : String) (params : Value) (s : S) :
    Result Value × S :=
  requestAttempts host method params (maxAttempts - 1) s

/-- Pull the `from`/`to` endpoint out of incoming/outgoing call wrappers. -/
def unwrapCalls (v : Value) (field : String) : List CallHierarchyItem :=
  match v.asArray with
  | none => []
  | some arr => (arr.filterMap (·.get field)).filterMap fun i => (host.itemFromValue i).toOption

def prepareCallHierarchy (path : Path) (pos : Position) (s : S) :
    Result (List CallHierarchyItem) × S :=
  match requestRetryingContentModified host "textDocument/prepareCallHierarchy"
      (.object [("textDocument", .object [("uri", .string (pathToUri host path).serialization)]),
        ("position", positionToValue pos)]) s with
  | (.error e, s) => (.error e, s)
  | (.ok v, s) =>
    -- a server may answer `null` for a position without a callable
    if v.isNull then (.ok [], s)
    else match host.itemsFromValue v with
      | .ok items => (.ok items, s)
      | .error text => (.error (.json text), s)

/-- The shape shared by the two requests about an item. -/
def callsOf (method field : String) (item : CallHierarchyItem) (s : S) :
    Result (List CallHierarchyItem) × S :=
  match requestRetryingContentModified host method
      (.object [("item", host.itemToValue item)]) s with
  | (.error e, s) => (.error e, s)
  | (.ok v, s) => (.ok (unwrapCalls host v field), s)

def incomingCalls (item : CallHierarchyItem) (s : S) : Result (List CallHierarchyItem) × S :=
  callsOf host "callHierarchy/incomingCalls" "from" item s

def outgoingCalls (item : CallHierarchyItem) (s : S) : Result (List CallHierarchyItem) × S :=
  callsOf host "callHierarchy/outgoingCalls" "to" item s

/-- `workspace_symbols`; `supported` is what `initialize` advertised. -/
def workspaceSymbols (supported : Bool) (query : String) (s : S) :
    Result (List SymbolMatch) × S :=
  if supported then
    match host.request "workspace/symbol" (.object [("query", .string query)]) requestTimeout s with
    | (.error e, s) => (.error e, s)
    | (.ok v, s) => (.ok (parseWorkspaceSymbols host.toLibraries v), s)
  else (.ok [], s)

end LspGraph
