import LspGraph.Server

/-! Hosts given by their answers, over a decoder for the items that concrete runs exchange. -/
namespace LspGraph

def filePrefix : List Char := "file://".toList

def decodePosition (v : Value) : Option Position := do
  let line ← (← v.get "line").asU64
  let character ← (← v.get "character").asU64
  some ⟨line.toUInt32, character.toUInt32⟩

def decodeRange (v : Value) : Option Range := do
  let start ← decodePosition (← v.get "start")
  let stop ← decodePosition (← v.get "end")
  some ⟨start, stop⟩

def decodeItem (v : Value) : Option CallHierarchyItem := do
  let name ← (← v.get "name").asStr
  let kind ← (← v.get "kind").asU64
  let uri ← (← v.get "uri").asStr
  let range ← decodeRange (← v.get "range")
  let selectionRange ← decodeRange (← v.get "selectionRange")
  some ⟨name, ⟨kind.toNat⟩, none, (v.get "detail").bind (·.asStr), ⟨uri⟩, range,
    selectionRange, v.get "data"⟩

def encodeRange (r : Range) : Value :=
  .object [("start", positionToValue r.start), ("end", positionToValue r.stop)]

/-- The item as a server sends it, without its optional fields. -/
def encodeItem (item : CallHierarchyItem) : Value :=
  .object [("name", .string item.name), ("kind", .ofI64 (Int64.ofInt item.kind.code)),
    ("uri", .string item.uri.serialization), ("range", encodeRange item.range),
    ("selectionRange", encodeRange item.selectionRange)]

/-- The libraries, as far as concrete runs use them: `file` URLs, ASCII names and items without
tags. -/
def sampleLibraries : Libraries where
  parseUrl text := some ⟨text⟩
  toFilePath url :=
    if filePrefix.isPrefixOf url.serialization.toList then
      some ⟨String.ofList (url.serialization.toList.drop filePrefix.length)⟩
    else none
  fromFilePath path := ⟨String.ofList (filePrefix ++ path.text.toList)⟩
  kindName kind := if kind = .METHOD then "Method" else "Function"
  itemToValue := encodeItem
  itemFromValue v := (decodeItem v).elim (.error "invalid item") .ok
  itemsFromValue v := ((v.asArray).bind (·.mapM decodeItem)).elim (.error "invalid items") .ok
  isAlphabetic c := c.isAlpha
  isAlphanumeric c := c.isAlphanum

/-- A host whose server answers by a function of its state. -/
def answering {S : Type*} (answer : String → Value → S → Result Value × S) : Host S :=
  { sampleLibraries with request := fun method params _ => answer method params
                         sleep := fun _ s => s }

/-- A host whose server answers from a script, and is gone at its end. -/
def scripted : Host (List (Result Value)) :=
  answering fun _ _ script =>
    match script with
    | [] => (.error .serverExited, [])
    | answer :: script => (answer, script)

/-- A function of the given file, on the given line. -/
def sampleItem (uri : String) (line : UInt32) (name : String) : CallHierarchyItem where
  name := name
  kind := .FUNCTION
  tags := none
  detail := none
  uri := ⟨uri⟩
  range := ⟨⟨line, 0⟩, ⟨line, 20⟩⟩
  selectionRange := ⟨⟨line, 3⟩, ⟨line, 8⟩⟩
  data := none

def fItem : CallHierarchyItem := sampleItem "file:///a.rs" 1 "f"

def gItem : CallHierarchyItem := sampleItem "file:///b.rs" 5 "g"

/-- The candidate under which a search reports `fItem`. -/
def fSymbol : NamedCallable := ⟨"f", ⟨"file:///a.rs"⟩, ⟨1, 3⟩⟩

/-- The answer of `prepareCallHierarchy`. -/
def itemsAnswer (items : List CallHierarchyItem) : Value := .array (items.map encodeItem)

/-- The answer of `incomingCalls` (`field` is `from`) or `outgoingCalls` (`to`). -/
def callsAnswer (field : String) (items : List CallHierarchyItem) : Value :=
  .array (items.map fun item => .object [(field, encodeItem item), ("fromRanges", .array [])])

/-- The answer of `workspace/symbol`. -/
def symbolsAnswer (items : List CallHierarchyItem) : Value :=
  .array (items.map fun item => .object [("name", .string item.name),
    ("kind", .ofI64 (Int64.ofInt item.kind.code)),
    ("location", .object [("uri", .string item.uri.serialization),
      ("range", encodeRange item.selectionRange)])])

/-- The answers to a search, a seed and an expansion: `f` calls itself and is called by `g`. -/
def sessionScript : List (Result Value) :=
  [.ok (symbolsAnswer [fItem]), .ok (itemsAnswer [fItem]),
    .ok (callsAnswer "from" [gItem, fItem]), .ok (callsAnswer "to" [fItem])]

end LspGraph
