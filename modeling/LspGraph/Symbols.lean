import LspGraph.Graph
import LspGraph.RustText

/-! Named callables and the results of a repository-wide symbol search (`symbols.rs`). -/
namespace LspGraph

structure NamedCallable where
  name : String
  uri : Url
  position : Position
  deriving DecidableEq, Repr

/-- A symbol found by a repository-wide `workspace/symbol` search. -/
structure SymbolMatch where
  name : String
  container : Option String
  uri : Url
  position : Position
  kind : SymbolKind
  deriving DecidableEq, Repr

def NamedCallable.ofMatch (m : SymbolMatch) : NamedCallable := ⟨m.name, m.uri, m.position⟩

variable (lib : Libraries)

/-- A single unqualified identifier segment. -/
def isPlainIdentifier : List Char → Bool
  | [] => false
  | first :: chars =>
    (lib.isAlphabetic first || first == '_' || first == '$') &&
      chars.all fun c => lib.isAlphanumeric c || c == '_' || c == '$'

/-- The name after a leading parenthesised receiver; `none` where the receiver is malformed. -/
def stripReceiver (name : List Char) : Option (List Char) :=
  match name with
  | '(' :: after =>
    match RustText.splitOnce ')' after with
    | none => none
    | some (inside, rest) =>
      let receiver := match inside with
        | '*' :: r => r
        | r => r
      if isPlainIdentifier lib receiver then
        match rest with
        | '.' :: path => some path
        | _ => some []
      else none
  | _ => some name

/-- `split('.')`. -/
def splitDots : List Char → List (List Char)
  | [] => [[]]
  | c :: s =>
    if c = '.' then [] :: splitDots s
    else match splitDots s with
      | [] => [[c]]
      | l :: ls => (c :: l) :: ls

/-- Kind is Function or Method, and the name is a path of identifiers, after an optional
receiver. -/
def isNamedCallable (name : String) (kind : SymbolKind) : Bool :=
  if kind ≠ .FUNCTION ∧ kind ≠ .METHOD then false
  else match stripReceiver lib name.toList with
    | none => false
    | some rest => rest ≠ [] && (splitDots rest).all (isPlainIdentifier lib)

mutual

/-- Append the named callables of the symbols, children behind their parent, to `out`. -/
def collectNamedCallables (uri : Url) : List DocumentSymbol → List NamedCallable →
    List NamedCallable
  | [], out => out
  | s :: symbols, out => collectNamedCallables uri symbols (collectSymbol uri s out)

/-- The body of its loop. -/
def collectSymbol (uri : Url) : DocumentSymbol → List NamedCallable → List NamedCallable
  | .mk name kind selectionRange children, out =>
    let out := if isNamedCallable lib name kind then out ++ [⟨name, uri, selectionRange.start⟩]
      else out
    match children with
    | some children => collectNamedCallables uri children out
    | none => out

end

/-- Strip a trailing `()`, which some servers put behind callable names. -/
def undecorate (name : String) : String :=
  if [')', '('].isPrefixOf name.toList.reverse then
    String.ofList (name.toList.take (name.toList.length - 2))
  else name

/-- The position of an entry, its fields defaulting to zero and cut to 32 bits. -/
def startPosition (start : Option Value) : Position where
  line := (((start.bind (·.get "line")).bind (·.asU64)).getD 0).toUInt32
  character := (((start.bind (·.get "character")).bind (·.asU64)).getD 0).toUInt32

/-- One entry of a `workspace/symbol` result. -/
def parseEntry (e : Value) : Option SymbolMatch := do
  let rawName ← (← e.get "name").asStr
  let name := undecorate rawName
  let kindN ← (← e.get "kind").asU64
  let kind ← if kindN = 6 then some SymbolKind.METHOD
    else if kindN = 12 then some SymbolKind.FUNCTION else none
  if isNamedCallable lib name kind then
    let loc ← e.get "location"
    let uri ← lib.parseUrl (← (← loc.get "uri").asStr)
    let start := (loc.get "range").bind (·.get "start")
    let container := (((e.get "containerName").bind (·.asStr)).filter fun s => !s.isEmpty)
    some ⟨name, container, uri, startPosition start, kind⟩
  else none

/-- Parse a `workspace/symbol` result, keeping only named callables. -/
def parseWorkspaceSymbols (v : Value) : List SymbolMatch :=
  match v.asArray with
  | none => []
  | some arr => arr.filterMap (parseEntry lib)

end LspGraph
