import LspGraph.Values

/-! The types of `lsp-types` and `url` that the program handles, and the functions of these
libraries that it calls. -/
namespace LspGraph

/-- `url::Url`, by its serialization. -/
structure Url where
  serialization : String
  deriving DecidableEq, Repr

structure Path where
  text : String
  deriving DecidableEq, Repr

structure Position where
  line : UInt32
  character : UInt32
  deriving DecidableEq, Repr

structure Range where
  start : Position
  stop : Position
  deriving DecidableEq, Repr

structure SymbolKind where
  code : Int
  deriving DecidableEq, Repr

namespace SymbolKind

def METHOD : SymbolKind := ⟨6⟩

def FUNCTION : SymbolKind := ⟨12⟩

end SymbolKind

structure CallHierarchyItem where
  name : String
  kind : SymbolKind
  tags : Option (List Int)
  detail : Option String
  uri : Url
  range : Range
  selectionRange : Range
  data : Option Value

/-- A `DocumentSymbol`, with the fields that the program reads. -/
inductive DocumentSymbol where
  | mk (name : String) (kind : SymbolKind) (selectionRange : Range)
    (children : Option (List DocumentSymbol))

/-- Functions of the third-party crates and of the Unicode tables of the standard library. -/
structure Libraries where
  /-- `Url::parse`. -/
  parseUrl : String → Option Url
  /-- `Url::to_file_path`. -/
  toFilePath : Url → Option Path
  /-- `Url::from_file_path` of an absolute path. -/
  fromFilePath : Path → Url
  /-- The `Debug` form of a `SymbolKind`. -/
  kindName : SymbolKind → String
  /-- `serde_json::to_value` of a `CallHierarchyItem`. -/
  itemToValue : CallHierarchyItem → Value
  /-- `serde_json::from_value::<CallHierarchyItem>`. -/
  itemFromValue : Value → Except String CallHierarchyItem
  /-- `serde_json::from_value::<Vec<CallHierarchyItem>>`. -/
  itemsFromValue : Value → Except String (List CallHierarchyItem)
  isAlphabetic : Char → Bool
  isAlphanumeric : Char → Bool

end LspGraph
