import Mathlib.Algebra.Group.Nat.Defs
import Mathlib.Data.List.Basic

/-! JSON values as `serde_json` holds them, and the error type of the core crate. -/
namespace LspGraph

abbrev Bytes := List UInt8

/-- `serde_json::Number`: a nonnegative integer, a negative one, or a float by its bits. -/
inductive Number where
  | posInt (n : UInt64)
  | negInt (n : Int64)
  | float (bits : UInt64)
  deriving DecidableEq, Repr

/-- `serde_json::Value`; an object is the list of its entries, one for each key. -/
inductive Value where
  | null
  | bool (b : Bool)
  | number (n : Number)
  | string (s : String)
  | array (xs : List Value)
  | object (fields : List (String × Value))

namespace Value

def get (v : Value) (key : String) : Option Value :=
  match v with
  | .object fields => fields.lookup key
  | _ => none

def isNull : Value → Bool
  | .null => true
  | _ => false

def asArray : Value → Option (List Value)
  | .array xs => some xs
  | _ => none

def asStr : Value → Option String
  | .string s => some s
  | _ => none

def asU64 : Value → Option UInt64
  | .number (.posInt n) => some n
  | _ => none

/-- An integer that fits `i64`; a float never does. -/
def asI64 : Value → Option Int64
  | .number (.posInt n) => if n.toNat < 2^63 then some (Int64.ofNat n.toNat) else none
  | .number (.negInt n) => some n
  | _ => none

/-- `Value::from(i64)`. -/
def ofI64 (n : Int64) : Value :=
  if 0 ≤ n then .number (.posInt (UInt64.ofNat n.toInt.toNat)) else .number (.negInt n)

/-- `Value::from(u32)`. -/
def ofU32 (n : UInt32) : Value := .number (.posInt n.toUInt64)

end Value

/-- A `Duration`, in milliseconds: every duration of the source is a whole number of them. -/
abbrev Duration := Nat

/-- `lspgraph_core::Error`. The inner errors of the I/O and JSON libraries are kept by their
text, which is all that the program uses of them. -/
inductive Error where
  | io (text : String)
  | json (text : String)
  | protocol (text : String)
  | contentModified (method : String)
  | config (text : String)
  | noCallHierarchy (server : String)
  | timeout (method : String) (timeout : Duration)
  | serverExited
  | notReady (timeout : Duration) (tried : Nat)
  | noCandidates (filesAttempted filesFailed : Nat)
  deriving DecidableEq, Repr

def Error.toString : Error → String
  | .io text => "io: " ++ text
  | .json text => "json: " ++ text
  | .protocol text => "protocol: " ++ text
  | .contentModified method => method ++ ": server reported content modified (transient)"
  | .config text => "config: " ++ text
  | .noCallHierarchy server =>
    "language server " ++ server ++ " does not advertise callHierarchyProvider"
  | .timeout method budget =>
    "request " ++ method ++ " timed out after " ++ budget.repr ++ "ms"
  | .serverExited => "language server exited"
  | .notReady budget tried =>
    "server not ready after " ++ (budget / 1000).repr ++ "s; tried " ++ tried.repr ++
      " candidate symbols"
  | .noCandidates filesAttempted filesFailed =>
    "no candidate symbols found: " ++ filesAttempted.repr ++ " files examined, " ++
      filesFailed.repr ++ " of them failed to respond"

/-- `Result<T>` of the core crate. -/
abbrev Result (α : Type*) := Except Error α

end LspGraph
