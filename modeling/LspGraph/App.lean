import LspGraph.Graph
import LspGraph.Symbols

/-! All interface behaviour, with no rendering and no engine (`protocol.rs`, `app.rs`). -/
namespace LspGraph

inductive Request where
  | search (query : String)
  | seed (m : SymbolMatch)
  | expand (id : NodeId)
  | restart
  | shutdown
  deriving DecidableEq

/-- An expansion whose endpoints have been resolved to full nodes. -/
structure ResolvedExpansion where
  callers : List Node
  callees : List Node
  deriving DecidableEq

inductive Event where
  | ready (canSearch : Bool)
  | matched (ms : List SymbolMatch)
  | seeded (node : Option Node)
  | expanded (id : NodeId) (exp : ResolvedExpansion)
  /-- A per-node failure. -/
  | failed (id : NodeId) (why : String)
  /-- A recoverable failure with no particular node to blame. -/
  | warning (why : String)
  /-- The session cannot continue. -/
  | fatal (why : String)
  deriving DecidableEq

/-- Whether a request ends the worker's loop. -/
def Request.ends : Request → Bool
  | .restart | .shutdown => true
  | _ => false

/-- Whether an event can be the answer to a request. -/
def Answers : Request → Event → Prop
  | .search _, .matched _ | .search _, .warning _ => True
  | .seed _, .seeded _ | .seed _, .warning _ => True
  | .expand id, .expanded id' _ | .expand id, .failed id' _ => id' = id
  | _, _ => False

inductive Screen where
  | starting
  | search
  | graph
  deriving DecidableEq

inductive Pane where
  | callers
  | focus
  | callees
  deriving DecidableEq

structure App where
  screen : Screen
  progress : String
  canSearch : Bool
  query : String
  /-- `matches`. -/
  matchList : List SymbolMatch
  matchSel : Nat
  focus : Option Node
  callers : List Node
  callees : List Node
  pending : Option NodeId
  /-- The node whose expansion came back as a failure. -/
  failed : Option NodeId
  /-- Whether a search has been answered. -/
  searched : Bool
  history : List Node
  pane : Pane
  callerSel : Nat
  calleeSel : Nat
  error : Option String
  shouldQuit : Bool

namespace App

def new : App where
  screen := .starting
  progress := "starting language server"
  canSearch := false
  query := ""
  matchList := []
  matchSel := 0
  focus := none
  callers := []
  callees := []
  pending := none
  failed := none
  searched := false
  history := []
  pane := .callers
  callerSel := 0
  calleeSel := 0
  error := none
  shouldQuit := false

/-- True when the focused node's expansion came back as a failure. -/
def expansionFailed (a : App) : Bool :=
  match a.failed, a.focus with
  | some id, some f => id = f.id
  | _, _ => false

def dismissError (a : App) : App := { a with error := none }

/-- Editing the query invalidates whatever the previous one returned. -/
def invalidateMatches (a : App) : App :=
  { a with matchList := [], matchSel := 0, searched := false }

def pushQueryChar (a : App) (c : Char) : App := { a with query := a.query.push c }.invalidateMatches

def popQueryChar (a : App) : App :=
  { a with query := String.ofList a.query.toList.dropLast }.invalidateMatches

/-- Ask the worker to search; `none` when the server cannot search. -/
def submitQuery (a : App) : Option Request :=
  if a.canSearch = false ∨ a.query = "" then none else some (.search a.query)

/-- The next index of a list, staying on the last one. -/
def nextIndex (sel length : Nat) : Nat := if length = 0 then sel else min (sel + 1) (length - 1)

def selectMatchNext (a : App) : App :=
  { a with matchSel := nextIndex a.matchSel a.matchList.length }

def selectMatchPrev (a : App) : App := { a with matchSel := a.matchSel - 1 }

def chosenMatch (a : App) : Option Request := (a.matchList[a.matchSel]?).map .seed

def isPending (a : App) : Bool := a.pending.isSome

def breadcrumb (a : App) : List String := (a.history ++ a.focus.toList).map fun n => n.id.name

/-- Focus a node and ask for its expansion: what a seed, a re-centring and a step back share. -/
def focusOn (a : App) (node : Node) : Request × App :=
  (.expand node.id,
    { a with focus := some node, callers := [], callees := [], callerSel := 0, calleeSel := 0,
             pending := some node.id, failed := none })

def onEvent (a : App) : Event → List Request × App
  | .ready canSearch => ([], { a with canSearch := canSearch, screen := .search })
  | .matched ms => ([], { a with matchList := ms, matchSel := 0, searched := true })
  | .seeded (some node) =>
    let (request, a) := { a with screen := .graph }.focusOn node
    ([request], a)
  | .seeded none => ([], { a with error := some "that symbol has no call hierarchy" })
  | .expanded id exp =>
    -- an answer for a node that is not the one asked about is discarded whole
    if a.pending = some id then
      ([], { a with pending := none, failed := none, callers := exp.callers,
                    callees := exp.callees, callerSel := 0, calleeSel := 0 })
    else ([], a)
  | .failed id why =>
    -- the error is shown for any node, the failure recorded only for the pending one
    let a := if a.pending = some id then { a with pending := none, failed := some id } else a
    ([], { a with error := some (id.name ++ ": " ++ why) })
  | .warning why => ([], { a with error := some why })
  | .fatal why => ([], { a with error := some why, shouldQuit := true })

/-- The node selected in the pane. -/
def selected (a : App) : Option Node :=
  match a.pane with
  | .callers => a.callers[a.callerSel]?
  | .callees => a.callees[a.calleeSel]?
  | .focus => none

def recentre (a : App) : Option Request × App :=
  match a.selected with
  | none => (none, a)
  | some next =>
    let (request, a) := { a with history := a.history ++ a.focus.toList }.focusOn next
    (some request, a)

def back (a : App) : Option Request × App :=
  match a.history.getLast? with
  | none => (none, a)
  | some prev =>
    let (request, a) := { a with history := a.history.dropLast }.focusOn prev
    (some request, a)

/-- The reason text shown when an unresolved node is selected. -/
def status (a : App) : String :=
  match a.focus.map Node.state with
  | some (.unresolved reason) => reason.toString
  | _ => ""

def movePane (a : App) (right : Bool) : App :=
  { a with pane :=
      match a.pane, right with
      | .callers, true => .focus
      | .focus, true => .callees
      | .callees, true => .callees
      | .callees, false => .focus
      | .focus, false => .callers
      | .callers, false => .callers }

def selectNext (a : App) : App :=
  match a.pane with
  | .callers => { a with callerSel := nextIndex a.callerSel a.callers.length }
  | .callees => { a with calleeSel := nextIndex a.calleeSel a.callees.length }
  | .focus => a

def selectPrev (a : App) : App :=
  match a.pane with
  | .callers => { a with callerSel := a.callerSel - 1 }
  | .callees => { a with calleeSel := a.calleeSel - 1 }
  | .focus => a

def selectedIndex (a : App) : Pane → Nat
  | .callers => a.callerSel
  | .callees => a.calleeSel
  | .focus => 0

def enterSearch (a : App) : App :=
  { a with screen := .search, query := "", matchList := [], matchSel := 0, searched := false }

/-- Back to the graph if one is open, out of the session otherwise. -/
def leaveSearch (a : App) : App :=
  if a.focus.isSome then { a with screen := .graph } else { a with shouldQuit := true }

end App

/-- What an event does to the interface: besides the screen and the list of matches it focuses a
node or answers the pending expansion, and otherwise it can only raise an error. -/
inductive EventCase (a : App) : Event → List Request → App → Prop where
  | ready (canSearch : Bool) :
      EventCase a (.ready canSearch) [] { a with canSearch := canSearch, screen := .search }
  | matched (ms : List SymbolMatch) :
      EventCase a (.matched ms) [] { a with matchList := ms, matchSel := 0, searched := true }
  | focused (node : Node) : EventCase a (.seeded (some node)) [.expand node.id]
      ({ a with screen := .graph }.focusOn node).2
  | expanded (id : NodeId) (exp : ResolvedExpansion) : a.pending = some id →
      EventCase a (.expanded id exp) []
        { a with pending := none, failed := none, callers := exp.callers,
                 callees := exp.callees, callerSel := 0, calleeSel := 0 }
  | failed (id : NodeId) (why : String) (error : Option String) : a.pending = some id →
      EventCase a (.failed id why) []
        { a with pending := none, failed := some id, error := error }
  | noted (ev : Event) (error : Option String) (quit : Bool) :
      (∀ ms, ev ≠ .matched ms) → (∀ node, ev ≠ .seeded (some node)) →
      (∀ id, a.pending = some id → ¬Answers (.expand id) ev) →
      (a.shouldQuit = true ∨ (∃ why, ev = .fatal why) → quit = true) →
      EventCase a ev [] { a with error := error, shouldQuit := quit }

theorem onEvent_case (a : App) (ev : Event) :
    EventCase a ev (a.onEvent ev).1 (a.onEvent ev).2 := by
  cases ev with
  | ready canSearch => exact .ready canSearch
  | matched ms => exact .matched ms
  | seeded node =>
    cases node with
    | none => exact .noted _ _ a.shouldQuit (by simp) (by simp) (fun _ _ => not_false) (by simp)
    | some node => exact .focused node
  | expanded id exp =>
    dsimp only [App.onEvent]
    split_ifs with hp
    · exact .expanded id exp hp
    · refine .noted _ a.error a.shouldQuit (by simp) (by simp) ?_ (by simp)
      rintro id' hid rfl
      exact hp hid
  | failed id why =>
    dsimp only [App.onEvent]
    split_ifs with hp
    · exact .failed id why _ hp
    · refine .noted _ _ a.shouldQuit (by simp) (by simp) ?_ (by simp)
      rintro id' hid rfl
      exact hp hid
  | warning why =>
    exact .noted _ _ a.shouldQuit (by simp) (by simp) (fun _ _ => not_false) (by simp)
  | fatal why => exact .noted _ _ true (by simp) (by simp) (fun _ _ => not_false) fun _ => rfl

end LspGraph
