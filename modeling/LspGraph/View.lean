import LspGraph.Interface

/-! What is drawn (`ui/mod.rs`, `ui/graph.rs`, `ui/search.rs`, `ui/overlay.rs`): the text of every
widget and which of its lines are highlighted, without their places on the terminal. -/
namespace LspGraph

/-- A `ListItem`, with whether its style is `REVERSED`. -/
structure Item where
  text : String
  reversed : Bool
  deriving DecidableEq

/-- The rows of a list, the one at the selected index highlighted. -/
def highlighted (texts : List String) (selected : Option ℕ) : List Item :=
  texts.mapIdx fun i text => ⟨text, selected = some i⟩

def unresolvedMark : String := "⊘"

def spinner : String := "…"

def failedLine : String := "expansion failed"

def failedHint : String := "u to go back"

def noSearchMsg : String := "this language server does not support workspace symbol search"

def noMatchesMsg : String := "no matches among the files opened so far"

def idleHint : String := "type a symbol name, then press Enter to search"

def keyHint : String := "Enter search · ↑/↓ select · Esc back · ctrl-c quit"

def label (n : Node) : String :=
  match n.state with
  | .unresolved _ => unresolvedMark ++ " " ++ n.id.name
  | _ => n.id.name

/-- `line + 1` on `u32`: out of range it panics where overflow is checked, and wraps around
otherwise. -/
def lineNumber (checked : Bool) (line : UInt32) : Option ℕ :=
  if line.toNat + 1 < 2^32 then some (line.toNat + 1) else if checked then none else some 0

/-- `rsplit('/').next()`. -/
def lastSegment (uri : String) : String :=
  String.ofList (uri.toList.reverse.takeWhile (· ≠ '/')).reverse

def shortLocation (checked : Bool) (id : NodeId) : Option String :=
  let file := if lastSegment id.uri ≠ "" then lastSegment id.uri else id.uri
  (lineNumber checked id.line).map fun n => file ++ ":" ++ toString n

/-- A side pane; its border is bold where it is the active one. -/
structure SidePane where
  title : String
  bold : Bool
  items : List Item
  deriving DecidableEq

structure GraphView where
  /-- The first line of the screen. -/
  path : String
  callers : SidePane
  focusTitle : String
  focusBody : String
  callees : SidePane
  /-- The last line of the screen. -/
  status : String
  deriving DecidableEq

/-- What is below the search box. -/
inductive MatchPane where
  | message (title : Option String) (text : String)
  | list (title : String) (items : List Item)
  deriving DecidableEq

structure SearchView where
  box : String
  pane : MatchPane
  keys : String
  deriving DecidableEq

inductive ScreenView where
  | graph (v : GraphView)
  | search (v : SearchView)
  | starting (text : String)
  deriving DecidableEq

structure View where
  screen : ScreenView
  /-- The error overlay. -/
  overlay : Option String
  deriving DecidableEq

namespace App

/-- The `side` closure of `draw_graph`. -/
def side (a : App) (title : String) (nodes : List Node) (active : Bool) (sel : ℕ) : SidePane where
  title := title
  bold := active
  items :=
    if a.isPending then [⟨spinner, false⟩]
    else if a.expansionFailed then [⟨failedLine, false⟩, ⟨failedHint, false⟩]
    else highlighted (nodes.map label) (if active then some sel else none)

def focusBody (checked : Bool) (a : App) : Option String :=
  match a.focus with
  | some n => (shortLocation checked n.id).map fun loc => n.detail.getD n.kindName ++ "\n" ++ loc
  | none => some ""

def drawGraph (checked : Bool) (a : App) : Option GraphView :=
  (a.focusBody checked).map fun body =>
    { path := String.intercalate " › " a.breadcrumb
      callers := a.side "callers" a.callers (a.pane = .callers) (a.selectedIndex .callers)
      focusTitle := (a.focus.map fun n => n.id.name).getD ""
      focusBody := body
      callees := a.side "callees" a.callees (a.pane = .callees) (a.selectedIndex .callees)
      status := if a.status = "" then
          "←/→ pane · ↑/↓ select · ⏎ re-centre · u back · / search · q quit"
        else a.status }

/-- The line of a match, with its container where it has one. -/
def matchText (m : SymbolMatch) : String :=
  let place := m.container.getD ""
  if place = "" then m.name else m.name ++ "  (" ++ place ++ ")"

def drawSearch (a : App) : SearchView where
  box := "> " ++ a.query
  keys := keyHint
  pane :=
    if a.canSearch = false then .message none noSearchMsg
    -- only a search that was answered says that nothing matched
    else if a.searched = true ∧ a.matchList = [] then .message none noMatchesMsg
    else if a.matchList = [] then
      .message (some "matches")
        (if a.query = "" then idleHint else "press Enter to search for \"" ++ a.query ++ "\"")
    else .list "matches" (highlighted (a.matchList.map matchText) (some a.matchSel))

/-- `ui::draw`; `none` where drawing panics. -/
def draw (checked : Bool) (a : App) : Option View :=
  let screen : Option ScreenView := match a.screen with
    | .graph => (a.drawGraph checked).map .graph
    | .search => some (.search a.drawSearch)
    | .starting => some (.starting ("starting… " ++ a.progress))
  screen.map fun screen =>
    { screen := screen
      overlay := a.error.map (· ++ "\n\nesc dismiss · r exit to relaunch · q quit") }

end App

/-- The highlighted lines of the screen behind the overlay, from left to right. -/
def ScreenView.marked : ScreenView → List String
  | .graph v => ((v.callers.items ++ v.callees.items).filter (·.reversed)).map Item.text
  | .search ⟨_, .list _ items, _⟩ => (items.filter (·.reversed)).map Item.text
  | _ => []

theorem marked_highlighted (texts : List String) (selected : Option ℕ) :
    ((highlighted texts selected).filter (·.reversed)).map Item.text =
      (selected.bind fun i => texts[i]?).toList := by
  induction texts generalizing selected with
  | nil => cases selected <;> rfl
  | cons text texts ih =>
    have hcons : highlighted (text :: texts) selected =
        ⟨text, selected = some 0⟩ :: highlighted texts (selected.bind fun i =>
          if i = 0 then none else some (i - 1)) := by
      unfold highlighted
      rw [List.mapIdx_cons]
      congr 2
      funext i text'
      cases selected with
      | none => rfl
      | some j => cases j <;> simp
    rw [hcons]
    cases selected with
    | none => exact ih none
    | some i =>
      cases i with
      | zero => simpa using ih none
      | succ i => simpa using ih (some i)

end LspGraph
