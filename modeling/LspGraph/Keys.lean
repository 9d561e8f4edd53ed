import LspGraph.App

/-! Keyboard handling (`keys.rs`). -/
namespace LspGraph

/-- The key codes that have a binding; `other` stands for the rest. -/
inductive KeyCode where
  | char (c : Char)
  | enter
  | esc
  | backspace
  | up
  | down
  | left
  | right
  | other
  deriving DecidableEq

/-- A key event; `control` is whether its modifiers contain `CONTROL`. -/
structure KeyEvent where
  code : KeyCode
  control : Bool
  deriving DecidableEq

/-- The keys of the error overlay, which swallows the others. -/
def overlayKey (app : App) : KeyCode → List Request × App
  | .esc => ([], app.dismissError)
  | .char 'r' => ([.restart], app.dismissError)
  | .char 'q' => ([], { app with shouldQuit := true })
  | _ => ([], app)

def searchKey (app : App) : KeyCode → List Request × App
  | .esc => ([], app.leaveSearch)
  | .enter =>
    -- the first Enter submits the query, a second one seeds the highlighted match
    if app.matchList.isEmpty then (app.submitQuery.toList, app) else (app.chosenMatch.toList, app)
  | .backspace => ([], app.popQueryChar)
  | .down => ([], app.selectMatchNext)
  | .up => ([], app.selectMatchPrev)
  | .char c => ([], app.pushQueryChar c)
  | _ => ([], app)

def graphKey (app : App) : KeyCode → List Request × App
  | .char 'q' => ([], { app with shouldQuit := true })
  | .char '/' => ([], app.enterSearch)
  | .char 'u' => (app.back.1.toList, app.back.2)
  | .enter => (app.recentre.1.toList, app.recentre.2)
  | .left => ([], app.movePane false)
  | .right => ([], app.movePane true)
  | .down => ([], app.selectNext)
  | .up => ([], app.selectPrev)
  | _ => ([], app)

def handleKey (app : App) (key : KeyEvent) : List Request × App :=
  -- raw mode: ctrl-c arrives as a key, and quits on every screen
  if key.control = true ∧ key.code = .char 'c' then ([], { app with shouldQuit := true })
  else if app.error.isSome then overlayKey app key.code
  else match app.screen with
    | .starting => ([], app)
    | .search => searchKey app key.code
    | .graph => graphKey app key.code

/-- What a key does to the interface. -/
inductive KeyCase (a : App) : List Request → App → Prop where
  | quiet (matchSel callerSel calleeSel : Nat) (pane : Pane) (error : Option String)
      (quit : Bool) : (a.shouldQuit = true → quit = true) →
      KeyCase a [] { a with matchSel := matchSel, callerSel := callerSel, calleeSel := calleeSel,
                            pane := pane, error := error, shouldQuit := quit }
  | restart : KeyCase a [.restart] a.dismissError
  | submitted : a.matchList = [] → KeyCase a [.search a.query] a
  | chosen (m : SymbolMatch) : m ∈ a.matchList → KeyCase a [.seed m] a
  | edited (query : String) :
      KeyCase a [] { a with query := query, matchList := [], matchSel := 0, searched := false }
  | searchOpened : KeyCase a [] a.enterSearch
  | searchLeft : a.focus.isSome = true → KeyCase a [] { a with screen := .graph }
  | recentred (next : Node) : next ∈ a.callers ∨ next ∈ a.callees → a.screen = .graph →
      KeyCase a [.expand next.id]
        ({ a with history := a.history ++ a.focus.toList }.focusOn next).2
  | wentBack (init : List Node) (prev : Node) : a.history = init ++ [prev] →
      a.screen = .graph →
      KeyCase a [.expand prev.id] ({ a with history := init }.focusOn prev).2

theorem KeyCase.same (a : App) : KeyCase a [] a :=
  .quiet a.matchSel a.callerSel a.calleeSel a.pane a.error a.shouldQuit id

theorem overlayKey_case (a : App) (code : KeyCode) :
    KeyCase a (overlayKey a code).1 (overlayKey a code).2 := by
  unfold overlayKey
  split
  · exact .quiet a.matchSel a.callerSel a.calleeSel a.pane none a.shouldQuit id
  · exact .restart
  · exact .quiet a.matchSel a.callerSel a.calleeSel a.pane a.error true fun _ => rfl
  · exact .same a

theorem searchKey_case (a : App) (code : KeyCode) :
    KeyCase a (searchKey a code).1 (searchKey a code).2 := by
  unfold searchKey
  split
  · unfold App.leaveSearch
    split_ifs with h
    · exact .searchLeft h
    · exact .quiet a.matchSel a.callerSel a.calleeSel a.pane a.error true fun _ => rfl
  · split_ifs with hm
    · unfold App.submitQuery
      split_ifs
      · exact .same a
      · exact .submitted (List.isEmpty_iff.mp hm)
    · unfold App.chosenMatch
      cases hc : a.matchList[a.matchSel]? with
      | none => exact .same a
      | some m => exact .chosen m (List.mem_of_getElem? hc)
  · exact .edited _
  · exact .quiet _ a.callerSel a.calleeSel a.pane a.error a.shouldQuit id
  · exact .quiet _ a.callerSel a.calleeSel a.pane a.error a.shouldQuit id
  · exact .edited _
  · exact .same a

theorem graphKey_case (a : App) (code : KeyCode) (hs : a.screen = .graph) :
    KeyCase a (graphKey a code).1 (graphKey a code).2 := by
  unfold graphKey
  split
  · exact .quiet a.matchSel a.callerSel a.calleeSel a.pane a.error true fun _ => rfl
  · exact .searchOpened
  · unfold App.back
    cases hl : a.history.getLast? with
    | none => exact .same a
    | some prev =>
      obtain ⟨init, hi⟩ := List.getLast?_eq_some_iff.mp hl
      have hd : a.history.dropLast = init := by rw [hi, List.dropLast_concat]
      simp only [hd]
      exact .wentBack init prev hi hs
  · unfold App.recentre
    cases hsel : a.selected with
    | none => exact .same a
    | some next =>
      refine .recentred next ?_ hs
      unfold App.selected at hsel
      split at hsel
      · exact .inl (List.mem_of_getElem? hsel)
      · exact .inr (List.mem_of_getElem? hsel)
      · cases hsel
  · exact .quiet a.matchSel a.callerSel a.calleeSel _ a.error a.shouldQuit id
  · exact .quiet a.matchSel a.callerSel a.calleeSel _ a.error a.shouldQuit id
  · unfold App.selectNext
    split
    · exact .quiet a.matchSel _ a.calleeSel a.pane a.error a.shouldQuit id
    · exact .quiet a.matchSel a.callerSel _ a.pane a.error a.shouldQuit id
    · exact .same a
  · unfold App.selectPrev
    split
    · exact .quiet a.matchSel _ a.calleeSel a.pane a.error a.shouldQuit id
    · exact .quiet a.matchSel a.callerSel _ a.pane a.error a.shouldQuit id
    · exact .same a
  · exact .same a

theorem handleKey_case (a : App) (k : KeyEvent) :
    KeyCase a (handleKey a k).1 (handleKey a k).2 := by
  unfold handleKey
  split_ifs
  · exact .quiet a.matchSel a.callerSel a.calleeSel a.pane a.error true fun _ => rfl
  · exact overlayKey_case a k.code
  · split
    · exact .same a
    · exact searchKey_case a k.code
    · exact graphKey_case a k.code ‹_›

end LspGraph
