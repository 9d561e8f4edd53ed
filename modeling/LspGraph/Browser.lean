import LspGraph.Interface
import LspGraph.Machines

/-! What the interface is for: a browser that searches for symbols and walks a call graph. A state
of the browser cannot be incoherent, and the interface is its representation. -/
namespace LspGraph
open Machines

/-- A list and the place picked in it. -/
@[ext] structure Picks (α : Type*) where
  items : List α
  sel : ℕ
  inRange : InRange sel items.length

namespace Picks

variable {α : Type*}

def ofList (items : List α) : Picks α := ⟨items, 0, inRange_zero _⟩

def next (p : Picks α) : Picks α :=
  ⟨p.items, App.nextIndex p.sel p.items.length, p.inRange.next⟩

def prev (p : Picks α) : Picks α := ⟨p.items, p.sel - 1, p.inRange.pred⟩

def picked (p : Picks α) : Option α := p.items[p.sel]?

/-- Nothing is picked in an empty list only. -/
theorem picked_eq_none_iff (p : Picks α) : p.picked = none ↔ p.items = [] := by
  have hin := p.inRange
  unfold InRange at hin
  rw [picked, List.getElem?_eq_none_iff, ← List.length_eq_zero_iff]
  omega

end Picks

/-- What is known of the neighbours of the node in focus. -/
inductive Neighbours where
  | asked
  | failed
  | listed (callers callees : Picks Node)

/-- An open graph: the way to the node in focus, and its neighbours. -/
structure Browsed where
  trail : List Node
  focus : Node
  neighbours : Neighbours

/-- The screen, with the graph that is open on it or behind it. -/
inductive Front where
  | starting
  | search (opened : Option Browsed)
  | graph (opened : Browsed)

structure Browser where
  front : Front
  canSearch : Bool
  query : String
  /-- The answer to the query, once there is one. -/
  results : Option (Picks SymbolMatch)
  pane : Pane
  error : Option String
  quit : Bool

namespace Neighbours

/-- What a pane lists. -/
def side : Neighbours → Pane → Picks Node
  | .listed callers _, .callers => callers
  | .listed _ callees, .callees => callees
  | _, _ => .ofList []

def modifySide (f : Picks Node → Picks Node) : Neighbours → Pane → Neighbours
  | .listed callers callees, .callers => .listed (f callers) callees
  | .listed callers callees, .callees => .listed callers (f callees)
  | n, _ => n

end Neighbours

/-- An answer about a node tells something while that node is in focus and was asked about. -/
def Browsed.tell (o : Browsed) (id : NodeId) (answer : Neighbours) : Browsed :=
  match o.neighbours with
  | .asked => if o.focus.id = id then { o with neighbours := answer } else o
  | _ => o

namespace Front

def opened : Front → Option Browsed
  | .starting => none
  | .search opened => opened
  | .graph opened => some opened

def tell (f : Front) (id : NodeId) (answer : Neighbours) : Front :=
  match f with
  | .starting => .starting
  | .search opened => .search (opened.map (·.tell id answer))
  | .graph opened => .graph (opened.tell id answer)

def trail (f : Front) : List Node := (f.opened.map Browsed.trail).getD []

end Front

namespace Browser

def new : Browser := ⟨.starting, false, "", none, .callers, none, false⟩

/-- Put a node into focus and ask about it. -/
def visit (b : Browser) (trail : List Node) (node : Node) : List Request × Browser :=
  ([.expand node.id], { b with front := .graph ⟨trail, node, .asked⟩ })

def onEvent (b : Browser) : Event → List Request × Browser
  | .ready canSearch => ([], { b with canSearch := canSearch, front := .search b.front.opened })
  | .matched ms => ([], { b with results := some (.ofList ms) })
  | .seeded (some node) => b.visit b.front.trail node
  | .seeded none => ([], { b with error := some "that symbol has no call hierarchy" })
  | .expanded id exp =>
    ([], { b with front :=
      b.front.tell id (.listed (.ofList exp.callers) (.ofList exp.callees)) })
  | .failed id why =>
    ([], { b with front := b.front.tell id .failed, error := some (id.name ++ ": " ++ why) })
  | .warning why => ([], { b with error := some why })
  | .fatal why => ([], { b with error := some why, quit := true })

def overlayKey (b : Browser) : KeyCode → List Request × Browser
  | .esc => ([], { b with error := none })
  | .char 'r' => ([.restart], { b with error := none })
  | .char 'q' => ([], { b with quit := true })
  | _ => ([], b)

/-- What Enter asks for below the search box: the picked match, or else an answer. -/
def ask (b : Browser) : List Request :=
  match b.results.bind Picks.picked with
  | some m => [.seed m]
  | none => if b.canSearch = false ∨ b.query = "" then [] else [.search b.query]

def edit (b : Browser) (query : String) : Browser := { b with query := query, results := none }

def searchKey (b : Browser) (opened : Option Browsed) : KeyCode → List Request × Browser
  | .esc =>
    match opened with
    | some o => ([], { b with front := .graph o })
    | none => ([], { b with quit := true })
  | .enter => (b.ask, b)
  | .backspace => ([], b.edit (String.ofList b.query.toList.dropLast))
  | .down => ([], { b with results := b.results.map Picks.next })
  | .up => ([], { b with results := b.results.map Picks.prev })
  | .char c => ([], b.edit (b.query.push c))
  | _ => ([], b)

def movePane (b : Browser) (right : Bool) : Browser :=
  { b with pane :=
      match b.pane, right with
      | .callers, false | .focus, false => .callers
      | .callers, true | .callees, false => .focus
      | .focus, true | .callees, true => .callees }

def graphKey (b : Browser) (o : Browsed) : KeyCode → List Request × Browser
  | .char 'q' => ([], { b with quit := true })
  | .char '/' => ([], { b with front := .search (some o), query := "", results := none })
  | .char 'u' =>
    match o.trail.getLast? with
    | some prev => b.visit o.trail.dropLast prev
    | none => ([], b)
  | .enter =>
    match (o.neighbours.side b.pane).picked with
    | some next => b.visit (o.trail ++ [o.focus]) next
    | none => ([], b)
  | .left => ([], b.movePane false)
  | .right => ([], b.movePane true)
  | .down => ([], { b with front := .graph { o with
      neighbours := o.neighbours.modifySide .next b.pane } })
  | .up => ([], { b with front := .graph { o with
      neighbours := o.neighbours.modifySide .prev b.pane } })
  | _ => ([], b)

def handleKey (b : Browser) (key : KeyEvent) : List Request × Browser :=
  if key.control = true ∧ key.code = .char 'c' then ([], { b with quit := true })
  else if b.error.isSome then b.overlayKey key.code
  else match b.front with
    | .starting => ([], b)
    | .search opened => b.searchKey opened key.code
    | .graph o => b.graphKey o key.code

def react (b : Browser) : Input → List Request × Browser
  | .event ev => b.onEvent ev
  | .key k => b.handleKey k

end Browser

/-! The representation. -/

def Front.screen : Front → Screen
  | .starting => .starting
  | .search _ => .search
  | .graph _ => .graph

def Neighbours.isAsked : Neighbours → Bool
  | .asked => true
  | _ => false

def Neighbours.isFailed : Neighbours → Bool
  | .failed => true
  | _ => false

/-- The picks of a pane, where a graph is open. -/
def Front.side (f : Front) (p : Pane) : Picks Node :=
  (f.opened.map fun o => o.neighbours.side p).getD (.ofList [])

/-- The focused node, where its neighbours are as given. -/
def Front.focusIf (f : Front) (p : Neighbours → Bool) : Option NodeId :=
  f.opened.bind fun o => if p o.neighbours then some o.focus.id else none

/-- The fields of the interface that a browser is kept in. -/
def Browser.app (b : Browser) : App where
  screen := b.front.screen
  progress := "starting language server"
  canSearch := b.canSearch
  query := b.query
  matchList := (b.results.map Picks.items).getD []
  matchSel := (b.results.map Picks.sel).getD 0
  focus := b.front.opened.map Browsed.focus
  callers := (b.front.side .callers).items
  callees := (b.front.side .callees).items
  pending := b.front.focusIf Neighbours.isAsked
  failed := b.front.focusIf Neighbours.isFailed
  searched := b.results.isSome
  history := b.front.trail
  pane := b.pane
  callerSel := (b.front.side .callers).sel
  calleeSel := (b.front.side .callees).sel
  error := b.error
  shouldQuit := b.quit

theorem Neighbours.side_asked {n : Neighbours} (h : n.isAsked = true) (p : Pane) :
    n.side p = .ofList [] := by
  cases n with
  | asked => cases p <;> rfl
  | _ => cases h

theorem Browsed.tell_asked {o : Browsed} {id : NodeId} (ha : o.neighbours.isAsked = true)
    (hid : o.focus.id = id) (answer : Neighbours) :
    o.tell id answer = { o with neighbours := answer } := by
  obtain ⟨trail, focus, neighbours⟩ := o
  cases neighbours with
  | asked => exact if_pos hid
  | _ => cases ha

theorem Browsed.tell_other {o : Browsed} {id : NodeId}
    (h : ¬(o.neighbours.isAsked = true ∧ o.focus.id = id)) (answer : Neighbours) :
    o.tell id answer = o := by
  obtain ⟨trail, focus, neighbours⟩ := o
  cases neighbours with
  | asked => exact if_neg fun hid => h ⟨rfl, hid⟩
  | _ => rfl

namespace Front

variable {f : Front} {id : NodeId}

theorem focusIf_eq_some_iff {p : Neighbours → Bool} :
    f.focusIf p = some id ↔ ∃ o, f.opened = some o ∧ p o.neighbours = true ∧ o.focus.id = id := by
  simp only [focusIf, Option.bind_eq_some_iff, Option.ite_none_right_eq_some, Option.some.injEq]

theorem opened_tell (f : Front) (id : NodeId) (answer : Neighbours) :
    (f.tell id answer).opened = f.opened.map (·.tell id answer) := by
  cases f <;> rfl

theorem screen_tell (f : Front) (id : NodeId) (answer : Neighbours) :
    (f.tell id answer).screen = f.screen := by
  cases f <;> rfl

theorem tell_of_not (h : f.focusIf Neighbours.isAsked ≠ some id) (answer : Neighbours) :
    f.tell id answer = f := by
  have hother (o : Browsed) (ho : f.opened = some o) : o.tell id answer = o :=
    Browsed.tell_other (fun ha => h (focusIf_eq_some_iff.mpr ⟨o, ho, ha⟩)) answer
  cases f with
  | starting => rfl
  | graph o => exact congrArg graph (hother o rfl)
  | search opened =>
    cases opened with
    | none => rfl
    | some o => exact congrArg (fun o => search (some o)) (hother o rfl)

end Front

namespace Browser

theorem app_new : new.app = App.new := rfl

theorem visit_app (b : Browser) (trail : List Node) (node : Node) :
    { b.app with screen := .graph, history := trail }.focusOn node =
      (.expand node.id, (b.visit trail node).2.app) := rfl

/-- An answer about the pending node takes the place of the question; any other is ignored. -/
theorem tell_app (b : Browser) (id : NodeId) (answer : Neighbours)
    (ha : answer.isAsked = false) :
    { b with front := b.front.tell id answer }.app =
      if b.app.pending = some id then
        { b.app with pending := none, failed := if answer.isFailed then some id else none,
                     callers := (answer.side .callers).items,
                     callees := (answer.side .callees).items,
                     callerSel := (answer.side .callers).sel,
                     calleeSel := (answer.side .callees).sel }
      else b.app := by
  by_cases hp : b.app.pending = some id
  · obtain ⟨o, ho, hasked, rfl⟩ := Front.focusIf_eq_some_iff.mp hp
    rw [if_pos hp]
    simp [app, Front.side, Front.focusIf, Front.trail, Front.opened_tell, Front.screen_tell, ho,
      Browsed.tell_asked hasked rfl answer, ha]
  · rw [if_neg hp, Front.tell_of_not hp]

theorem onEvent_app (b : Browser) (ev : Event) :
    b.app.onEvent ev = ((b.onEvent ev).1, (b.onEvent ev).2.app) := by
  cases ev with
  | seeded node =>
    cases node with
    | none => rfl
    | some node => exact congrArg (fun p : Request × App => ([p.1], p.2)) (b.visit_app _ node)
  | expanded id exp =>
    have ht := b.tell_app id (.listed (.ofList exp.callers) (.ofList exp.callees)) rfl
    change _ = ([], Browser.app { b with front := b.front.tell id _ })
    rw [ht]
    by_cases hp : b.app.pending = some id
    · simp only [App.onEvent, if_pos hp]
      rfl
    · simp only [App.onEvent, if_neg hp]
  | failed id why =>
    have ht := b.tell_app id .failed rfl
    change _ = ([], { Browser.app { b with front := b.front.tell id .failed } with
      error := some (id.name ++ ": " ++ why) })
    rw [ht]
    by_cases hp : b.app.pending = some id
    · -- the code leaves the lists alone, which are empty while the node is pending
      obtain ⟨o, ho, hasked, -⟩ := Front.focusIf_eq_some_iff.mp hp
      have hside (p : Pane) : b.front.side p = .ofList [] := by
        rw [Front.side, ho]
        exact Neighbours.side_asked hasked p
      have hcallers : b.app.callers = [] := congrArg Picks.items (hside .callers)
      have hcallees : b.app.callees = [] := congrArg Picks.items (hside .callees)
      have hcallerSel : b.app.callerSel = 0 := congrArg Picks.sel (hside .callers)
      have hcalleeSel : b.app.calleeSel = 0 := congrArg Picks.sel (hside .callees)
      rw [if_pos hp]
      simp only [App.onEvent, if_pos hp, hcallers, hcallees, hcallerSel, hcalleeSel]
      rfl
    · simp only [App.onEvent, if_neg hp]
  | _ => rfl

theorem overlayKey_app (b : Browser) (code : KeyCode) :
    LspGraph.overlayKey b.app code = ((b.overlayKey code).1, (b.overlayKey code).2.app) := by
  unfold LspGraph.overlayKey
  split
  · rfl
  · rfl
  · rfl
  · rw [overlayKey] <;> assumption

theorem ask_app (b : Browser) :
    (if b.app.matchList.isEmpty then b.app.submitQuery.toList else b.app.chosenMatch.toList) =
      b.ask := by
  have hempty (h : b.app.matchList = []) : b.results.bind Picks.picked = none := by
    cases hr : b.results with
    | none => rfl
    | some p =>
      have hitems : p.items = [] := by simpa [app, hr] using h
      exact p.picked_eq_none_iff.mpr hitems
  unfold ask
  by_cases h : b.app.matchList = []
  · rw [if_pos (List.isEmpty_iff.mpr h), hempty h]
    change (if b.canSearch = false ∨ b.query = "" then none else some _).toList = _
    dsimp only
    split_ifs <;> rfl
  · rw [if_neg (by simpa using h)]
    cases hr : b.results with
    | none => exact absurd (by simp [app, hr]) h
    | some p =>
      have hpicked : p.picked ≠ none := fun hn =>
        h (by simpa [app, hr] using p.picked_eq_none_iff.mp hn)
      obtain ⟨m, hm⟩ := Option.ne_none_iff_exists'.mp hpicked
      have hchosen : b.app.matchList[b.app.matchSel]? = some m := by
        simp only [app, hr]
        exact hm
      rw [Option.bind_some, hm, App.chosenMatch, hchosen]
      rfl

theorem searchKey_app (b : Browser) (opened : Option Browsed) (hf : b.front = .search opened)
    (code : KeyCode) :
    LspGraph.searchKey b.app code =
      ((b.searchKey opened code).1, (b.searchKey opened code).2.app) := by
  obtain ⟨front, canSearch, query, results, pane, error, quit⟩ := b
  obtain rfl : front = .search opened := hf
  unfold LspGraph.searchKey
  split
  · cases opened <;> rfl
  · rw [searchKey, ← ask_app]
    split_ifs <;> rfl
  · rfl
  · cases results <;> rfl
  · cases results <;> rfl
  · rfl
  · rw [searchKey] <;> assumption

theorem selected_app (b : Browser) (o : Browsed) (hf : b.front = .graph o) :
    b.app.selected = (o.neighbours.side b.pane).picked := by
  obtain ⟨front, canSearch, query, results, pane, error, quit⟩ := b
  obtain rfl : front = .graph o := hf
  cases pane with
  | focus => cases hn : o.neighbours <;> rfl
  | _ => rfl

theorem back_app (b : Browser) (o : Browsed) (hf : b.front = .graph o) :
    (b.app.back.1.toList, b.app.back.2) =
      ((b.graphKey o (.char 'u')).1, (b.graphKey o (.char 'u')).2.app) := by
  obtain ⟨front, canSearch, query, results, pane, error, quit⟩ := b
  obtain rfl : front = .graph o := hf
  unfold App.back
  have htrail : (app ⟨.graph o, canSearch, query, results, pane, error, quit⟩).history = o.trail :=
    rfl
  rw [htrail, graphKey]
  cases o.trail.getLast? <;> rfl

theorem recentre_app (b : Browser) (o : Browsed) (hf : b.front = .graph o) :
    (b.app.recentre.1.toList, b.app.recentre.2) =
      ((b.graphKey o .enter).1, (b.graphKey o .enter).2.app) := by
  unfold App.recentre
  rw [selected_app b o hf, graphKey]
  obtain ⟨front, canSearch, query, results, pane, error, quit⟩ := b
  obtain rfl : front = .graph o := hf
  cases (o.neighbours.side pane).picked <;> rfl

theorem graphKey_app (b : Browser) (o : Browsed) (hf : b.front = .graph o) (code : KeyCode) :
    LspGraph.graphKey b.app code = ((b.graphKey o code).1, (b.graphKey o code).2.app) := by
  obtain ⟨front, canSearch, query, results, pane, error, quit⟩ := b
  obtain rfl : front = .graph o := hf
  unfold LspGraph.graphKey
  split
  · rfl
  · rfl
  · exact back_app _ o rfl
  · exact recentre_app _ o rfl
  · cases pane <;> rfl
  · cases pane <;> rfl
  -- in an empty list the selection stays at the start
  · obtain ⟨trail, focus, neighbours⟩ := o
    cases pane <;> cases neighbours <;> rfl
  · obtain ⟨trail, focus, neighbours⟩ := o
    cases pane <;> cases neighbours <;> rfl
  · rw [graphKey] <;> assumption

theorem handleKey_app (b : Browser) (k : KeyEvent) :
    LspGraph.handleKey b.app k = ((b.handleKey k).1, (b.handleKey k).2.app) := by
  unfold LspGraph.handleKey handleKey
  by_cases hc : k.control = true ∧ k.code = .char 'c'
  · rw [if_pos hc, if_pos hc]
    rfl
  rw [if_neg hc, if_neg hc]
  by_cases he : b.error.isSome = true
  · rw [if_pos he, if_pos (show b.app.error.isSome = true from he)]
    exact b.overlayKey_app k.code
  rw [if_neg he, if_neg (show ¬b.app.error.isSome = true from he)]
  rw [show b.app.screen = b.front.screen from rfl]
  cases hf : b.front with
  | starting => rfl
  | search opened => exact b.searchKey_app opened hf k.code
  | graph o => exact b.graphKey_app o hf k.code

theorem react_app (b : Browser) (i : Input) :
    b.app.react i = ((b.react i).1, (b.react i).2.app) := by
  cases i with
  | event ev => exact b.onEvent_app ev
  | key k => exact b.handleKey_app k

/-- One input to the interface and to the browser it represents. -/
theorem interface_simulates : Simulates App.react react fun a b => a = b.app := by
  rintro a b i rfl
  rw [b.react_app i]
  exact ⟨rfl, rfl⟩

end Browser

theorem Neighbours.ext {n n' : Neighbours} (hasked : n.isAsked = n'.isAsked)
    (hfailed : n.isFailed = n'.isFailed) (hside : ∀ p, n.side p = n'.side p) : n = n' := by
  cases n with
  | asked =>
    cases n' with
    | asked => rfl
    | _ => cases hasked
  | failed =>
    cases n' with
    | failed => rfl
    | asked => cases hasked
    | listed => cases hfailed
  | listed callers callees =>
    cases n' with
    | asked => cases hasked
    | failed => cases hfailed
    | listed callers' callees' => exact congrArg₂ listed (hside .callers) (hside .callees)

theorem Front.ext {f f' : Front} (hs : f.screen = f'.screen) (ho : f.opened = f'.opened) :
    f = f' := by
  cases f with
  | starting =>
    cases f' with
    | starting => rfl
    | _ => cases hs
  | search opened =>
    cases f' with
    | search opened' => exact congrArg search ho
    | _ => cases hs
  | graph o =>
    cases f' with
    | graph o' => exact congrArg graph (Option.some.inj ho)
    | _ => cases hs

namespace Browser

/-- Whether a node is marked shows in the id it is marked by. -/
theorem marked_iff {p q : Bool} {id id' : NodeId}
    (h : (if p then some id else none) = if q then some id' else none) : p = q := by
  cases p <;> cases q <;> first | rfl | cases h

theorem results_of_app {b b' : Browser} (h : b.app = b'.app) : b.results = b'.results := by
  have hitems := congrArg App.matchList h
  have hsel := congrArg App.matchSel h
  have hsome := congrArg App.searched h
  dsimp only [app] at hitems hsel hsome
  cases hr : b.results with
  | none =>
    rw [hr] at hsome
    exact (Option.not_isSome_iff_eq_none.mp (by simp [← hsome])).symm
  | some p =>
    rw [hr] at hitems hsel hsome
    obtain ⟨p', hr'⟩ := Option.isSome_iff_exists.mp hsome.symm
    rw [hr'] at hitems hsel ⊢
    exact congrArg some (Picks.ext hitems hsel)

theorem opened_of_app {b b' : Browser} (h : b.app = b'.app) :
    b.front.opened = b'.front.opened := by
  have hfocus := congrArg App.focus h
  have htrail := congrArg App.history h
  have hasked := congrArg App.pending h
  have hfailed := congrArg App.failed h
  have hcallers : b.front.side .callers = b'.front.side .callers :=
    Picks.ext (congrArg App.callers h) (congrArg App.callerSel h)
  have hcallees : b.front.side .callees = b'.front.side .callees :=
    Picks.ext (congrArg App.callees h) (congrArg App.calleeSel h)
  dsimp only [app] at hfocus htrail hasked hfailed
  unfold Front.focusIf at hasked hfailed
  unfold Front.trail at htrail
  unfold Front.side at hcallers hcallees
  cases ho : b.front.opened with
  | none =>
    rw [ho] at hfocus
    exact (Option.map_eq_none_iff.mp hfocus.symm).symm
  | some o =>
    rw [ho] at hfocus htrail hasked hfailed hcallers hcallees
    obtain ⟨o', ho', hf⟩ := Option.map_eq_some_iff.mp hfocus.symm
    rw [ho'] at htrail hasked hfailed hcallers hcallees ⊢
    have hside (p : Pane) : o.neighbours.side p = o'.neighbours.side p := by
      cases p with
      | callers => exact hcallers
      | callees => exact hcallees
      | focus => cases o.neighbours <;> cases o'.neighbours <;> rfl
    have hneighbours := Neighbours.ext (marked_iff hasked) (marked_iff hfailed) hside
    obtain ⟨trail, focus, neighbours⟩ := o
    obtain ⟨trail', focus', neighbours'⟩ := o'
    obtain rfl : trail = trail' := htrail
    obtain rfl : focus' = focus := hf
    obtain rfl : neighbours = neighbours' := hneighbours
    rfl

/-- The interface keeps all of the browser: it represents one only. -/
theorem app_injective : Function.Injective app := by
  intro b b' h
  have hfront := Front.ext (congrArg App.screen h) (opened_of_app h)
  have hresults := results_of_app h
  have hcan := congrArg App.canSearch h
  have hquery := congrArg App.query h
  have hpane := congrArg App.pane h
  have herror := congrArg App.error h
  have hquit := congrArg App.shouldQuit h
  obtain ⟨front, canSearch, query, results, pane, error, quit⟩ := b
  obtain ⟨front', canSearch', query', results', pane', error', quit'⟩ := b'
  dsimp only [app] at hfront hresults hcan hquery hpane herror hquit
  rw [hfront, hresults, hcan, hquery, hpane, herror, hquit]

/-- The interface is the browser: it sends the same requests for every sequence of events and
keys, and what it keeps represents the browser's state and no other. -/
theorem interface_is_browser (is : List Input) :
    (runAll App.react .new is).1 = (runAll react new is).1 ∧
      ∀ b : Browser, (runAll App.react .new is).2 = b.app ↔ b = (runAll react new is).2 := by
  obtain ⟨hout, hend⟩ := interface_simulates.runAll (s := App.new) (t := new) app_new.symm is
  refine ⟨hout, fun b => ?_⟩
  rw [hend]
  constructor
  · exact fun h => (app_injective h).symm
  · rintro rfl
    rfl

end Browser

end LspGraph
