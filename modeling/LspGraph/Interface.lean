import LspGraph.Keys
import LspGraph.Runs

/-! The interface under any sequence of events and keys: its selections stay inside their lists,
and loading, failed and resolved exclude each other. -/
namespace LspGraph
open Runs

/-- What reaches the interface. -/
inductive Input where
  | event (ev : Event)
  | key (k : KeyEvent)
  deriving DecidableEq

/-- An index into a list of the given length, or its start. -/
def InRange (sel length : ℕ) : Prop := sel = 0 ∨ sel < length

theorem inRange_zero (length : ℕ) : InRange 0 length := .inl rfl

theorem InRange.pred {sel length : ℕ} (h : InRange sel length) : InRange (sel - 1) length := by
  unfold InRange at *
  omega

theorem InRange.next {sel length : ℕ} (h : InRange sel length) :
    InRange (App.nextIndex sel length) length := by
  unfold App.nextIndex
  split_ifs with hl
  · exact h
  · unfold InRange
    omega

namespace App

/-- What the interface does with an input: the requests it sends, and what becomes of it. -/
def react (a : App) : Input → List Request × App
  | .event ev => a.onEvent ev
  | .key k => handleKey a k

/-- One input of a run of the interface. -/
def ReactStep (a : App) (i : Input) (b : App) : Prop := b = (a.react i).2

/-- The run of a list of inputs. -/
theorem run_react (is : List Input) :
    Run ReactStep new (trace (fun a i => (a.react i).2) new is)
      (is.foldl (fun a i => (a.react i).2) new) :=
  run_of_total (R := ReactStep) _ (fun _ _ => rfl) new is

/-- Every selection is inside its list. -/
structure Selections (a : App) : Prop where
  matchSel : InRange a.matchSel a.matchList.length
  callerSel : InRange a.callerSel a.callers.length
  calleeSel : InRange a.calleeSel a.callees.length

/-- The focus, the lists and the two marks fit together. -/
structure Coherent (a : App) : Prop where
  pending : ∀ id, a.pending = some id →
    a.focus.map Node.id = some id ∧ a.failed = none ∧ a.callers = [] ∧ a.callees = []
  failed : ∀ id, a.failed = some id →
    a.focus.map Node.id = some id ∧ a.pending = none ∧ a.callers = [] ∧ a.callees = []
  graph : a.screen = .graph → a.focus.isSome = true
  history : a.history ≠ [] → a.focus.isSome = true

variable {a b : App}

theorem selections_new : new.Selections :=
  ⟨inRange_zero _, inRange_zero _, inRange_zero _⟩

theorem Selections.event (h : a.Selections) (ev : Event) : (a.onEvent ev).2.Selections := by
  have hc := onEvent_case a ev
  generalize (a.onEvent ev).1 = reqs, (a.onEvent ev).2 = b at hc ⊢
  cases hc with
  | ready => exact ⟨h.matchSel, h.callerSel, h.calleeSel⟩
  | matched => exact ⟨inRange_zero _, h.callerSel, h.calleeSel⟩
  | focused => exact ⟨h.matchSel, inRange_zero _, inRange_zero _⟩
  | expanded => exact ⟨h.matchSel, inRange_zero _, inRange_zero _⟩
  | failed => exact ⟨h.matchSel, h.callerSel, h.calleeSel⟩
  | noted => exact ⟨h.matchSel, h.callerSel, h.calleeSel⟩

theorem Selections.overlayKey (h : a.Selections) (code : KeyCode) :
    (overlayKey a code).2.Selections := by
  unfold LspGraph.overlayKey
  split <;> exact ⟨h.matchSel, h.callerSel, h.calleeSel⟩

theorem Selections.searchKey (h : a.Selections) (code : KeyCode) :
    (searchKey a code).2.Selections := by
  unfold LspGraph.searchKey
  split
  · unfold leaveSearch
    split_ifs <;> exact ⟨h.matchSel, h.callerSel, h.calleeSel⟩
  · split_ifs <;> exact h
  · exact ⟨inRange_zero _, h.callerSel, h.calleeSel⟩
  · exact ⟨h.matchSel.next, h.callerSel, h.calleeSel⟩
  · exact ⟨h.matchSel.pred, h.callerSel, h.calleeSel⟩
  · exact ⟨inRange_zero _, h.callerSel, h.calleeSel⟩
  · exact h

theorem Selections.graphKey (h : a.Selections) (code : KeyCode) :
    (graphKey a code).2.Selections := by
  unfold LspGraph.graphKey
  split
  · exact ⟨h.matchSel, h.callerSel, h.calleeSel⟩
  · exact ⟨inRange_zero _, h.callerSel, h.calleeSel⟩
  · unfold back
    split
    · exact h
    · exact ⟨h.matchSel, inRange_zero _, inRange_zero _⟩
  · unfold recentre
    split
    · exact h
    · exact ⟨h.matchSel, inRange_zero _, inRange_zero _⟩
  · exact ⟨h.matchSel, h.callerSel, h.calleeSel⟩
  · exact ⟨h.matchSel, h.callerSel, h.calleeSel⟩
  · unfold selectNext
    split
    · exact ⟨h.matchSel, h.callerSel.next, h.calleeSel⟩
    · exact ⟨h.matchSel, h.callerSel, h.calleeSel.next⟩
    · exact h
  · unfold selectPrev
    split
    · exact ⟨h.matchSel, h.callerSel.pred, h.calleeSel⟩
    · exact ⟨h.matchSel, h.callerSel, h.calleeSel.pred⟩
    · exact h
  · exact h

theorem Selections.react (h : a.Selections) (i : Input) : (a.react i).2.Selections := by
  cases i with
  | event ev => exact h.event ev
  | key k =>
    change (handleKey a k).2.Selections
    unfold handleKey
    split_ifs
    · exact ⟨h.matchSel, h.callerSel, h.calleeSel⟩
    · exact h.overlayKey k.code
    · split
      · exact h
      · exact h.searchKey k.code
      · exact h.graphKey k.code

theorem coherent_new : new.Coherent :=
  ⟨fun _ h => (by cases h), fun _ h => (by cases h), fun h => (by cases h), fun h => absurd rfl h⟩

/-- Focusing a node, which is what a seed, a re-centring and a step back share. -/
theorem coherent_focusOn (a : App) (node : Node) : (a.focusOn node).2.Coherent where
  pending := by
    rintro id ⟨⟩
    exact ⟨rfl, rfl, rfl, rfl⟩
  failed := by
    rintro id ⟨⟩
  graph _ := rfl
  history _ := rfl

theorem Coherent.event (h : a.Coherent) (ev : Event) : (a.onEvent ev).2.Coherent := by
  have hc := onEvent_case a ev
  generalize (a.onEvent ev).1 = reqs, (a.onEvent ev).2 = b at hc ⊢
  cases hc with
  | ready => exact ⟨h.pending, h.failed, fun hs => (by cases hs), h.history⟩
  | matched => exact ⟨h.pending, h.failed, h.graph, h.history⟩
  | focused node => exact coherent_focusOn _ node
  | expanded id exp hp =>
    exact ⟨fun _ hn => (by cases hn), fun _ hn => (by cases hn), h.graph, h.history⟩
  | failed id why error hp =>
    -- the lists were emptied when the request went out
    obtain ⟨hf, -, hlists⟩ := h.pending id hp
    refine ⟨fun _ hn => (by cases hn), ?_, h.graph, h.history⟩
    rintro id' ⟨⟩
    exact ⟨hf, rfl, hlists⟩
  | noted => exact ⟨h.pending, h.failed, h.graph, h.history⟩

theorem Coherent.key (h : a.Coherent) (k : KeyEvent) : (handleKey a k).2.Coherent := by
  have hc := handleKey_case a k
  generalize (handleKey a k).1 = reqs, (handleKey a k).2 = b at hc ⊢
  cases hc with
  | quiet => exact ⟨h.pending, h.failed, h.graph, h.history⟩
  | restart => exact ⟨h.pending, h.failed, h.graph, h.history⟩
  | submitted => exact h
  | chosen => exact h
  | edited => exact ⟨h.pending, h.failed, h.graph, h.history⟩
  | searchOpened => exact ⟨h.pending, h.failed, fun hs => (by cases hs), h.history⟩
  | searchLeft hf => exact ⟨h.pending, h.failed, fun _ => hf, h.history⟩
  | recentred next => exact coherent_focusOn _ next
  | wentBack init prev => exact coherent_focusOn _ prev

theorem Coherent.react (h : a.Coherent) (i : Input) : (a.react i).2.Coherent := by
  cases i with
  | event ev => exact h.event ev
  | key k => exact h.key k

theorem coherent_of_run {h : List (App × Input)} (hr : Run ReactStep new h a) : a.Coherent := by
  refine hr.invariant Coherent coherent_new ?_
  rintro a i b ha rfl
  exact ha.react i

theorem selections_of_run {h : List (App × Input)} (hr : Run ReactStep new h a) :
    a.Selections := by
  refine hr.invariant Selections selections_new ?_
  rintro a i b ha rfl
  exact ha.react i

/-- The list shown in a pane. -/
def paneList (a : App) : Pane → List Node
  | .callers => a.callers
  | .callees => a.callees
  | .focus => []

theorem selected_eq (a : App) : a.selected = (a.paneList a.pane)[a.selectedIndex a.pane]? := by
  unfold selected
  cases hp : a.pane <;> rfl

/-- On a side pane that lists something a node is highlighted. -/
theorem Selections.exists_selected (h : a.Selections) (hl : a.paneList a.pane ≠ []) :
    ∃ n, a.selected = some n := by
  have hin : InRange (a.selectedIndex a.pane) (a.paneList a.pane).length := by
    cases hp : a.pane with
    | callers => exact h.callerSel
    | callees => exact h.calleeSel
    | focus => exact inRange_zero _
  have hpos := List.length_pos_iff.mpr hl
  have hlt : a.selectedIndex a.pane < (a.paneList a.pane).length := by
    rcases hin with h₀ | hlt
    · rw [h₀]
      exact hpos
    · exact hlt
  rw [selected_eq]
  exact ⟨_, List.getElem?_eq_getElem hlt⟩

theorem enter_recentres (hs : a.screen = .graph) (he : a.error = none) (control : Bool) {n : Node}
    (hn : a.selected = some n) : (handleKey a ⟨.enter, control⟩).1 = [.expand n.id] := by
  simp [handleKey, he, hs, graphKey, recentre, hn, focusOn]

/-- After any sequence of events and keys: the selections are inside their lists, a pending or
failed expansion is the focused node's and excludes the other and any list, the graph screen and
a history have a focus, and Enter on a side pane that lists something asks for the expansion of
the highlighted node. -/
theorem interface_invariant {h : List (App × Input)} (hr : Run ReactStep new h a) :
    InRange a.matchSel a.matchList.length ∧ InRange a.callerSel a.callers.length ∧
    InRange a.calleeSel a.callees.length ∧
    (∀ id, a.pending = some id →
      a.focus.map Node.id = some id ∧ a.failed = none ∧ a.callers = [] ∧ a.callees = []) ∧
    (∀ id, a.failed = some id →
      a.focus.map Node.id = some id ∧ a.pending = none ∧ a.callers = [] ∧ a.callees = []) ∧
    (a.screen = .graph → a.focus.isSome = true) ∧ (a.history ≠ [] → a.focus.isSome = true) ∧
    (a.screen = .graph → a.error = none → a.paneList a.pane ≠ [] → ∀ control, ∃ n,
      (a.paneList a.pane)[a.selectedIndex a.pane]? = some n ∧
        (handleKey a ⟨.enter, control⟩).1 = [.expand n.id]) ∧
    ¬(a.isPending = true ∧ a.expansionFailed = true) ∧
    (a.callers ≠ [] ∨ a.callees ≠ [] → a.isPending = false ∧ a.expansionFailed = false) := by
  have hc := coherent_of_run hr
  have hsel := selections_of_run hr
  refine ⟨hsel.matchSel, hsel.callerSel, hsel.calleeSel, hc.pending, hc.failed, hc.graph,
    hc.history, ?_, ?_, ?_⟩
  · intro hs he hl control
    obtain ⟨n, hn⟩ := hsel.exists_selected hl
    exact ⟨n, (selected_eq a).symm.trans hn, enter_recentres hs he control hn⟩
  · rintro ⟨hp, hf⟩
    obtain ⟨id, hid⟩ := Option.isSome_iff_exists.mp hp
    simp [expansionFailed, (hc.pending id hid).2.1] at hf
  · intro hl
    constructor
    · cases hp : a.pending with
      | none => simp [isPending, hp]
      | some id =>
        obtain ⟨-, -, h₁, h₂⟩ := hc.pending id hp
        exact absurd hl (by simp [h₁, h₂])
    · cases hf : a.failed with
      | none => simp [expansionFailed, hf]
      | some id =>
        obtain ⟨-, -, h₁, h₂⟩ := hc.failed id hf
        exact absurd hl (by simp [h₁, h₂])

/-- A function of a sample project, as the graph knows it. -/
def sampleNode (name : String) : Node :=
  ⟨⟨"file:///a.rs", 1, 3, name⟩, "Function", none, .unexpanded⟩

/-- A seed, its expansion with two callers, and a step down the list. -/
def secondCaller : List Input :=
  [.event (.ready true), .event (.seeded (some (sampleNode "f"))),
    .event (.expanded (sampleNode "f").id ⟨[sampleNode "g", sampleNode "h"], []⟩),
    .key ⟨.down, false⟩]

/-- Enter asks for the expansion of the highlighted second caller. -/
theorem interface_invariant_second_caller :
    ∃ h a, Run ReactStep new h a ∧ h.map Prod.snd = secondCaller ∧
      ∃ n, (a.paneList a.pane)[a.selectedIndex a.pane]? = some n ∧
        (handleKey a ⟨.enter, false⟩).1 = [.expand n.id] := by
  have hr := run_react secondCaller
  refine ⟨_, _, hr, map_snd_trace _ _ _, ?_⟩
  exact (interface_invariant hr).2.2.2.2.2.2.2.1 rfl rfl (by decide) false

end App

end LspGraph
