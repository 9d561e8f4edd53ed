import LspGraph.Browser

/-! What the keyboard can reach: every line of a pane, every match of a search and every node of
the trail. -/
namespace LspGraph
open Machines Runs

namespace App

variable {a b c : App} {h : List (App × Input)} {xs ys : List KeyCode} {reqs reqs' : List Request}
  {i j n : ℕ} {p : Pane} {node : Node}

/-- The requests that keys send one after the other, and where they lead. -/
def press (a : App) (codes : List KeyCode) : List Request × App :=
  let run := runAll react a (codes.map fun code => .key ⟨code, false⟩)
  (run.1.flatten, run.2)

/-- The keys lead from one state to another and send these requests on the way. -/
def Leads (a : App) (codes : List KeyCode) (reqs : List Request) (b : App) : Prop :=
  a.press codes = (reqs, b)

theorem Leads.nil (a : App) : Leads a [] [] a := rfl

theorem leads_key {code : KeyCode} (h : handleKey a ⟨code, false⟩ = (reqs, b)) :
    Leads a [code] reqs b := by
  change ([(handleKey a ⟨code, false⟩).1].flatten, (handleKey a ⟨code, false⟩).2) = (reqs, b)
  rw [h]
  simp

theorem press_cons (a : App) (code : KeyCode) (codes : List KeyCode) :
    a.press (code :: codes) =
      ((handleKey a ⟨code, false⟩).1 ++ ((handleKey a ⟨code, false⟩).2.press codes).1,
        ((handleKey a ⟨code, false⟩).2.press codes).2) := rfl

theorem press_append (a : App) (xs ys : List KeyCode) :
    a.press (xs ++ ys) =
      ((a.press xs).1 ++ ((a.press xs).2.press ys).1, ((a.press xs).2.press ys).2) := by
  induction xs generalizing a with
  | nil => rfl
  | cons x xs ih =>
    rw [List.cons_append, press_cons, ih, press_cons]
    simp

theorem Leads.append (h : Leads a xs reqs b) (h' : Leads b ys reqs' c) :
    Leads a (xs ++ ys) (reqs ++ reqs') c := by
  unfold Leads at *
  rw [press_append, h, h']

/-- Up or down from one line of a list to another. -/
def upDown (i j : ℕ) : List KeyCode := .replicate (j - i) .down ++ .replicate (i - j) .up

section Lines

variable (line : ℕ → App)

theorem leads_down (hdown : ∀ i, i + 1 < n → Leads (line i) [.down] [] (line (i + 1))) (d : ℕ)
    (hn : i + d < n) : Leads (line i) (.replicate d .down) [] (line (i + d)) := by
  induction d with
  | zero => exact .nil _
  | succ d ih =>
    rw [List.replicate_succ']
    exact (ih (by omega)).append (hdown (i + d) hn)

theorem leads_up (hup : ∀ i, i + 1 < n → Leads (line (i + 1)) [.up] [] (line i)) (d : ℕ)
    (hn : i + d < n) : Leads (line (i + d)) (.replicate d .up) [] (line i) := by
  induction d with
  | zero => exact .nil _
  | succ d ih => exact (hup (i + d) hn).append (ih (by omega))

/-- From any line of a list to any other. -/
theorem leads_upDown (hdown : ∀ i, i + 1 < n → Leads (line i) [.down] [] (line (i + 1)))
    (hup : ∀ i, i + 1 < n → Leads (line (i + 1)) [.up] [] (line i)) (hi : i < n) (hj : j < n) :
    Leads (line i) (upDown i j) [] (line j) := by
  rcases Nat.le_total i j with hij | hji
  · have hwalk := leads_down line hdown (j - i) (i := i) (by omega)
    rw [Nat.add_sub_cancel' hij] at hwalk
    simpa [upDown, Nat.sub_eq_zero_of_le hij] using hwalk
  · have hwalk := leads_up line hup (i - j) (i := j) (by omega)
    rw [Nat.add_sub_cancel' hji] at hwalk
    simpa [upDown, Nat.sub_eq_zero_of_le hji] using hwalk

end Lines

/-- The graph screen, without the overlay. -/
def uncovered (a : App) : App := { a with screen := .graph, error := none }

/-- The graph with a node in focus, and the trail that led there. -/
def onTrail (a : App) (trail : List Node) (node : Node) : App :=
  ({ a.uncovered with history := trail }.focusOn node).2

/-- The keys that uncover the graph: one for the overlay, one for the search. -/
def surface (a : App) : List KeyCode :=
  (if a.error.isSome then [.esc] else []) ++ (if a.screen = .search then [.esc] else [])

theorem leads_dismiss (a : App) :
    Leads a (if a.error.isSome then [.esc] else []) [] a.dismissError := by
  split_ifs with he
  · apply leads_key
    simp [handleKey, he, overlayKey]
  · have hnone : a.error = none := by simpa using he
    change ([], a) = ([], { a with error := none })
    rw [← hnone]

theorem leads_surface (hf : a.focus.isSome = true) (hs : a.screen ≠ .starting) :
    Leads a a.surface [] a.uncovered := by
  have hleave :
      Leads a.dismissError (if a.screen = .search then [.esc] else []) [] a.uncovered := by
    cases hscreen : a.screen with
    | starting => exact absurd hscreen hs
    | search =>
      apply leads_key
      simp [handleKey, dismissError, hscreen, searchKey, leaveSearch, hf, uncovered]
    | graph =>
      change ([], a.dismissError) = ([], { a with screen := .graph, error := none })
      rw [← hscreen]
      rfl
  exact a.leads_dismiss.append hleave

/-- The same screen with a line of a pane highlighted. -/
def point (a : App) (p : Pane) (i : ℕ) : App :=
  match p with
  | .callers => { a with pane := .callers, callerSel := i }
  | .callees => { a with pane := .callees, calleeSel := i }
  | .focus => { a with pane := .focus }

/-- The keys that lead to a pane, from whichever pane. -/
def paneKeys : Pane → List KeyCode
  | .callers => [.left, .left]
  | .callees => [.right, .right]
  | .focus => [.left, .left, .right]

theorem leads_pane (a : App) (p : Pane) :
    Leads a.uncovered (paneKeys p) [] (a.uncovered.point p (a.selectedIndex p)) := by
  cases p <;> cases hp : a.pane <;>
    simp [Leads, press, paneKeys, runAll, react, handleKey, graphKey, uncovered, movePane, hp,
      point, selectedIndex]

theorem nextIndex_of_lt (hi : i + 1 < n) : nextIndex i n = i + 1 := by
  rw [nextIndex, if_neg (by omega)]
  omega

theorem leads_point_down (hi : i + 1 < (a.paneList p).length) :
    Leads (a.uncovered.point p i) [.down] [] (a.uncovered.point p (i + 1)) := by
  apply leads_key
  cases p with
  | focus => cases hi
  | callers =>
    have hnext : nextIndex i a.callers.length = i + 1 := nextIndex_of_lt hi
    simp [handleKey, graphKey, uncovered, point, selectNext, hnext]
  | callees =>
    have hnext : nextIndex i a.callees.length = i + 1 := nextIndex_of_lt hi
    simp [handleKey, graphKey, uncovered, point, selectNext, hnext]

theorem leads_point_up (hi : i + 1 < (a.paneList p).length) :
    Leads (a.uncovered.point p (i + 1)) [.up] [] (a.uncovered.point p i) := by
  apply leads_key
  cases p with
  | focus => cases hi
  | callers => rfl
  | callees => rfl

/-- Enter on a highlighted node puts it into focus, one step further on the trail. -/
theorem leads_enter (hn : (a.paneList p)[j]? = some node) :
    Leads (a.uncovered.point p j) [.enter] [.expand node.id]
      ({ a with pane := p }.onTrail (a.history ++ a.focus.toList) node) := by
  apply leads_key
  have hsel : (a.uncovered.point p j).selected = some node := by
    cases p with
    | focus => cases hn
    | callers => exact hn
    | callees => exact hn
  simp only [handleKey, graphKey, recentre, hsel]
  cases p <;> rfl

theorem Selections.pane (h : a.Selections) (p : Pane) :
    InRange (a.selectedIndex p) (a.paneList p).length := by
  cases p with
  | callers => exact h.callerSel
  | callees => exact h.calleeSel
  | focus => exact inRange_zero _

/-- The keys for a line of a pane: to the graph, to the pane, to the line, and Enter. -/
def keysTo (a : App) (p : Pane) (j : ℕ) : List KeyCode :=
  a.surface ++ (paneKeys p ++ (upDown (a.selectedIndex p) j ++ [.enter]))

theorem leads_keysTo (hsel : a.Selections) (hf : a.focus.isSome = true) (hs : a.screen ≠ .starting)
    (hn : (a.paneList p)[j]? = some node) :
    Leads a (a.keysTo p j) [.expand node.id]
      ({ a with pane := p }.onTrail (a.history ++ a.focus.toList) node) := by
  have hj : j < (a.paneList p).length := (List.getElem?_eq_some_iff.mp hn).1
  have hi : a.selectedIndex p < (a.paneList p).length := by
    have hin := hsel.pane p
    unfold InRange at hin
    omega
  have hwalk : Leads (a.uncovered.point p (a.selectedIndex p)) (upDown (a.selectedIndex p) j) []
      (a.uncovered.point p j) :=
    leads_upDown (a.uncovered.point p) (fun _ => leads_point_down) (fun _ => leads_point_up) hi hj
  exact (leads_surface hf hs).append ((a.leads_pane p).append (hwalk.append (leads_enter hn)))

/-- The keys for a match of the search screen. -/
def keysToMatch (a : App) (j : ℕ) : List KeyCode :=
  (if a.error.isSome then [.esc] else []) ++ (upDown a.matchSel j ++ [.enter])

theorem leads_keysToMatch {m : SymbolMatch} (hsel : a.Selections) (hs : a.screen = .search)
    (hm : a.matchList[j]? = some m) :
    Leads a (a.keysToMatch j) [.seed m] { a with error := none, matchSel := j } := by
  have hj : j < a.matchList.length := (List.getElem?_eq_some_iff.mp hm).1
  have hi : a.matchSel < a.matchList.length := by
    have hin := hsel.matchSel
    unfold InRange at hin
    omega
  have hwalk : Leads { a with error := none, matchSel := a.matchSel } (upDown a.matchSel j) []
      { a with error := none, matchSel := j } := by
    refine leads_upDown (fun i => { a with error := none, matchSel := i }) ?_ ?_ hi hj
    · intro i hi
      apply leads_key
      simp [handleKey, hs, searchKey, selectMatchNext, nextIndex_of_lt hi]
    · intro i hi
      apply leads_key
      simp [handleKey, hs, searchKey, selectMatchPrev]
  refine a.leads_dismiss.append (hwalk.append (leads_key ?_))
  have hne : a.matchList ≠ [] := List.length_pos_iff.mp (by omega)
  simp [handleKey, hs, searchKey, chosenMatch, hm, hne]

theorem leads_back {pre : List Node} (hh : a.history = pre ++ [node]) :
    Leads a.uncovered [.char 'u'] [.expand node.id] (a.onTrail pre node) := by
  have hlast : a.uncovered.history.getLast? = some node := by
    change a.history.getLast? = some node
    rw [hh, List.getLast?_concat]
  have hdrop : a.uncovered.history.dropLast = pre := by
    change a.history.dropLast = pre
    rw [hh, List.dropLast_concat]
  apply leads_key
  change (a.uncovered.back.1.toList, a.uncovered.back.2) = _
  rw [back, hlast, hdrop]
  rfl

/-- One step back for each node of the trail up to the wanted one. -/
theorem leads_back_to {pre post : List Node} (hh : a.history = pre ++ node :: post) :
    Leads a.uncovered (.replicate (post.length + 1) (.char 'u'))
      ((node :: post).reverse.map fun n => .expand n.id) (a.onTrail pre node) := by
  -- the last node of the trail is the first one on the way back
  induction post using List.reverseRecOn generalizing a with
  | nil => exact leads_back hh
  | append_singleton post last ih =>
    have hstep : Leads a.uncovered [.char 'u'] [.expand last.id]
        (a.onTrail (pre ++ node :: post) last) := leads_back (by simp [hh])
    have hrest : Leads (a.onTrail (pre ++ node :: post) last)
        (.replicate (post.length + 1) (.char 'u'))
        ((node :: post).reverse.map fun n => .expand n.id) (a.onTrail pre node) :=
      ih (a := a.onTrail (pre ++ node :: post) last) rfl
    have hkeys := hstep.append hrest
    rw [List.length_append, ← List.cons_append, List.reverse_append, List.map_append]
    exact hkeys

/-- The search screen, without the overlay and without an answer to the query. -/
def asking (a : App) (query : String) : App :=
  { a with screen := .search, error := none, query := query, matchList := [], matchSel := 0,
           searched := false }

theorem leads_type (a : App) (s cs : List Char) :
    Leads (a.asking (.ofList s)) (cs.map .char) [] (a.asking (.ofList (s ++ cs))) := by
  induction cs generalizing s with
  | nil =>
    rw [List.append_nil]
    exact .nil _
  | cons c cs ih =>
    have hpush : (String.ofList s).push c = .ofList (s ++ [c]) := by simp
    have hkey : Leads (a.asking (.ofList s)) [.char c] [] (a.asking (.ofList (s ++ [c]))) := by
      apply leads_key
      rw [← hpush]
      simp [handleKey, asking, searchKey, pushQueryChar, invalidateMatches]
    have hkeys := hkey.append (ih (s ++ [c]))
    rwa [List.append_assoc] at hkeys

theorem leads_erase (a : App) (s : List Char) :
    Leads (a.asking (.ofList s)) (.replicate s.length .backspace) [] (a.asking "") := by
  induction s using List.reverseRecOn with
  | nil => exact .nil _
  | append_singleton s c ih =>
    have hkey : Leads (a.asking (.ofList (s ++ [c]))) [.backspace] [] (a.asking (.ofList s)) := by
      apply leads_key
      simp [handleKey, asking, searchKey, popQueryChar, invalidateMatches]
    rw [List.length_append]
    exact hkey.append ih

/-- The keys that open the search screen with an empty query. -/
def clearing (a : App) : List KeyCode :=
  if a.screen = .search then .backspace :: .replicate (a.query.toList.length - 1) .backspace
  else [.char '/']

theorem leads_clearing (hs : a.screen ≠ .starting) :
    Leads a.dismissError a.clearing [] (a.asking "") := by
  unfold clearing
  split_ifs with hsearch
  · have hkey : Leads a.dismissError [.backspace] []
        (a.asking (.ofList a.query.toList.dropLast)) := by
      apply leads_key
      simp [handleKey, dismissError, hsearch, searchKey, popQueryChar, invalidateMatches, asking]
    have herase := a.leads_erase a.query.toList.dropLast
    rw [List.length_dropLast] at herase
    exact hkey.append herase
  · have hgraph : a.screen = .graph := by
      cases hscreen : a.screen with
      | starting => exact absurd hscreen hs
      | search => exact absurd hscreen hsearch
      | graph => rfl
    apply leads_key
    simp [handleKey, dismissError, hgraph, graphKey, enterSearch, asking]

/-- The keys that search for a text. -/
def keysToSearch (a : App) (query : String) : List KeyCode :=
  (if a.error.isSome then [.esc] else []) ++
    (a.clearing ++ (query.toList.map .char ++ [.enter]))

theorem leads_keysToSearch {query : String} (hs : a.screen ≠ .starting)
    (hcan : a.canSearch = true) (hq : query ≠ "") :
    Leads a (a.keysToSearch query) [.search query] (a.asking query) := by
  have htype : Leads (a.asking "") (query.toList.map .char) [] (a.asking query) := by
    have htype := a.leads_type [] query.toList
    rwa [List.nil_append, String.ofList_toList] at htype
  refine a.leads_dismiss.append ((leads_clearing hs).append (htype.append (leads_key ?_)))
  simp [handleKey, asking, searchKey, submitQuery, hcan, hq]

/-- A node is held on an open graph only, and the graph is on the screen or behind the search. -/
theorem graph_open (hr : Run ReactStep new h a)
    (hheld : a.callers ≠ [] ∨ a.callees ≠ [] ∨ a.history ≠ []) :
    a.focus.isSome = true ∧ a.screen ≠ .starting := by
  obtain ⟨b, rfl⟩ : ∃ b : Browser, a = b.app := by
    refine hr.invariant (fun a => ∃ b : Browser, a = b.app) ⟨.new, Browser.app_new.symm⟩ ?_
    rintro _ i _ ⟨b, rfl⟩ rfl
    exact ⟨_, (Browser.interface_simulates _ b i rfl).2⟩
  cases hf : b.front with
  | starting => simp [Browser.app, hf, Front.side, Front.trail, Front.opened, Picks.ofList] at hheld
  | search opened =>
    cases opened with
    | none => simp [Browser.app, hf, Front.side, Front.trail, Front.opened, Picks.ofList] at hheld
    | some o => simp [Browser.app, hf, Front.opened, Front.screen]
  | graph o => simp [Browser.app, hf, Front.opened, Front.screen]

/-- Nothing that the interface holds is out of the keyboard's reach, in any state that any sequence
of events and keys leads to. With keys alone every line of the two panes is put into focus, one step
further on the trail; every node of the trail is gone back to; every match on the search screen is
seeded; and every text is searched for, where the server can search. On the way there only the
requests of the steps back are sent, and no key quits or restarts the session. -/
theorem keyboard_reaches (hr : Run ReactStep new h a) :
    (∀ p j node, (a.paneList p)[j]? = some node → Leads a (a.keysTo p j) [.expand node.id]
      ({ a with pane := p }.onTrail (a.history ++ a.focus.toList) node)) ∧
    (∀ pre node post, a.history = pre ++ node :: post →
      Leads a (a.surface ++ .replicate (post.length + 1) (.char 'u'))
        ((node :: post).reverse.map fun n => .expand n.id) (a.onTrail pre node)) ∧
    (a.screen = .search → ∀ (j : ℕ) m, a.matchList[j]? = some m →
      Leads a (a.keysToMatch j) [.seed m] { a with error := none, matchSel := j }) ∧
    (a.screen ≠ .starting → a.canSearch = true → ∀ query, query ≠ "" →
      Leads a (a.keysToSearch query) [.search query] (a.asking query)) := by
  have hsel := selections_of_run hr
  refine ⟨?_, ?_, fun hs j m hm => leads_keysToMatch hsel hs hm,
    fun hs hcan query hq => leads_keysToSearch hs hcan hq⟩
  · intro p j node hn
    have hheld : a.callers ≠ [] ∨ a.callees ≠ [] ∨ a.history ≠ [] := by
      have hne : a.paneList p ≠ [] := List.ne_nil_of_mem (List.mem_of_getElem? hn)
      cases p with
      | callers => exact .inl hne
      | callees => exact .inr (.inl hne)
      | focus => exact absurd rfl hne
    obtain ⟨hf, hs⟩ := graph_open hr hheld
    exact leads_keysTo hsel hf hs hn
  · intro pre node post hh
    have hheld : a.callers ≠ [] ∨ a.callees ≠ [] ∨ a.history ≠ [] := by
      refine .inr (.inr ?_)
      rw [hh]
      exact List.append_ne_nil_of_right_ne_nil _ (List.cons_ne_nil _ _)
    obtain ⟨hf, hs⟩ := graph_open hr hheld
    exact (leads_surface hf hs).append (leads_back_to hh)

/-- The trail of a second caller, with the search opened over it and an error over that. -/
def coveredTrail : List Input :=
  secondCaller ++ [.key ⟨.enter, false⟩, .key ⟨.char '/', false⟩, .event (.warning "timed out")]

/-- From there two keys uncover the graph, and a third one goes back. -/
theorem keyboard_reaches_covered :
    ∃ h a, Run ReactStep new h a ∧ h.map Prod.snd = coveredTrail ∧
      Leads a [.esc, .esc, .char 'u'] [.expand (sampleNode "f").id]
        (a.onTrail [] (sampleNode "f")) := by
  have hr := run_react coveredTrail
  refine ⟨_, _, hr, map_snd_trace _ _ _, ?_⟩
  exact (keyboard_reaches hr).2.1 [] (sampleNode "f") [] rfl

end App

end LspGraph
