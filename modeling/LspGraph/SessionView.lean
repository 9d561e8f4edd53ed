import LspGraph.Browser
import LspGraph.SessionEnd
import LspGraph.SessionSearch
import LspGraph.View

/-! What a session shows against what its keys do: Enter acts on the line that is highlighted. -/
namespace LspGraph
open Runs

/-- What the drawn screen lets one expect of Enter: nothing under an error; else the expansion or
the seed of the one highlighted line; where no line is highlighted, a search for what is in the
box or nothing. -/
inductive Expected (a : App) (v : View) : List Request → Prop where
  | covered : v.overlay.isSome = true → Expected a v []
  | node (n : Node) : v.overlay = none → v.screen.marked = [label n] →
      n ∈ a.callers ∨ n ∈ a.callees → Expected a v [.expand n.id]
  | found (m : SymbolMatch) : v.overlay = none → v.screen.marked = [App.matchText m] →
      m ∈ a.matchList → Expected a v [.seed m]
  | search (view : SearchView) : v.overlay = none → v.screen = .search view →
      view.box = "> " ++ a.query → v.screen.marked = [] → Expected a v [.search a.query]
  | nothing : v.overlay = none → v.screen.marked = [] → Expected a v []

theorem Neighbours.side_of_failed {n : Neighbours} (h : n.isFailed = true) (p : Pane) :
    n.side p = .ofList [] := by
  cases n with
  | failed => cases p <;> rfl
  | _ => cases h

namespace App

variable {a : App}

/-- While an expansion is pending, and once it has failed, nothing is listed. -/
def Blank (a : App) : Prop :=
  a.isPending = true ∨ a.expansionFailed = true → a.callers = [] ∧ a.callees = []

theorem marked_side (a : App) (title : String) (nodes : List Node) (active : Bool) (sel : ℕ) :
    ((a.side title nodes active sel).items.filter (·.reversed)).map Item.text =
      if a.isPending = true ∨ a.expansionFailed = true then []
      else if active then (nodes[sel]?.map label).toList else [] := by
  by_cases hp : a.isPending = true
  · rw [if_pos (.inl hp)]
    simp [side, hp]
  by_cases hf : a.expansionFailed = true
  · rw [if_pos (.inr hf)]
    simp [side, hp, hf]
  have hitems : (a.side title nodes active sel).items =
      highlighted (nodes.map label) (if active then some sel else none) := by
    dsimp only [side]
    rw [if_neg hp, if_neg hf]
  rw [hitems, marked_highlighted, if_neg (not_or.mpr ⟨hp, hf⟩)]
  cases active with
  | true =>
    change ((nodes.map label)[sel]?).toList = _
    rw [List.getElem?_map]
    rfl
  | false => rfl

/-- On the graph screen the highlighted line is the label of the selected node. -/
theorem marked_graph {checked : Bool} {v : GraphView} (hb : a.Blank)
    (hd : a.drawGraph checked = some v) :
    (ScreenView.graph v).marked = (a.selected.map label).toList := by
  obtain ⟨body, -, rfl⟩ := Option.map_eq_some_iff.mp hd
  dsimp only [ScreenView.marked]
  rw [List.filter_append, List.map_append, marked_side, marked_side]
  by_cases hpf : a.isPending = true ∨ a.expansionFailed = true
  · obtain ⟨hcallers, hcallees⟩ := hb hpf
    rw [if_pos hpf, if_pos hpf, selected, hcallers, hcallees]
    cases a.pane <;> rfl
  · rw [if_neg hpf, if_neg hpf]
    unfold selected
    cases hpane : a.pane with
    | callers => simp [selectedIndex]
    | callees => simp [selectedIndex]
    | focus => rfl

theorem mem_of_selected {n : Node} (h : a.selected = some n) : n ∈ a.callers ∨ n ∈ a.callees := by
  unfold selected at h
  split at h
  · exact .inl (List.mem_of_getElem? h)
  · exact .inr (List.mem_of_getElem? h)
  · cases h

/-- On the search screen it is the text of the selected match. -/
theorem marked_search (hc : a.canSearch = false → a.matchList = []) :
    (ScreenView.search a.drawSearch).marked =
      ((a.matchList[a.matchSel]?).map matchText).toList := by
  by_cases hl : a.matchList = []
  · have hpane : ∃ title text, a.drawSearch.pane = .message title text := by
      unfold drawSearch
      dsimp only
      split_ifs <;> exact ⟨_, _, rfl⟩
    obtain ⟨title, text, hpane⟩ := hpane
    have hview : a.drawSearch = ⟨a.drawSearch.box, .message title text, a.drawSearch.keys⟩ := by
      rw [← hpane]
    rw [hview, hl]
    rfl
  · have hcan : ¬a.canSearch = false := fun h => hl (hc h)
    have hpane : a.drawSearch.pane =
        .list "matches" (highlighted (a.matchList.map matchText) (some a.matchSel)) := by
      unfold drawSearch
      dsimp only
      rw [if_neg hcan, if_neg fun h => hl h.2, if_neg hl]
    have hview : a.drawSearch = ⟨a.drawSearch.box, .list "matches"
        (highlighted (a.matchList.map matchText) (some a.matchSel)), a.drawSearch.keys⟩ := by
      rw [← hpane]
    rw [hview]
    change ((highlighted _ _).filter (·.reversed)).map Item.text = _
    rw [marked_highlighted, Option.bind_some, List.getElem?_map]

/-- Drawing fails on the last line number, where overflow is checked. -/
theorem draw_eq_none_iff (checked : Bool) (a : App) : a.draw checked = none ↔
    checked = true ∧ a.screen = .graph ∧ ∃ n, a.focus = some n ∧ n.id.line.toNat = 2^32 - 1 := by
  have hline (line : UInt32) : lineNumber checked line = none ↔
      checked = true ∧ line.toNat = 2^32 - 1 := by
    have hlt := line.toNat_lt
    unfold lineNumber
    by_cases hr : line.toNat + 1 < 2^32
    · rw [if_pos hr]
      exact iff_of_false (by simp) fun h => by omega
    · rw [if_neg hr]
      cases checked with
      | true => exact iff_of_true rfl ⟨rfl, by omega⟩
      | false => exact iff_of_false (by simp) fun h => by cases h.1
  unfold draw
  rw [Option.map_eq_none_iff]
  cases hs : a.screen with
  | graph =>
    unfold drawGraph focusBody
    cases hf : a.focus with
    | none => simp
    | some n => simp [shortLocation, hline]
  | _ => simp

end App

theorem Browser.blank_app (b : Browser) : b.app.Blank := by
  have hnone {p : Neighbours → Bool} {id : NodeId} (hp : b.front.focusIf p = some id)
      (hside : ∀ n : Neighbours, p n = true → ∀ pane, n.side pane = .ofList []) :
      b.app.callers = [] ∧ b.app.callees = [] := by
    obtain ⟨o, ho, hn, -⟩ := Front.focusIf_eq_some_iff.mp hp
    have hall (pane : Pane) : b.front.side pane = .ofList [] := by
      rw [Front.side, ho]
      exact hside _ hn pane
    exact ⟨congrArg Picks.items (hall .callers), congrArg Picks.items (hall .callees)⟩
  rintro (h | h)
  · obtain ⟨id, hp⟩ := Option.isSome_iff_exists.mp h
    exact hnone hp fun n hn => n.side_asked hn
  · unfold App.expansionFailed at h
    split at h
    · rename_i id f hp _
      exact hnone hp fun n hn => n.side_of_failed hn
    · cases h

/-- Enter does what is expected of it, where the list of matches is shown or empty. -/
theorem expected_of_draw {a : App} (hb : a.Blank) (hc : a.canSearch = false → a.matchList = [])
    {checked : Bool} {v : View} (hd : a.draw checked = some v) (control : Bool) :
    Expected a v (handleKey a ⟨.enter, control⟩).1 := by
  obtain ⟨screen, hs, rfl⟩ := Option.map_eq_some_iff.mp hd
  unfold handleKey
  rw [if_neg (by simp)]
  by_cases he : a.error.isSome = true
  · rw [if_pos he]
    exact .covered (by simpa using he)
  rw [if_neg he]
  have herror : a.error = none := by simpa using he
  have hov : a.error.map (· ++ "\n\nesc dismiss · r exit to relaunch · q quit") = none := by
    rw [herror, Option.map_none]
  cases hscreen : a.screen with
  | starting =>
    rw [hscreen] at hs
    obtain rfl := Option.some.inj hs
    exact .nothing hov rfl
  | graph =>
    rw [hscreen] at hs
    obtain ⟨g, hg, rfl⟩ := Option.map_eq_some_iff.mp hs
    have hm := App.marked_graph hb hg
    change Expected a _ a.recentre.1.toList
    unfold App.recentre
    cases hsel : a.selected with
    | none =>
      rw [hsel] at hm
      exact .nothing hov hm
    | some n =>
      rw [hsel] at hm
      exact .node n hov hm (App.mem_of_selected hsel)
  | search =>
    rw [hscreen] at hs
    obtain rfl := Option.some.inj hs
    have hm := App.marked_search hc
    change Expected a _ (searchKey a .enter).1
    unfold searchKey
    by_cases hl : a.matchList = []
    · have hnone : (ScreenView.search a.drawSearch).marked = [] := by
        rw [hm, hl]
        rfl
      rw [if_pos (List.isEmpty_iff.mpr hl)]
      unfold App.submitQuery
      split_ifs
      · exact .nothing hov hnone
      · exact .search a.drawSearch hov rfl rfl hnone
    · rw [if_neg (by simpa using hl)]
      unfold App.chosenMatch
      cases hsel : a.matchList[a.matchSel]? with
      | none =>
        rw [hsel] at hm
        exact .nothing hov hm
      | some m =>
        rw [hsel] at hm
        exact .found m hov hm (List.mem_of_getElem? hsel)

namespace Session

variable {σ : Type*} {ops : EngineOps σ} {s t : Session σ} {engine : σ} {h : History σ}

/-- The interface of a session represents a browser. -/
theorem browser_of_run (hr : Run (Steps (step ops)) (start engine) h s) :
    ∃ b : Browser, s.app = b.app := by
  refine hr.invariant (fun s => ∃ b : Browser, s.app = b.app) ⟨.new, rfl⟩ ?_
  rintro s a t ⟨b, hb⟩ hst
  cases loop_case hst with
  | worker _ _ _ happ => exact ⟨b, happ.trans hb⟩
  | event ev c => exact ⟨_, by rw [hb, b.onEvent_app ev]⟩
  | drained =>
    refine ⟨{ b with quit := b.quit || s.worker = .finished }, ?_⟩
    rw [hb]
    rfl
  | key k =>
    refine ⟨(b.handleKey k).2, ?_⟩
    rw [app_checkQuit]
    change (handleKey s.app k).2 = _
    rw [hb, b.handleKey_app k]
  | noKey => exact ⟨b, by rw [app_checkQuit, hb]⟩
  | fail => exact ⟨b, hb⟩

theorem canSearch_of_key {a : App} {k : KeyEvent} {query : String}
    (h : .search query ∈ (handleKey a k).1) : a.canSearch = true := by
  unfold handleKey at h
  split_ifs at h with hc he
  · cases h
  · unfold overlayKey at h
    split at h <;> simp at h
  split at h
  · cases h
  · unfold searchKey at h
    split at h
    · cases h
    · split_ifs at h
      · unfold App.submitQuery at h
        split_ifs at h with hcan
        · cases h
        · exact Bool.eq_true_of_not_eq_false fun hf => hcan (.inl hf)
      · simp [App.chosenMatch] at h
    all_goals cases h
  · unfold graphKey at h
    split at h
    · cases h
    · cases h
    · unfold App.back at h
      split at h <;> simp [App.focusOn] at h
    · unfold App.recentre at h
      split at h <;> simp [App.focusOn] at h
    all_goals cases h

theorem sent_checkQuit {r : Request} (h : r ∈ s.checkQuit.requests.sent) :
    r ∈ s.requests.sent ∨ r = .shutdown := by
  unfold checkQuit at h
  split_ifs at h
  · exact (List.mem_append.mp h).imp_right List.mem_singleton.mp
  · exact .inl h

theorem sent_of_not_input {a : SessionAction} {query : String} (hst : StepCase ops s a t)
    (ha : a.isInput = false) (hm : .search query ∈ t.requests.sent) :
    .search query ∈ s.requests.sent := by
  cases hst with
  | take r c hw hc => exact (Channel.receive_some hc).1 ▸ hm
  | event ev c reqs app hl hc he =>
    refine (List.mem_append.mp hm).resolve_right fun hr => ?_
    cases he with
    | focused => simp at hr
    | _ => cases hr
  | key a reqs app tail loop hi =>
    rw [hi] at ha
    cases ha
  | _ => exact hm

/-- Only a key sends a search, and only to a worker that can search. -/
theorem search_sent {a : SessionAction} {query : String} (hst : s.step ops a = some t)
    (hm : .search query ∈ t.requests.sent) :
    .search query ∈ s.requests.sent ∨ s.app.canSearch = true := by
  cases a with
  | key k =>
    obtain ⟨-, ht⟩ := Option.ite_none_right_eq_some.mp hst
    rw [← Option.some.inj ht] at hm
    rcases sent_checkQuit hm with hm | hm
    · exact (List.mem_append.mp hm).imp_right canSearch_of_key
    · cases hm
  | noKey =>
    obtain ⟨-, ht⟩ := Option.ite_none_right_eq_some.mp hst
    rw [← Option.some.inj ht] at hm
    exact .inl ((sent_checkQuit hm).resolve_right (by simp))
  | fail =>
    obtain ⟨-, ht⟩ := Option.ite_none_left_eq_some.mp hst
    rw [← Option.some.inj ht] at hm
    exact .inl ((List.mem_append.mp hm).resolve_right (by simp))
  | _ => exact .inl (sent_of_not_input (step_case hst) rfl hm)

theorem ready_notMem_served (ops : EngineOps σ) (engine : σ) (r : Request) (b : Bool) :
    .ready b ∉ (serveRequest ops engine r).1 := by
  intro hm
  cases hend : r.ends with
  | false =>
    obtain ⟨ev, engine', he, hans⟩ := serveRequest_answers ops engine r hend
    rw [he] at hm
    obtain rfl := List.mem_singleton.mp hm
    cases r <;> exact hans
  | true =>
    cases r with
    | restart => cases List.mem_singleton.mp hm
    | shutdown => cases hm
    | _ => cases hend

/-- The announcement is received first. -/
theorem received_of_ready (hr : Run (Steps (step ops)) (start engine) h s) {b : Bool}
    {c : Channel Event} (hc : s.events.receive = some (.ready b, c)) : s.events.received = 0 := by
  cases hi : s.events.received with
  | zero => rfl
  | succ i =>
    have hev := (Channel.receive_some hc).2.2
    rw [hi] at hev
    obtain ⟨s₁, r, -, -, -, hm⟩ := served_of_run hr i _ hev
    exact absurd hm (ready_notMem_served ops s₁.engine r b)

/-- Matches are found for a search that was sent. -/
theorem search_of_matched (hr : Run (Steps (step ops)) (start engine) h s)
    {ms : List SymbolMatch} {c : Channel Event}
    (hc : s.events.receive = some (.matched ms, c)) : ∃ query, .search query ∈ s.requests.sent := by
  rcases received_of_run hr hc with ⟨b, hb⟩ | ⟨i, s₁, r, -, -, -, hg, hm⟩
  · cases hb
  have hsent := List.mem_of_getElem? hg
  cases r with
  | search query => exact ⟨query, hsent⟩
  | seed m =>
    have hev := List.mem_singleton.mp hm
    unfold seedEvent at hev
    split at hev <;> cases hev
  | expand id =>
    have hev := List.mem_singleton.mp hm
    unfold expandEvent at hev
    split at hev <;> cases hev
  | restart => cases List.mem_singleton.mp hm
  | shutdown => cases hm

/-- Until the worker has announced that it can search, nothing was searched and nothing found. -/
structure Mute (s : Session σ) : Prop where
  announced : s.app.canSearch = true → 0 < s.events.received
  requests : s.app.canSearch = false → ∀ query, .search query ∉ s.requests.sent
  matchList : s.app.canSearch = false → s.app.matchList = []

theorem mute_of_run (hr : Run (Steps (step ops)) (start engine) h s) : s.Mute := by
  refine hr.induct (fun _ s => s.Mute) ⟨fun hc => (by cases hc), fun _ _ hm => (by cases hm),
    fun _ => rfl⟩ ?_
  intro h s a t hr ih hst
  have hreqs (hsame : s.app.canSearch = false) (query : String) :
      .search query ∉ t.requests.sent := by
    intro hm
    rcases search_sent hst hm with hm | hc
    · exact ih.requests hsame query hm
    · rw [hsame] at hc
      cases hc
  cases step_case hst with
  | event ev c reqs app hl hc he =>
    have hrec := (Channel.receive_some hc).2.1
    -- the announcement comes first, so that it finds nothing announced
    have hcan (hfalse : app.canSearch = false) : s.app.canSearch = false := by
      cases he with
      | ready b =>
        have hzero := received_of_ready hr hc
        refine Bool.eq_false_of_not_eq_true fun htrue => ?_
        have hpos := ih.announced htrue
        omega
      | _ => exact hfalse
    refine ⟨fun _ => ?_, fun hfalse => hreqs (hcan hfalse), fun hfalse => ?_⟩
    · change 0 < c.received
      omega
    · rcases he.matchList with ⟨ms, rfl, -⟩ | ⟨-, hlist, -⟩
      · obtain ⟨query, hm⟩ := search_of_matched hr hc
        exact absurd hm (ih.requests (hcan hfalse) query)
      · exact hlist.trans (ih.matchList (hcan hfalse))
  | key a reqs app tail loop ha hk =>
    have hcan : app.canSearch = s.app.canSearch := by
      cases hk <;> rfl
    refine ⟨fun htrue => ih.announced (hcan ▸ htrue), fun hfalse => hreqs (hcan ▸ hfalse),
      fun hfalse => ?_⟩
    rcases hk.matchList with ⟨-, hlist⟩ | ⟨-, hlist, -⟩
    · exact hlist
    · exact hlist.trans (ih.matchList (hcan ▸ hfalse))
  | _ => exact ⟨ih.announced, hreqs, ih.matchList⟩

end Session

end LspGraph
