import LspGraph.SampleHost
import LspGraph.SessionEngine

/-! The panes: what they show once nothing is pending is what the server answered. -/
namespace LspGraph
open Runs

variable {S : Type*} {host : Host S} {supported : Bool}

namespace Session

variable {s t : Session (CoreEngine S)} {h : History (CoreEngine S)}

/-- The panes wait for the focused node, report its failure, or show what the server answered. -/
structure Shown (host : Host S) (h : History (CoreEngine S)) (a : App) : Prop where
  graph : a.screen = .graph → a.focus.isSome = true
  pending : ∀ id, a.pending = some id → a.focus.map Node.id = some id
  panes : ∀ n, a.focus = some n → a.pending = some n.id ∨ a.failed = some n.id ∨
    ServerAnswered host h n.id ⟨a.callers.map Node.id, a.callees.map Node.id⟩

theorem Shown.mono {a : App} (hs : Shown host h a) (p : Session (CoreEngine S) × SessionAction) :
    Shown host (h ++ [p]) a := by
  refine ⟨hs.graph, hs.pending, fun n hn => (hs.panes n hn).imp_right (.imp_right ?_)⟩
  exact fun ha => ha.snoc p

/-- A newly focused node is pending. -/
theorem shown_focusOn {a : App} {node : Node} : Shown host h (a.focusOn node).2 := by
  refine ⟨fun _ => rfl, fun id hid => hid, ?_⟩
  rintro n ⟨⟩
  exact .inl rfl

theorem shown_event {a a' : App} {ev : Event} {reqs : List Request}
    (he : EventCase a ev reqs a') (hs : Shown host h a)
    (hx : ∀ id exp, ev = .expanded id exp → ServerAnswered host h id exp.ids) :
    Shown host h a' := by
  cases he with
  | ready => exact ⟨fun hg => (by cases hg), hs.pending, hs.panes⟩
  | focused node => exact shown_focusOn
  | expanded id exp hp =>
    refine ⟨hs.graph, fun id hid => (by cases hid), fun n hn => .inr (.inr ?_)⟩
    -- the answer is for the pending node, which is the focused one
    have hid := hs.pending id hp
    rw [show a.focus = some n from hn] at hid
    rw [Option.some.inj hid]
    exact hx id exp rfl
  | failed id why error hp =>
    refine ⟨hs.graph, fun id hid => (by cases hid), fun n hn => .inr (.inl ?_)⟩
    have hid := hs.pending id hp
    rw [show a.focus = some n from hn] at hid
    exact hid.symm
  | _ => exact ⟨hs.graph, hs.pending, hs.panes⟩

theorem shown_key {a a' : App} {reqs : List Request} (hk : KeyCase a reqs a')
    (hs : Shown host h a) : Shown host h a' := by
  cases hk with
  | recentred next => exact shown_focusOn
  | wentBack init prev => exact shown_focusOn
  | searchOpened => exact ⟨fun hg => (by cases hg), hs.pending, hs.panes⟩
  | searchLeft hf => exact ⟨fun _ => hf, hs.pending, hs.panes⟩
  | _ => exact ⟨hs.graph, hs.pending, hs.panes⟩

theorem shown_step {a : SessionAction} (htr : Traced host h s) (hs : Shown host h s.app)
    (hst : StepCase (coreEngine host supported) s a t) : Shown host (h ++ [(s, a)]) t.app := by
  cases hst with
  | event ev c reqs app hl hc he =>
    refine (shown_event he hs ?_).mono _
    rintro id exp rfl
    have hev := List.mem_of_getElem? (Channel.receive_some hc).2.2
    exact htr.answered id _ (htr.expanded id exp hev)
  | key a reqs app tail loop ha hk => exact (shown_key hk hs).mono _
  | drained quit => exact ⟨hs.graph, hs.pending, (hs.mono _).panes⟩
  | _ => exact hs.mono _

/-- An empty pane never lies. On the graph screen, with nothing pending and no failure shown, the
ids in the panes are, in order, those of the server's answers about the focused node: the worker
asked for both lists while serving an expansion of that node, and these came back. -/
theorem panes_show_server_answers {server : S} {canSearch : Bool}
    (hr : Run (Steps (step (coreEngine host supported))) (start ⟨.new server, canSearch⟩) h s)
    (hg : s.app.screen = .graph) (hp : s.app.pending = none)
    (hf : s.app.expansionFailed = false) :
    ∃ n, s.app.focus = some n ∧
      ServerAnswered host h n.id ⟨s.app.callers.map Node.id, s.app.callees.map Node.id⟩ := by
  have hs : Shown host h s.app := by
    refine hr.induct (fun h s => Shown host h s.app) ⟨?_, ?_, ?_⟩ ?_
    · exact fun hg => (by cases hg)
    · exact fun id hid => (by cases hid)
    · exact fun n hn => (by cases hn)
    · exact fun h s a t hr hs hst => shown_step (traced_of_run hr) hs (step_case hst)
  obtain ⟨n, hn⟩ := Option.isSome_iff_exists.mp (hs.graph hg)
  refine ⟨n, hn, ?_⟩
  rcases hs.panes n hn with hpn | hfn | ha
  · rw [hp] at hpn
    cases hpn
  · simp [App.expansionFailed, hfn, hn] at hf
  · exact ha

theorem panes_show_server_answers_recursive :
    ∃ h s, Run (Steps (step (coreEngine scripted true))) (start ⟨.new sessionScript, true⟩) h s ∧
      h.map Prod.snd = searchSeedExpand ∧ s.app.callers.length = 2 ∧
      ∃ n, s.app.focus = some n ∧ ServerAnswered scripted h n.id
        ⟨s.app.callers.map Node.id, s.app.callees.map Node.id⟩ := by
  have hr := run_of_exec (step (coreEngine scripted true)) (start ⟨.new sessionScript, true⟩)
    searchSeedExpand rfl
  exact ⟨_, _, hr, rfl, rfl, panes_show_server_answers hr rfl rfl rfl⟩

end Session

end LspGraph
