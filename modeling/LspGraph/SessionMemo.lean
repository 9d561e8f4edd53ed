import LspGraph.SampleHost
import LspGraph.SessionEngine

/-! What a session shows again: a node has the same neighbours whenever it is in focus. -/
namespace LspGraph
open Runs

variable {S : Type*} {host : Host S} {supported : Bool}

namespace App

/-- The node is in focus, and its neighbours are shown. -/
structure Resolved (a : App) (n : Node) : Prop where
  focus : a.focus = some n
  pending : a.pending = none
  failed : a.expansionFailed = false

/-- The ids of the neighbours shown. -/
def neighbourIds (a : App) : Expansion := ⟨a.callers.map Node.id, a.callees.map Node.id⟩

end App

namespace Session

section Channels

variable {σ : Type*} {ops : EngineOps σ} {s t : Session σ} {engine : σ} {h h' : History σ}

/-- An event stays in the log. -/
theorem sent_step {a : SessionAction} (hst : StepCase ops s a t) :
    s.events.sent <+: t.events.sent := by
  cases hst with
  | announce => exact List.prefix_append _ _
  | serve => exact List.prefix_append _ _
  | event ev c reqs app hl hc => exact (Channel.receive_some hc).1 ▸ List.prefix_refl _
  | _ => exact List.prefix_refl _

theorem sent_run (hr : Run (Steps (step ops)) s h t) : s.events.sent <+: t.events.sent := by
  refine hr.invariant (fun t => s.events.sent <+: t.events.sent) (List.prefix_refl _) ?_
  exact fun _ _ _ ih hst => ih.trans (sent_step (step_case hst))

/-- The neighbours shown are those of an expansion that the worker has sent. -/
structure Drawn (s : Session σ) : Prop where
  pending : ∀ id, s.app.pending = some id → s.app.focus.map Node.id = some id
  panes : ∀ n, s.app.focus = some n → s.app.pending = some n.id ∨ s.app.failed = some n.id ∨
    ∃ exp, .expanded n.id exp ∈ s.events.sent ∧ exp.ids = s.app.neighbourIds

/-- A node that has just come into focus is pending. -/
theorem drawn_focusOn {a : App} {node : Node} (h : t.app = (a.focusOn node).2) : t.Drawn := by
  constructor
  · intro id hid
    rw [h] at hid ⊢
    exact hid
  · intro n hn
    rw [h] at hn ⊢
    obtain rfl := Option.some.inj hn
    exact .inl rfl

theorem Drawn.keep (hd : s.Drawn) (hf : t.app.focus = s.app.focus)
    (hp : t.app.pending = s.app.pending) (hfail : t.app.failed = s.app.failed)
    (hn : t.app.neighbourIds = s.app.neighbourIds) (he : s.events.sent <+: t.events.sent) :
    t.Drawn := by
  constructor
  · rw [hf, hp]
    exact hd.pending
  · intro n hfoc
    rw [hf] at hfoc
    rw [hp, hfail, hn]
    refine (hd.panes n hfoc).imp_right (.imp_right ?_)
    rintro ⟨exp, hm, hids⟩
    exact ⟨exp, he.subset hm, hids⟩

theorem drawn_step {a : SessionAction} (hd : s.Drawn) (hst : StepCase ops s a t) : t.Drawn := by
  have he := sent_step hst
  cases hst with
  | event ev c reqs app hl hc hcase =>
    obtain ⟨hsent, -, hev⟩ := Channel.receive_some hc
    have hmem : ev ∈ c.sent := hsent ▸ List.mem_of_getElem? hev
    cases hcase with
    | focused node => exact drawn_focusOn rfl
    | expanded id exp hp =>
      refine ⟨fun id hid => (by cases hid), fun n hn => .inr (.inr ⟨exp, ?_, rfl⟩)⟩
      -- the pending id is that of the focus
      have hid := hd.pending id hp
      rw [show s.app.focus = some n from hn] at hid
      obtain rfl : n.id = id := Option.some.inj hid
      exact hmem
    | failed id why error hp =>
      refine ⟨fun id hid => (by cases hid), fun n hn => .inr (.inl ?_)⟩
      have hid := hd.pending id hp
      rw [show s.app.focus = some n from hn] at hid
      exact hid.symm
    | _ => exact hd.keep rfl rfl rfl rfl he
  | key a reqs app tail loop ha hk =>
    cases hk with
    | recentred next => exact drawn_focusOn rfl
    | wentBack init prev => exact drawn_focusOn rfl
    | _ => exact hd.keep rfl rfl rfl rfl he
  | _ => exact hd.keep rfl rfl rfl rfl he

theorem drawn_of_run (hr : Run (Steps (step ops)) (start engine) h s) : s.Drawn := by
  refine hr.invariant Drawn ⟨fun id hid => (by cases hid), fun n hn => (by cases hn)⟩ ?_
  exact fun _ _ _ hd hst => drawn_step hd (step_case hst)

theorem Drawn.sent {n : Node} (hd : s.Drawn) (hn : s.app.Resolved n) :
    ∃ exp, .expanded n.id exp ∈ s.events.sent ∧ exp.ids = s.app.neighbourIds := by
  rcases hd.panes n hn.focus with hp | hf | hexp
  · rw [hn.pending] at hp
    cases hp
  · have hfailed := hn.failed
    simp [App.expansionFailed, hf, hn.focus] at hfailed
  · exact hexp

end Channels

variable {s t : Session (CoreEngine S)} {h h' : History (CoreEngine S)}

/-- A node is always shown with the same neighbours: whenever it is in focus again, after whatever
other steps, and its expansion has come, the same ids are listed in the same order. -/
theorem same_neighbours_again {server : S} {canSearch : Bool}
    (hr : Run (Steps (step (coreEngine host supported))) (start ⟨.new server, canSearch⟩) h s)
    (hr' : Run (Steps (step (coreEngine host supported))) s h' t) {n m : Node}
    (hn : s.app.Resolved n) (hm : t.app.Resolved m) (hid : n.id = m.id) :
    t.app.neighbourIds = s.app.neighbourIds := by
  obtain ⟨exp, hsent, hids⟩ := (drawn_of_run hr).sent hn
  obtain ⟨exp', hsent', hids'⟩ := (drawn_of_run (hr.trans hr')).sent hm
  -- by the end the engine remembers both expansions of the id
  have htr := traced_of_run (hr.trans hr')
  have hmemo := htr.expanded n.id exp ((sent_run hr').subset hsent)
  have hmemo' := htr.expanded m.id exp' hsent'
  rw [← hid] at hmemo'
  rw [← hids, ← hids', hmemo.unique hmemo']

/-- `f` is left for its caller `f`, when the server answers nothing any more. -/
theorem same_neighbours_again_recursive :
    ∃ h s h' t,
      Run (Steps (step (coreEngine scripted true))) (start ⟨.new sessionScript, true⟩) h s ∧
      Run (Steps (step (coreEngine scripted true))) s h' t ∧ h'.length = 7 ∧
      s.app.callers.length = 2 ∧ t.app.history.length = 1 ∧
      t.app.neighbourIds = s.app.neighbourIds := by
  have hr := run_of_exec (step (coreEngine scripted true)) (start ⟨.new sessionScript, true⟩)
    searchSeedExpand rfl
  let onwards : List SessionAction := [.drained, .key ⟨.down, false⟩, .drained,
    .key ⟨.enter, false⟩, .take, .serve, .event]
  refine ⟨_, _, _, _, hr, run_of_exec _ _ onwards rfl, rfl, rfl, rfl, ?_⟩
  exact same_neighbours_again hr (run_of_exec _ _ onwards rfl) ⟨rfl, rfl, rfl⟩ ⟨rfl, rfl, rfl⟩ rfl

end Session

end LspGraph
