import LspGraph.MainLoop

/-! Key events of kind Release: the loop handles them like presses. When a sequence of inputs leads
to the same state with its releases erased. -/
namespace LspGraph
open Runs

/-- The selection of a list cannot move down. -/
def AtEnd (sel length : ℕ) : Prop := length = 0 ∨ sel + 1 = length

namespace App

/-- The key has nothing to do on the error overlay. -/
def IdleOnOverlay (a : App) : KeyCode → Prop
  | .esc | .char 'r' => False
  | .char 'q' => a.shouldQuit = true
  | _ => True

/-- The key has nothing to do on the search screen. -/
def IdleOnSearch (a : App) : KeyCode → Prop
  | .esc => a.focus.isSome = false ∧ a.shouldQuit = true
  | .enter =>
    if a.matchList.isEmpty then a.canSearch = false ∨ a.query = ""
    else a.matchList.length ≤ a.matchSel
  | .backspace => a.query = "" ∧ a.matchList = [] ∧ a.matchSel = 0 ∧ a.searched = false
  | .down => AtEnd a.matchSel a.matchList.length
  | .up => a.matchSel = 0
  | .char _ => False
  | _ => True

/-- The key has nothing to do on the graph screen. -/
def IdleOnGraph (a : App) : KeyCode → Prop
  | .char 'q' => a.shouldQuit = true
  | .char '/' => False
  | .char 'u' => a.history = []
  | .enter => a.selected = none
  | .left => a.pane = .callers
  | .right => a.pane = .callees
  | .down =>
    match a.pane with
    | .callers => AtEnd a.callerSel a.callers.length
    | .callees => AtEnd a.calleeSel a.callees.length
    | .focus => True
  | .up =>
    match a.pane with
    | .callers => a.callerSel = 0
    | .callees => a.calleeSel = 0
    | .focus => True
  | _ => True

/-- The key has nothing to do where the interface is. -/
def Idle (a : App) (key : KeyEvent) : Prop :=
  if key.control = true ∧ key.code = .char 'c' then a.shouldQuit = true
  else if a.error.isSome then a.IdleOnOverlay key.code
  else match a.screen with
    | .starting => True
    | .search => a.IdleOnSearch key.code
    | .graph => a.IdleOnGraph key.code

variable (a : App)

theorem quiet_iff {b : App} : (([], b) : List Request × App) = ([], a) ↔ b = a :=
  Prod.mk.injEq .. ▸ and_iff_right rfl

/-- An update of one field does nothing exactly if the field has its value already. -/
theorem update_iff {α : Type*} (field : App → α) (set : α → App) (x : α)
    (hget : ∀ x, field (set x) = x) (hset : set (field a) = a) : set x = a ↔ x = field a := by
  constructor
  · intro h
    rw [← hget x, h]
  · rintro rfl
    exact hset

theorem quit_iff : (([], { a with shouldQuit := true }) : List Request × App) = ([], a) ↔
    a.shouldQuit = true := by
  rw [quiet_iff, update_iff a shouldQuit (fun x => { a with shouldQuit := x }) true
    (fun _ => rfl) rfl, eq_comm]

theorem nextIndex_iff (sel length : ℕ) : nextIndex sel length = sel ↔ AtEnd sel length := by
  unfold nextIndex AtEnd
  split_ifs with h
  · simp [h]
  · omega

theorem pred_iff (sel : ℕ) : sel - 1 = sel ↔ sel = 0 := by omega

theorem overlayKey_iff (code : KeyCode) (he : a.error.isSome = true) :
    overlayKey a code = ([], a) ↔ a.IdleOnOverlay code := by
  have hdismiss : a.dismissError ≠ a := by
    intro h
    have herror : none = a.error := congrArg App.error h
    rw [← herror] at he
    cases he
  unfold overlayKey
  split
  · exact iff_of_false (fun h => hdismiss (Prod.mk.inj h).2) id
  · exact iff_of_false (fun h => hdismiss (Prod.mk.inj h).2) id
  · exact quit_iff a
  · refine iff_of_true rfl ?_
    unfold IdleOnOverlay
    split <;> trivial

theorem pushQueryChar_ne (c : Char) : a.pushQueryChar c ≠ a := by
  intro h
  have hquery : a.query.push c = a.query := congrArg App.query h
  have hlength := congrArg String.length hquery
  rw [String.length_push] at hlength
  omega

theorem popQueryChar_iff : a.popQueryChar = a ↔
    a.query = "" ∧ a.matchList = [] ∧ a.matchSel = 0 ∧ a.searched = false := by
  constructor
  · intro h
    have hquery : String.ofList a.query.toList.dropLast = a.query := congrArg App.query h
    have hlength := congrArg (fun s => s.toList.length) hquery
    simp only [String.toList_ofList, List.length_dropLast] at hlength
    have hempty : a.query.toList = [] := List.eq_nil_of_length_eq_zero (by omega)
    exact ⟨String.toList_eq_nil_iff.mp hempty, (congrArg App.matchList h).symm,
      (congrArg App.matchSel h).symm, (congrArg App.searched h).symm⟩
  · rintro ⟨hquery, hlist, hsel, hsearched⟩
    cases a
    simp only at hquery hlist hsel hsearched
    subst hquery hlist hsel hsearched
    rfl

theorem matchSel_iff (sel : ℕ) : { a with matchSel := sel } = a ↔ sel = a.matchSel :=
  update_iff a matchSel (fun x => { a with matchSel := x }) sel (fun _ => rfl) rfl

theorem searchKey_iff (code : KeyCode) (hs : a.screen = .search) :
    searchKey a code = ([], a) ↔ a.IdleOnSearch code := by
  cases code with
  | esc =>
    change ([], a.leaveSearch) = ([], a) ↔ a.focus.isSome = false ∧ a.shouldQuit = true
    unfold leaveSearch
    split_ifs with hf
    · refine iff_of_false (fun h => ?_) (fun h => by simp [hf] at h)
      have hscreen : Screen.graph = a.screen := congrArg (fun p => p.2.screen) h
      rw [hs] at hscreen
      cases hscreen
    · rw [quit_iff]
      simp [hf]
  | enter =>
    unfold searchKey IdleOnSearch
    split_ifs with hm
    · unfold submitQuery
      split_ifs with hq
      · exact iff_of_true rfl hq
      · exact iff_of_false (fun h => by cases (Prod.mk.inj h).1) hq
    · unfold chosenMatch
      cases hc : a.matchList[a.matchSel]? with
      | none => exact iff_of_true rfl (List.getElem?_eq_none_iff.mp hc)
      | some m =>
        refine iff_of_false (fun h => by cases (Prod.mk.inj h).1) (fun h => ?_)
        rw [List.getElem?_eq_none h] at hc
        cases hc
  | backspace => exact (quiet_iff a).trans (popQueryChar_iff a)
  | down => exact (quiet_iff a).trans ((matchSel_iff a _).trans (nextIndex_iff ..))
  | up => exact (quiet_iff a).trans ((matchSel_iff a _).trans (pred_iff _))
  | char c => exact iff_of_false (fun h => pushQueryChar_ne a c (Prod.mk.inj h).2) id
  | left => exact iff_of_true rfl trivial
  | right => exact iff_of_true rfl trivial
  | other => exact iff_of_true rfl trivial

theorem movePane_iff (right : Bool) : a.movePane right = a ↔
    a.pane = if right then .callees else .callers := by
  have hpane := update_iff a pane (fun x => { a with pane := x }) (a.movePane right).pane
    (fun _ => rfl) rfl
  refine Iff.trans hpane ?_
  unfold movePane
  cases a.pane <;> cases right <;> simp

theorem callerSel_iff (sel : ℕ) : { a with callerSel := sel } = a ↔ sel = a.callerSel :=
  update_iff a callerSel (fun x => { a with callerSel := x }) sel (fun _ => rfl) rfl

theorem calleeSel_iff (sel : ℕ) : { a with calleeSel := sel } = a ↔ sel = a.calleeSel :=
  update_iff a calleeSel (fun x => { a with calleeSel := x }) sel (fun _ => rfl) rfl

theorem selectNext_iff : a.selectNext = a ↔ a.IdleOnGraph .down := by
  unfold selectNext
  split
  · next hp =>
    rw [callerSel_iff, nextIndex_iff]
    simp only [IdleOnGraph, hp]
  · next hp =>
    rw [calleeSel_iff, nextIndex_iff]
    simp only [IdleOnGraph, hp]
  · next hp => simp only [IdleOnGraph, hp]

theorem selectPrev_iff : a.selectPrev = a ↔ a.IdleOnGraph .up := by
  unfold selectPrev
  split
  · next hp =>
    rw [callerSel_iff, pred_iff]
    simp only [IdleOnGraph, hp]
  · next hp =>
    rw [calleeSel_iff, pred_iff]
    simp only [IdleOnGraph, hp]
  · next hp => simp only [IdleOnGraph, hp]

theorem enterSearch_ne (hs : a.screen = .graph) : a.enterSearch ≠ a := by
  intro h
  have hscreen : Screen.search = a.screen := congrArg App.screen h
  rw [hs] at hscreen
  cases hscreen

theorem back_iff : (a.back.1.toList, a.back.2) = ([], a) ↔ a.history = [] := by
  unfold back
  cases hl : a.history.getLast? with
  | none => exact iff_of_true rfl (List.getLast?_eq_none_iff.mp hl)
  | some prev =>
    refine iff_of_false (fun h => by cases (Prod.mk.inj h).1) (fun h => ?_)
    rw [h] at hl
    cases hl

theorem recentre_iff : (a.recentre.1.toList, a.recentre.2) = ([], a) ↔ a.selected = none := by
  unfold recentre
  cases a.selected with
  | none => exact iff_of_true rfl rfl
  | some next => exact iff_of_false (fun h => by cases (Prod.mk.inj h).1) (by simp)

theorem graphKey_iff (code : KeyCode) (hs : a.screen = .graph) :
    graphKey a code = ([], a) ↔ a.IdleOnGraph code := by
  unfold graphKey
  split
  · exact quit_iff a
  · exact iff_of_false (fun h => enterSearch_ne a hs (Prod.mk.inj h).2) id
  · exact back_iff a
  · exact recentre_iff a
  · exact (quiet_iff a).trans (movePane_iff a false)
  · exact (quiet_iff a).trans (movePane_iff a true)
  · exact (quiet_iff a).trans (selectNext_iff a)
  · exact (quiet_iff a).trans (selectPrev_iff a)
  · refine iff_of_true rfl ?_
    unfold IdleOnGraph
    split <;> trivial

/-- A key does nothing exactly where it has nothing to do. -/
theorem handleKey_iff (key : KeyEvent) : handleKey a key = ([], a) ↔ a.Idle key := by
  unfold handleKey Idle
  split_ifs with hc he
  · exact quit_iff a
  · exact overlayKey_iff a key.code he
  · cases hs : a.screen with
    | starting => exact iff_of_true rfl trivial
    | search => exact searchKey_iff a key.code hs
    | graph => exact graphKey_iff a key.code hs

deriving instance DecidableEq for App

instance (key : KeyEvent) : Decidable (a.Idle key) := decidable_of_iff _ (handleKey_iff a key)

end App

/-- The input without the release of a key: the terminal has nothing to give there. -/
def LoopInput.erase : LoopInput → LoopInput
  | .key k => if k.kind = .release then .noKey else .key k
  | i => i

namespace MainLoop

variable {m n : MainLoop} {h : List (MainLoop × LoopInput)}

/-- The condition on an input: if it is the release of a key, the key has nothing to do there. -/
def ReleaseIdle (m : MainLoop) : LoopInput → Prop
  | .key k => k.kind = .release → m.app.Idle k.toKeyEvent
  | _ => True

instance (m : MainLoop) : DecidablePred m.ReleaseIdle
  | .key k => inferInstanceAs (Decidable (k.kind = .release → m.app.Idle k.toKeyEvent))
  | .event _ | .drained _ | .noKey | .fail => isTrue trivial

theorem checkQuit_app (m : MainLoop) : m.checkQuit.app = m.app := by
  unfold checkQuit
  split_ifs <;> rfl

/-- A handled key leads where no key leads exactly if it has nothing to do. -/
theorem handled_iff (m : MainLoop) (key : KeyEvent) :
    ({ m with app := (handleKey m.app key).2,
              sent := m.sent ++ (handleKey m.app key).1 } : MainLoop).checkQuit = m.checkQuit ↔
      m.app.Idle key := by
  rw [← App.handleKey_iff]
  constructor
  · intro heq
    have happ : (handleKey m.app key).2 = m.app := by
      have h := congrArg MainLoop.app heq
      rwa [checkQuit_app, checkQuit_app] at h
    have hsent : m.sent ++ (handleKey m.app key).1 = m.sent := by
      rw [happ] at heq
      have h := congrArg MainLoop.sent heq
      unfold checkQuit leave at h
      split_ifs at h with hq
      · exact List.append_cancel_right h
      · exact h
    exact Prod.ext (List.append_right_eq_self.mp hsent) happ
  · intro heq
    rw [heq, List.append_nil]

theorem step_erase {i : LoopInput} (hi : m.ReleaseIdle i) : m.step i.erase = m.step i := by
  cases i with
  | key k =>
    unfold LoopInput.erase
    dsimp only
    split_ifs with hk
    · have hhandled := (handled_iff m k.toKeyEvent).mpr (hi hk)
      dsimp only [step]
      rw [hhandled]
    · rfl
  | _ => rfl

theorem releaseIdle_of_step {i : LoopInput} (hst : m.step i = some n)
    (heq : m.step i.erase = some n) : m.ReleaseIdle i := by
  cases i with
  | key k =>
    intro hk
    unfold LoopInput.erase at heq
    dsimp only at heq
    rw [if_pos hk] at heq
    obtain ⟨-, hst⟩ := Option.ite_none_right_eq_some.mp hst
    obtain ⟨-, heq⟩ := Option.ite_none_right_eq_some.mp heq
    exact (handled_iff m k.toKeyEvent).mp (Option.some.inj (hst.trans heq.symm))
  | _ => trivial

/-- The run on the same inputs with the releases erased leads to the same state. -/
def SameErased (h : List (MainLoop × LoopInput)) (m : MainLoop) : Prop :=
  ∃ h', Run (Steps step) start h' m ∧ h'.map Prod.snd = (h.map Prod.snd).map .erase

/-- A run and the run without its releases keep to the same states, screens, selections and sent
requests, exactly if no release comes where its key has something to do. -/
theorem one_stroke_acts_once_iff (hr : Run (Steps step) start h m) :
    (∀ p ∈ h, p.1.ReleaseIdle p.2) ↔
      ∀ h₁ n, h₁ <+: h → Run (Steps step) start h₁ n → SameErased h₁ n := by
  apply hr.guarded_iff SameErased ReleaseIdle
  · exact ⟨[], .nil, rfl⟩
  · rintro h s i t - ⟨h', hr', ha⟩ hg hst
    refine ⟨h' ++ [(s, i.erase)], hr'.snoc ((step_erase hg).trans hst), ?_⟩
    simp [ha]
  · rintro h s i t - ⟨h', hr', ha⟩ hst ⟨h'', hr'', ha''⟩
    -- the longer erased run is the shorter one and one step more
    have hacts : h''.map Prod.snd = (h.map Prod.snd).map .erase ++ [i.erase] := by
      rw [ha'', List.map_append, List.map_append]
      rfl
    obtain ⟨h₁, u, -, hbefore, hr₁, hlast⟩ := hr''.last hacts
    obtain ⟨-, rfl⟩ := hr'.unique hr₁ (ha.trans hbefore.symm)
    exact releaseIdle_of_step hst hlast

def typed (c : Char) (kind : KeyEventKind) : LoopInput := .key ⟨⟨.char c, false⟩, kind⟩

/-- A key is pressed and released in the query box. -/
def oneStroke : List LoopInput :=
  [.event (.ready true), .drained false, typed 'f' .press, .drained false, typed 'f' .release]

/-- One stroke types two characters. -/
theorem release_types_again :
    (∃ h m, Run (Steps step) start h m ∧ h.map Prod.snd = oneStroke ∧ m.app.query = "ff") ∧
    ∃ h m, Run (Steps step) start h m ∧ h.map Prod.snd = oneStroke.map .erase ∧
      m.app.query = "f" := by
  have hr := run_of_exec step start oneStroke rfl
  have hr' := run_of_exec step start (oneStroke.map .erase) rfl
  exact ⟨⟨_, _, hr, rfl, by decide⟩, ⟨_, _, hr', rfl, by decide⟩⟩

/-- A key pressed in the query box, and the release of one that has no binding there. -/
def idleRelease : List LoopInput :=
  [.event (.ready true), .drained false, typed 'f' .press, .drained false,
    .key ⟨⟨.left, false⟩, .release⟩]

theorem one_stroke_acts_once_idle :
    ∃ h m, Run (Steps step) start h m ∧ h.map Prod.snd = idleRelease ∧ SameErased h m := by
  have hr := run_of_exec step start idleRelease rfl
  exact ⟨_, _, hr, rfl, (one_stroke_acts_once_iff hr).mp (by decide) _ _ (List.prefix_refl _) hr⟩

end MainLoop

end LspGraph
