import LspGraph.Interface
import Mathlib.Data.List.Chain

/-! The breadcrumb against the path that was walked: a seed starts a new path, which the history
does not know of. -/
namespace LspGraph
open Runs

/-- How an input moves the focus. -/
inductive Move where
  | seeded (node : Node)
  | recentred (node : Node)
  | back
  deriving DecidableEq

namespace App

/-- The move that an input makes: a seed, a re-centring on the selected node, or a step back. -/
def moveOf (a : App) : Input → Option Move
  | .event (.seeded (some node)) => some (.seeded node)
  | .event _ => none
  | .key k =>
    if (k.control = true ∧ k.code = .char 'c') ∨ a.error.isSome = true ∨ a.screen ≠ .graph then none
    else match k.code with
      | .enter => a.selected.map .recentred
      | .char 'u' => some .back
      | _ => none

/-- The path after a move. A seed is reached from no node; from the first node there is no way
back. -/
def walkOn (path : List Node) : Option Move → List Node
  | some (.seeded node) => [node]
  | some (.recentred node) => path ++ [node]
  | some .back => if path.length ≤ 1 then path else path.dropLast
  | none => path

/-- The path walked in a history, from the node seeded last to the focus. -/
def walk (h : List (App × Input)) : List Node :=
  h.foldl (fun path p => walkOn path (p.1.moveOf p.2)) []

/-- The node from which the focus was reached. -/
def reachedFrom (h : List (App × Input)) : Option Node := (walk h).dropLast.getLast?

/-- The nodes of the breadcrumb. -/
def trail (a : App) : List Node := a.history ++ a.focus.toList

/-- An expansion that was accepted for the first node lists the second. -/
def Listed (h : List (App × Input)) (earlier later : Node) : Prop :=
  ∃ a exp, (a, .event (.expanded earlier.id exp)) ∈ h ∧ a.pending = some earlier.id ∧
    (later ∈ exp.callers ∨ later ∈ exp.callees)

/-- The breadcrumb is a path actually walked: every node of it was listed by the one before it,
and a step back goes to the node from which the focus was reached. -/
structure Walked (h : List (App × Input)) (a : App) : Prop where
  listed : a.trail.IsChain (Listed h)
  back_request : a.back.1 = (reachedFrom h).map fun n => .expand n.id
  back_focus : a.back.2.focus = (reachedFrom h).or a.focus

/-- The condition on an input: no seed while the history holds a node. -/
def StartsAfresh (a : App) : Input → Prop
  | .event (.seeded (some _)) => a.history = []
  | _ => True

instance (a : App) : DecidablePred a.StartsAfresh
  | .event (.seeded (some _)) => inferInstanceAs (Decidable (_ = _))
  | .event (.seeded none) | .event (.ready _) | .event (.matched _) | .event (.expanded _ _)
  | .event (.failed _ _) | .event (.warning _) | .event (.fatal _) | .key _ => isTrue trivial

variable {a b : App} {h : List (App × Input)}

/-- The breadcrumb shows the names along the trail. -/
theorem breadcrumb_eq (a : App) : a.breadcrumb = a.trail.map fun n => n.id.name := rfl

theorem walk_snoc (h : List (App × Input)) (a : App) (i : Input) :
    walk (h ++ [(a, i)]) = walkOn (walk h) (a.moveOf i) := by
  unfold walk
  rw [List.foldl_append]
  rfl

theorem Listed.mono {x y : Node} (hl : Listed h x y) (p : App × Input) : Listed (h ++ [p]) x y := by
  obtain ⟨a, exp, hm, hp, hy⟩ := hl
  exact ⟨a, exp, List.mem_append_left _ hm, hp, hy⟩

/-- What no move touches. -/
structure Unmoved (a b : App) : Prop where
  focus : b.focus = a.focus
  history : b.history = a.history
  callers : b.callers = a.callers
  callees : b.callees = a.callees

/-- What a key does to the focus and the history, by the move it makes. -/
inductive KeyMove (a : App) : Option Move → App → Prop where
  | none (b : App) : Unmoved a b → KeyMove a none b
  | recentred (n : Node) : a.screen = .graph → a.selected = some n →
      KeyMove a (some (.recentred n))
        ({ a with history := a.history ++ a.focus.toList }.focusOn n).2
  | back : KeyMove a (some .back) a.back.2

theorem Unmoved.rfl (a : App) : Unmoved a a := ⟨Eq.refl _, Eq.refl _, Eq.refl _, Eq.refl _⟩

theorem unmoved_searchKey (a : App) (code : KeyCode) : Unmoved a (searchKey a code).2 := by
  unfold searchKey
  split
  · unfold leaveSearch
    split_ifs <;> exact ⟨rfl, rfl, rfl, rfl⟩
  · split_ifs <;> exact .rfl a
  all_goals exact ⟨rfl, rfl, rfl, rfl⟩

theorem unmoved_graphKey (a : App) {code : KeyCode} (henter : code ≠ .enter)
    (hback : code ≠ .char 'u') : Unmoved a (graphKey a code).2 := by
  unfold graphKey
  split
  · exact ⟨rfl, rfl, rfl, rfl⟩
  · exact ⟨rfl, rfl, rfl, rfl⟩
  · exact absurd rfl hback
  · exact absurd rfl henter
  · exact ⟨rfl, rfl, rfl, rfl⟩
  · exact ⟨rfl, rfl, rfl, rfl⟩
  · unfold selectNext
    split <;> exact ⟨rfl, rfl, rfl, rfl⟩
  · unfold selectPrev
    split <;> exact ⟨rfl, rfl, rfl, rfl⟩
  · exact .rfl a

theorem handleKey_move (a : App) (k : KeyEvent) :
    KeyMove a (a.moveOf (.key k)) (handleKey a k).2 := by
  obtain ⟨code, control⟩ := k
  unfold moveOf handleKey
  by_cases hc : control = true ∧ code = .char 'c'
  · simp only [hc, and_self, true_or, ↓reduceIte]
    exact .none _ ⟨rfl, rfl, rfl, rfl⟩
  by_cases he : a.error.isSome = true
  · simp only [hc, he, true_or, or_true, ↓reduceIte]
    unfold overlayKey
    split <;> exact .none _ ⟨rfl, rfl, rfl, rfl⟩
  cases hs : a.screen with
  | starting =>
    simp only [hc, he, ne_eq, reduceCtorEq, not_false_eq_true, or_true, ↓reduceIte]
    exact .none _ (.rfl a)
  | search =>
    simp only [hc, he, ne_eq, reduceCtorEq, not_false_eq_true, or_true, ↓reduceIte]
    exact .none _ (unmoved_searchKey a code)
  | graph =>
    simp only [hc, he, ne_eq, not_true_eq_false, or_self, Bool.false_eq_true, ↓reduceIte]
    split
    · change KeyMove a (a.selected.map .recentred) a.recentre.2
      unfold recentre
      cases hn : a.selected with
      | none => exact .none _ (.rfl a)
      | some n => exact .recentred n hs hn
    · exact .back
    · rename_i henter hback
      exact .none _ (unmoved_graphKey a henter hback)

/-- What a run that starts afresh with every seed keeps: the breadcrumb is the path walked, each
of its nodes was listed by the one before it, and the lists shown are listed by the focus. -/
structure OnPath (h : List (App × Input)) (a : App) : Prop where
  trail_eq : a.trail = walk h
  listed : a.trail.IsChain (Listed h)
  shown : ∀ f, a.focus = some f → ∀ n ∈ a.callers ++ a.callees, Listed h f n

theorem OnPath.unmoved (hp : OnPath h a) (hu : Unmoved a b) (p : App × Input)
    (hw : walk (h ++ [p]) = walk h) : OnPath (h ++ [p]) b := by
  have ht : b.trail = a.trail := by rw [trail, trail, hu.focus, hu.history]
  refine ⟨?_, ?_, ?_⟩
  · rw [ht, hw]
    exact hp.trail_eq
  · rw [ht]
    exact hp.listed.imp fun _ _ hl => hl.mono p
  · intro f hf n hn
    rw [hu.focus] at hf
    rw [hu.callers, hu.callees] at hn
    exact (hp.shown f hf n hn).mono p

/-- Once a node is focused, nothing is shown until its expansion comes. -/
theorem onPath_focusOn {h : List (App × Input)} (a : App) (node : Node)
    (ht : a.history ++ [node] = walk h) (hl : (a.history ++ [node]).IsChain (Listed h)) :
    OnPath h (a.focusOn node).2 := by
  refine ⟨ht, hl, ?_⟩
  intro f _ n hn
  cases hn

theorem onPath_event (hp : OnPath h a) (hc : a.Coherent) (ev : Event)
    (hg : a.StartsAfresh (.event ev)) : OnPath (h ++ [(a, .event ev)]) (a.onEvent ev).2 := by
  have hw := walk_snoc h a (.event ev)
  have hcase := onEvent_case a ev
  generalize (a.onEvent ev).1 = reqs, (a.onEvent ev).2 = b at hcase ⊢
  cases hcase with
  | ready =>
    refine hp.unmoved ?_ _ hw
    exact ⟨rfl, rfl, rfl, rfl⟩
  | matched =>
    refine hp.unmoved ?_ _ hw
    exact ⟨rfl, rfl, rfl, rfl⟩
  | focused node =>
    have hhist : a.history = [] := hg
    refine onPath_focusOn _ node ?_ ?_
    · rw [hw]
      exact congrArg (· ++ [node]) hhist
    · change (a.history ++ [node]).IsChain _
      rw [hhist]
      exact List.isChain_singleton node
  | expanded id exp hpend =>
    obtain ⟨hf, -⟩ := hc.pending id hpend
    refine ⟨hp.trail_eq.trans hw.symm, hp.listed.imp fun _ _ hl => hl.mono _, ?_⟩
    -- the pending id is that of the focus, so the lists are listed by it
    intro f hfoc n hn
    change a.focus = some f at hfoc
    obtain rfl : f.id = id := by simpa [hfoc] using hf
    exact ⟨a, exp, by simp, hpend, List.mem_append.mp hn⟩
  | failed =>
    refine hp.unmoved ?_ _ hw
    exact ⟨rfl, rfl, rfl, rfl⟩
  | noted ev error quit _ hseed =>
    refine hp.unmoved ?_ _ (hw.trans ?_)
    · exact ⟨rfl, rfl, rfl, rfl⟩
    cases ev with
    | seeded node =>
      cases node with
      | none => rfl
      | some node => exact absurd rfl (hseed node)
    | _ => rfl

theorem onPath_key (hp : OnPath h a) (hc : a.Coherent) (k : KeyEvent) :
    OnPath (h ++ [(a, .key k)]) (handleKey a k).2 := by
  have hw := walk_snoc h a (.key k)
  have hm := handleKey_move a k
  generalize a.moveOf (.key k) = m, (handleKey a k).2 = b at hw hm ⊢
  cases hm with
  | none _ hu => exact hp.unmoved hu _ hw
  | recentred n hs hn =>
    obtain ⟨f, hf⟩ := Option.isSome_iff_exists.mp (hc.graph hs)
    have ht : a.history ++ a.focus.toList = walk h := hp.trail_eq
    refine onPath_focusOn _ n (by rw [hw, ← ht]; rfl) ?_
    change (a.trail ++ [n]).IsChain _
    refine List.isChain_append.mpr ⟨hp.listed.imp fun _ _ hl => hl.mono _, .singleton n, ?_⟩
    -- the last node of the breadcrumb is the focus, which shows the selected node
    intro x hx y hy
    obtain rfl : n = y := by simpa using hy
    obtain rfl : f = x := by simpa [trail, hf] using hx
    refine (hp.shown f hf n ?_).mono _
    rw [selected_eq] at hn
    have hmem := List.mem_of_getElem? hn
    unfold paneList at hmem
    split at hmem
    · exact List.mem_append_left _ hmem
    · exact List.mem_append_right _ hmem
    · cases hmem
  | back =>
    unfold back
    cases hl : a.history.getLast? with
    | none =>
      -- without a history the path has one node at most, and stays as it is
      obtain hnil := List.getLast?_eq_none_iff.mp hl
      refine hp.unmoved (.rfl a) _ (hw.trans ?_)
      rw [walkOn, ← hp.trail_eq, trail, hnil, if_pos]
      cases a.focus <;> simp
    | some prev =>
      obtain ⟨init, hinit⟩ := List.getLast?_eq_some_iff.mp hl
      have hd : a.history.dropLast = init := by rw [hinit, List.dropLast_concat]
      obtain ⟨f, hf⟩ := Option.isSome_iff_exists.mp (hc.history (by simp [hinit]))
      have ht : a.trail = (init ++ [prev]) ++ [f] := by rw [trail, hinit, hf]; rfl
      have hlong : ¬((init ++ [prev]) ++ [f]).length ≤ 1 := by
        simp only [List.length_append, List.length_cons, List.length_nil]
        omega
      refine onPath_focusOn _ prev ?_ ?_
      · rw [hw, walkOn, ← hp.trail_eq, ht, if_neg hlong, List.dropLast_concat]
        exact congrArg (· ++ [prev]) hd
      · change (a.history.dropLast ++ [prev]).IsChain _
        rw [hd]
        have hchain := hp.listed.imp fun _ _ hl => hl.mono (a, .key k)
        rw [ht] at hchain
        exact hchain.left_of_append

/-- On the path, a step back goes where the focus was reached from. -/
theorem OnPath.walked (hp : OnPath h a) (hc : a.Coherent) : Walked h a := by
  have hfrom : reachedFrom h = a.history.getLast? := by
    rw [reachedFrom, ← hp.trail_eq, trail]
    cases hf : a.focus with
    | none =>
      have hnil : a.history = [] := by
        by_contra hne
        simpa [hf] using hc.history hne
      rw [hnil]
      rfl
    | some f => exact congrArg List.getLast? List.dropLast_concat
  refine ⟨hp.listed, ?_, ?_⟩
  · rw [hfrom]
    unfold back
    cases a.history.getLast? <;> rfl
  · rw [hfrom]
    unfold back
    cases a.history.getLast? <;> rfl

theorem onPath_of_run (hr : Run ReactStep new h a)
    (hg : ∀ p ∈ h, p.1.StartsAfresh p.2) : OnPath h a := by
  refine hr.guarded OnPath StartsAfresh ⟨rfl, .nil, fun f hf => by cases hf⟩ ?_ hg
  rintro h a i b hr hp hg rfl
  cases i with
  | event ev => exact onPath_event hp (coherent_of_run hr) ev hg
  | key k => exact onPath_key hp (coherent_of_run hr) k

/-- After a seed there is nowhere to go back to, so that the history must be empty. -/
theorem startsAfresh_of_walked (i : Input) (hw : Walked (h ++ [(a, i)]) (a.react i).2) :
    a.StartsAfresh i := by
  cases i with
  | key k => trivial
  | event ev =>
    cases ev with
    | seeded node =>
      cases node with
      | none => trivial
      | some node =>
        have hfrom : reachedFrom (h ++ [(a, .event (.seeded (some node)))]) = none := by
          rw [reachedFrom, walk_snoc]
          rfl
        have hback := hw.back_request
        rw [hfrom] at hback
        cases hl : a.history.getLast? with
        | none => exact List.getLast?_eq_none_iff.mp hl
        | some prev => simp [back, react, onEvent, focusOn, hl] at hback
    | _ => trivial

/-- Exactly when the breadcrumb is a path actually walked: all along a run, if and only if every
seed of the run arrives while the history is empty. -/
theorem breadcrumb_is_walked_iff (hr : Run ReactStep new h a) :
    (∀ p ∈ h, p.1.StartsAfresh p.2) ↔
      ∀ h₁ t, h₁ <+: h → Run ReactStep new h₁ t → Walked h₁ t := by
  constructor
  · intro hg h₁ t hpre hr₁
    have hp := onPath_of_run hr₁ fun p hm => hg p (hpre.subset hm)
    exact hp.walked (coherent_of_run hr₁)
  · rintro hw ⟨s, i⟩ hm
    obtain ⟨h₁, h₂, rfl⟩ := List.append_of_mem hm
    obtain ⟨-, t, rfl, hr₁⟩ := hr.split
    exact startsAfresh_of_walked i (hw _ _ ⟨h₂, by simp⟩ hr₁)

/-- A seed of `f`, and a re-centring on its caller `g`. -/
def walkToCaller : List Input :=
  [.event (.ready true), .event (.seeded (some (sampleNode "f"))),
    .event (.expanded (sampleNode "f").id ⟨[sampleNode "g"], []⟩), .key ⟨.enter, false⟩]

/-- A search from there, and the seed of an unrelated `x`. -/
def seedWhileWalking : List Input :=
  walkToCaller ++ [.key ⟨.char '/', false⟩, .event (.seeded (some (sampleNode "x")))]

/-- The breadcrumb says that `f` led to `x`, which no expansion listed, and a step back goes to
`f`. -/
theorem seed_joins_the_old_path :
    ∃ h a, Run ReactStep new h a ∧ h.map Prod.snd = seedWhileWalking ∧
      a.trail = [sampleNode "f", sampleNode "x"] ∧ ¬Listed h (sampleNode "f") (sampleNode "x") ∧
      reachedFrom h = none ∧ a.back.2.focus = some (sampleNode "f") := by
  have hr := run_react seedWhileWalking
  refine ⟨_, _, hr, map_snd_trace _ _ _, rfl, ?_, rfl, rfl⟩
  rintro ⟨a, exp, hm, -, hx⟩
  have hm := List.mem_map_of_mem (f := Prod.snd) hm
  rw [map_snd_trace] at hm
  obtain rfl : exp = ⟨[sampleNode "g"], []⟩ := by simpa [seedWhileWalking, walkToCaller] using hm
  revert hx
  decide

/-- A re-centring alone keeps to the path. -/
theorem breadcrumb_is_walked_recentred :
    ∃ h a, Run ReactStep new h a ∧ h.map Prod.snd = walkToCaller ∧
      a.trail = [sampleNode "f", sampleNode "g"] ∧ Walked h a := by
  have hr := run_react walkToCaller
  refine ⟨_, _, hr, map_snd_trace _ _ _, rfl, ?_⟩
  refine (breadcrumb_is_walked_iff hr).mp ?_ _ _ (List.prefix_refl _) hr
  decide

end App

end LspGraph
