import LspGraph.Breadcrumb

/-! Going out and coming back: a step back takes back the re-centring it matches, whatever happens
in between. -/
namespace LspGraph
open Runs

def Move.isRecentred : Option Move → Bool
  | some (.recentred _) => true
  | _ => false

def Move.isBack : Option Move → Bool
  | some .back => true
  | _ => false

def Move.isSeeded : Option Move → Bool
  | some (.seeded _) => true
  | _ => false

namespace App

variable {a b : App} {h h₀ : List (App × Input)}

/-- The re-centrings of a history. -/
def recentrings (h : List (App × Input)) : ℕ :=
  h.countP fun p => Move.isRecentred (p.1.moveOf p.2)

/-- The steps back of a history. -/
def backs (h : List (App × Input)) : ℕ := h.countP fun p => Move.isBack (p.1.moveOf p.2)

/-- No seed, and at no time more steps back than re-centrings. -/
structure Excursion (h : List (App × Input)) : Prop where
  unseeded : ∀ p ∈ h, Move.isSeeded (p.1.moveOf p.2) = false
  matched : ∀ h₁, h₁ <+: h → backs h₁ ≤ recentrings h₁

theorem recentrings_snoc (h : List (App × Input)) (p : App × Input) :
    recentrings (h ++ [p]) =
      recentrings h + if Move.isRecentred (p.1.moveOf p.2) then 1 else 0 := by
  unfold recentrings
  rw [List.countP_append, List.countP_singleton]

theorem backs_snoc (h : List (App × Input)) (p : App × Input) :
    backs (h ++ [p]) = backs h + if Move.isBack (p.1.moveOf p.2) then 1 else 0 := by
  unfold backs
  rw [List.countP_append, List.countP_singleton]

theorem Excursion.init {p : App × Input} (he : Excursion (h ++ [p])) : Excursion h :=
  ⟨fun q hq => he.unseeded q (List.mem_append_left _ hq),
    fun h₁ hp => he.matched h₁ (hp.trans (List.prefix_append _ _))⟩

/-- An event that seeds nothing leaves the trail. -/
theorem trail_event {ev : Event} (hs : Move.isSeeded (a.moveOf (.event ev)) = false) :
    (a.onEvent ev).2.trail = a.trail ∧ a.moveOf (.event ev) = none := by
  have hcase := onEvent_case a ev
  generalize (a.onEvent ev).1 = reqs, (a.onEvent ev).2 = b at hcase ⊢
  cases hcase with
  | focused node => cases hs
  | noted ev error quit _ hseed =>
    refine ⟨rfl, ?_⟩
    cases ev with
    | seeded node =>
      cases node with
      | none => rfl
      | some node => exact absurd rfl (hseed node)
    | _ => rfl
  | _ => exact ⟨rfl, rfl⟩

/-- With a focus wherever there is a history, a step back drops the focus from the trail. -/
theorem Coherent.trail_back (hc : a.Coherent) (hh : a.history ≠ []) :
    a.back.2.trail = a.trail.dropLast := by
  obtain ⟨prev, hl⟩ := Option.ne_none_iff_exists'.mp (mt List.getLast?_eq_none_iff.mp hh)
  obtain ⟨init, hi⟩ := List.getLast?_eq_some_iff.mp hl
  obtain ⟨f, hf⟩ := Option.isSome_iff_exists.mp (hc.history hh)
  have hback : a.back.2.trail = init ++ [prev] := by
    unfold back
    rw [hl]
    change a.history.dropLast ++ [prev] = _
    rw [hi, List.dropLast_concat]
  rw [hback, trail, hf, Option.toList_some, List.dropLast_concat, hi]

/-- How far an excursion has gone beyond where it started. -/
structure Beyond (a b : App) (h : List (App × Input)) (way : List Node) : Prop where
  trail_eq : b.trail = a.trail ++ way
  length_eq : way.length + backs h = recentrings h
  nowhere : a.trail = [] → way = []

theorem beyond_step {way : List Node} {i : Input} (hc : b.Coherent) (hb : Beyond a b h way)
    (he : Excursion (h ++ [(b, i)])) : ∃ way', Beyond a (b.react i).2 (h ++ [(b, i)]) way' := by
  have hunseeded := he.unseeded (b, i) (by simp)
  have hmatched := he.matched _ (List.prefix_refl _)
  rw [recentrings_snoc, backs_snoc] at hmatched
  have hlen := hb.length_eq
  -- without a move everything stays
  have hstay {c : App} (ht : c.trail = b.trail) (hm : b.moveOf i = none) :
      ∃ way', Beyond a c (h ++ [(b, i)]) way' := by
    refine ⟨way, ht.trans hb.trail_eq, ?_, hb.nowhere⟩
    rw [recentrings_snoc, backs_snoc, hm]
    exact hlen
  cases i with
  | event ev =>
    obtain ⟨ht, hm⟩ := trail_event hunseeded
    exact hstay ht hm
  | key k =>
    have hk := handleKey_move b k
    change ∃ way', Beyond a (handleKey b k).2 _ way'
    generalize hm : b.moveOf (.key k) = m, (handleKey b k).2 = c at hk hmatched ⊢
    cases hk with
    | none _ hu =>
      refine hstay ?_ hm
      rw [trail, trail, hu.focus, hu.history]
    | recentred n hs hsel =>
      have htrail : ({ b with history := b.history ++ b.focus.toList }.focusOn n).2.trail =
          a.trail ++ (way ++ [n]) := by
        rw [← List.append_assoc, ← hb.trail_eq]
        rfl
      refine ⟨way ++ [n], htrail, ?_, fun hnil => ?_⟩
      · rw [recentrings_snoc, backs_snoc, hm, List.length_append]
        change way.length + 1 + (backs h + 0) = recentrings h + 1
        omega
      · -- on the graph screen there is a focus, so that the trail is not empty
        obtain ⟨f, hf⟩ := Option.isSome_iff_exists.mp (hc.graph hs)
        have hempty := hb.trail_eq
        rw [hnil, hb.nowhere hnil, trail, hf] at hempty
        simp at hempty
    | back =>
      change backs h + 1 ≤ recentrings h + 0 at hmatched
      have hway : way ≠ [] := by
        rintro rfl
        rw [List.length_nil] at hlen
        omega
      have hstart : a.trail ≠ [] := fun hnil => hway (hb.nowhere hnil)
      have hhistory : b.history ≠ [] := by
        intro hnil
        have hlong := congrArg List.length hb.trail_eq
        rw [trail, hnil, List.nil_append, List.length_append] at hlong
        have hfocus : b.focus.toList.length ≤ 1 := by
          cases b.focus <;> simp
        have h₁ := List.length_pos_iff.mpr hway
        have h₂ := List.length_pos_iff.mpr hstart
        omega
      refine ⟨way.dropLast, ?_, ?_, fun hnil => absurd hnil hstart⟩
      · rw [hc.trail_back hhistory, hb.trail_eq, List.dropLast_append_of_ne_nil hway]
      · rw [recentrings_snoc, backs_snoc, hm, List.length_dropLast]
        change way.length - 1 + (backs h + 1) = recentrings h + 0
        have h₁ := List.length_pos_iff.mpr hway
        omega

/-- The trail tells the focus and the history apart. -/
theorem Coherent.eq_of_trail (hc : a.Coherent) (hc' : b.Coherent) (h : b.trail = a.trail) :
    b.focus = a.focus ∧ b.history = a.history := by
  have hempty {c : App} (hc : c.Coherent) (hf : c.focus = none) : c.history = [] := by
    by_contra hh
    have hsome := hc.history hh
    rw [hf] at hsome
    cases hsome
  unfold trail at h
  cases ha : a.focus with
  | none =>
    rw [ha, hempty hc ha] at h
    obtain ⟨hh, hf⟩ := List.append_eq_nil_iff.mp h
    exact ⟨Option.toList_eq_nil_iff.mp hf, hh.trans (hempty hc ha).symm⟩
  | some f =>
    rw [ha, Option.toList_some] at h
    cases hb : b.focus with
    | none =>
      rw [hb, hempty hc' hb] at h
      simp at h
    | some g =>
      rw [hb, Option.toList_some] at h
      obtain ⟨hh, hg⟩ := List.append_inj' h rfl
      exact ⟨congrArg some (List.singleton_inj.mp hg), hh⟩

/-- Coming back: in an excursion, whatever events and keys it is made of, the trail it started with
is kept, and lengthened by the re-centrings that were not taken back; when all of them were, the
focus and the history are those of the start. -/
theorem excursion_returns (hr₀ : Run ReactStep new h₀ a) (hr : Run ReactStep a h b)
    (he : Excursion h) :
    (∃ way, b.trail = a.trail ++ way ∧ way.length + backs h = recentrings h) ∧
      (backs h = recentrings h → b.focus = a.focus ∧ b.history = a.history) := by
  have hbeyond : ∃ way, Beyond a b h way := by
    refine hr.induct (fun h b => Excursion h → ∃ way, Beyond a b h way) ?_ ?_ he
    · exact fun _ => ⟨[], (List.append_nil _).symm, rfl, fun _ => rfl⟩
    · rintro h b i c hr ih rfl he
      obtain ⟨way, hb⟩ := ih he.init
      exact beyond_step (coherent_of_run (hr₀.trans hr)) hb he
  obtain ⟨way, hb⟩ := hbeyond
  refine ⟨⟨way, hb.trail_eq, hb.length_eq⟩, fun hall => ?_⟩
  have hlen := hb.length_eq
  have hnil : way = [] := List.length_eq_zero_iff.mp (by omega)
  refine Coherent.eq_of_trail (coherent_of_run hr₀) (coherent_of_run (hr₀.trans hr)) ?_
  rw [hb.trail_eq, hnil, List.append_nil]

/-- To the second caller, whose expansion fails, and back once the error is dismissed. -/
def toSecondCallerAndBack : List Input :=
  [.key ⟨.enter, false⟩, .event (.failed (sampleNode "h").id "timeout"), .key ⟨.esc, false⟩,
    .key ⟨.char 'u', false⟩]

theorem excursion_returns_second_caller :
    ∃ h₀ a h b, Run ReactStep new h₀ a ∧ Run ReactStep a h b ∧ h₀.map Prod.snd = secondCaller ∧
      h.map Prod.snd = toSecondCallerAndBack ∧ recentrings h = 1 ∧ backs h = 1 ∧
      b.focus = a.focus ∧ b.history = a.history := by
  have hr₀ := run_react secondCaller
  have hr := run_of_total (R := ReactStep) (fun a i => (a.react i).2) (fun _ _ => rfl)
    (secondCaller.foldl (fun a i => (a.react i).2) new) toSecondCallerAndBack
  refine ⟨_, _, _, _, hr₀, hr, map_snd_trace _ _ _, map_snd_trace _ _ _, by decide, by decide, ?_⟩
  refine (excursion_returns hr₀ hr ⟨by decide, fun h₁ hp => ?_⟩).2 (by decide)
  have hall : ∀ h₁ ∈ (trace (fun a i => (a.react i).2)
      (secondCaller.foldl (fun a i => (a.react i).2) new) toSecondCallerAndBack).inits,
      backs h₁ ≤ recentrings h₁ := by decide
  exact hall h₁ ((List.mem_inits _ _).mpr hp)

end App

end LspGraph
