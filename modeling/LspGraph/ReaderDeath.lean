import LspGraph.Connection

/-! What a dead reader means for the calls of `request`: the pending map is cleared once, and a
sender registered after that stays in it. -/
namespace LspGraph
open FiniteMaps Runs

namespace Connection

/-- Once the reader thread is done no sender is registered, and a call that waits for its answer
cannot time out: it gets `ServerExited`. -/
def FailsAtOnce (json : Json) (s : Connection) : Prop :=
  s.reader = .cleared → s.pending = ∅ ∧
    ∀ c call, s.calls[c]? = some call → call.phase = .waiting → call.mailbox = [] →
      s.step json (.expire c) = none ∧
      s.step json (.receive c) = some (s.setPhase c (.returned (.error .serverExited)))

/-- The condition on a step: no sender is registered after the clear. -/
def BeforeClear (s : Connection) : Action → Prop
  | .register _ => s.reader ≠ .cleared
  | _ => True

instance (s : Connection) : DecidablePred s.BeforeClear
  | .register _ => inferInstanceAs (Decidable (_ ≠ _))
  | .call _ _ _ | .write _ _ | .receive _ | .expire _ | .unregister _ | .notify _ _ _ | .read _
  | .readEnd | .decode _ | .dropWriter | .clear => isTrue trivial

variable {json : Json} {s t : Connection}

/-- A waiting call whose sender is gone and whose mailbox is empty can only find out. -/
theorem failsAtOnce_iff :
    s.FailsAtOnce json ↔ (s.reader = .cleared → s.pending = ∅) := by
  refine ⟨fun h hr => (h hr).1, fun h hr => ⟨h hr, fun c call hc hp hm => ?_⟩⟩
  have hs : s.senderAlive c call = false := by simp [senderAlive, h hr]
  constructor
  · simp [step, hc, expireCall, hp, hm, hs]
  · simp [step, hc, receiveCall, hp, hm, hs]

theorem erase_empty (k : Int64) : (∅ : FMap Int64 Nat).erase k = ∅ := by
  apply Finmap.ext_lookup
  intro k'
  rw [lookup_erase_ite]
  split_ifs <;> rfl

/-- What one step does: an empty map stays empty after the clear unless the step registers. -/
theorem cleared_step {a : Action} (hst : StepCase json s a t)
    (h : s.reader = .cleared → s.pending = ∅) (hg : s.BeforeClear a) :
    t.reader = .cleared → t.pending = ∅ := by
  intro hr
  cases hst with
  | call => exact h hr
  | register => exact absurd hr hg
  | wrote => exact h hr
  | writeFailed => exact h hr
  | received => exact h hr
  | exited => exact h hr
  | expired => exact h hr
  | unregistered c call =>
    change s.pending.erase call.id = ∅
    rw [h hr]
    exact erase_empty _
  | resolved outcome msg d id =>
    change s.pending.erase id = ∅
    rw [h hr]
    exact erase_empty id
  | quiet a r d w ns ha hq => exact h (hq hr)
  | clear => rfl

/-- A step that registers after the clear breaks the property. -/
theorem beforeClear_of_step {a : Action} (hst : StepCase json s a t)
    (h : t.reader = .cleared → t.pending = ∅) : s.BeforeClear a := by
  cases hst with
  | register c call =>
    -- the new entry is in the map that should be empty
    intro hr
    have hl := Finmap.lookup_insert (a := call.id) (b := c) s.pending
    rw [show s.pending.insert call.id c = ∅ from h hr] at hl
    simp at hl
  | quiet a r d w ns ha => cases a <;> trivial
  | _ => trivial

/-- Exactly when a dead reader fails all calls at once: all along a run, if and only if no call
of it registers its sender after the reader thread has cleared the map. -/
theorem fails_at_once_iff {h : List (Connection × Action)}
    (hr : Run (Steps (step json)) new h s) :
    (∀ p ∈ h, p.1.BeforeClear p.2) ↔
      ∀ h₁ t, h₁ <+: h → Run (Steps (step json)) new h₁ t → t.FailsAtOnce json := by
  simp only [failsAtOnce_iff]
  refine hr.guarded_iff (fun _ t => t.reader = .cleared → t.pending = ∅) BeforeClear ?_ ?_ ?_
  · exact fun _ => rfl
  · exact fun h s a t _ hp hg hst => cleared_step (step_case hst) hp hg
  · exact fun h s a t _ _ hst hp => beforeClear_of_step (step_case hst) hp

/-- A call that comes after the reader's clear, over a pipe that still takes its frame. -/
def lateCall : List Action :=
  [.readEnd, .dropWriter, .clear, .call "shutdown" .null 5000,
    .register 0, .write 0 .done]

/-- The late call holds a sender in the cleared map, and all it can do is time out. -/
theorem late_call_waits_out_its_timeout :
    ∃ h s, Run (Steps (step sampleJson)) new h s ∧ h.map Prod.snd = lateCall ∧
      s.reader = .cleared ∧ s.pending.lookup 1 = some 0 ∧
      s.step sampleJson (.receive 0) = none ∧ (s.step sampleJson (.expire 0)).isSome = true := by
  have hr := run_of_exec (step sampleJson) new lateCall rfl
  exact ⟨_, _, hr, rfl, rfl, by decide, rfl, rfl⟩

/-- A call that is waiting when the reader reaches the end of the file. -/
def callThenDeath : List Action :=
  [.call "shutdown" .null 5000, .register 0, .write 0 .done,
    .readEnd, .dropWriter, .clear]

/-- The waiting call learns at once that the server is gone. -/
theorem fails_at_once_waiting :
    ∃ h s, Run (Steps (step sampleJson)) new h s ∧ h.map Prod.snd = callThenDeath ∧
      s.step sampleJson (.expire 0) = none ∧
      s.step sampleJson (.receive 0) =
        some (s.setPhase 0 (.returned (.error .serverExited))) := by
  have hr := run_of_exec (step sampleJson) new callThenDeath rfl
  refine ⟨_, _, hr, rfl, ?_⟩
  refine ((fails_at_once_iff hr).mp ?_ _ _ (List.prefix_refl _) hr rfl).2 0 _ rfl rfl rfl
  decide

end Connection

end LspGraph
