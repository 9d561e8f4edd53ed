import LspGraph.Connection

/-! How a call of `request` comes to its end: how many steps of its own it takes, that the other
threads neither take steps for it nor keep it from its next one, and that its result is final. -/
namespace LspGraph
open Runs

/-- The steps that a call in this phase still takes at most. -/
def Phase.stepsLeft : Phase → Nat
  | .drawn => 4
  | .registered => 3
  | .waiting => 2
  | .timedOut => 1
  | .returned _ => 0

namespace Connection

variable {json : Json} {s t : Connection} {a : Action} {h : List (Connection × Action)} {c : Nat}
  {call : Call} {r : Result Value}

/-- The steps that call `c` still takes at most; a call not yet made has all of them before it. -/
def stepsLeft (s : Connection) (c : Nat) : Nat := (s.calls[c]?).elim 4 (·.phase.stepsLeft)

theorem stepsLeft_of_call (hc : s.calls[c]? = some call) :
    s.stepsLeft c = call.phase.stepsLeft := by
  rw [stepsLeft, hc, Option.elim_some]

theorem stepsLeft_le (s : Connection) (c : Nat) : s.stepsLeft c ≤ 4 := by
  cases hc : s.calls[c]? with
  | none => exact (by rw [stepsLeft, hc, Option.elim_none] : s.stepsLeft c = 4).le
  | some call =>
    rw [stepsLeft_of_call hc]
    cases call.phase <;> simp [Phase.stepsLeft]

/-- What a step of a call makes of the calls: that one alone moves, and towards its end. -/
inductive Advances (s : Connection) (c : Nat) : Connection → Prop where
  | intro {s' : Connection} {call : Call} {phase : Phase} : s'.calls = s.calls →
      s.calls[c]? = some call → phase.stepsLeft < call.phase.stepsLeft →
      Advances s c (s'.setPhase c phase)

theorem Advances.exists_call (ha : s.Advances c t) : ∃ call, t.calls[c]? = some call := by
  obtain @⟨s', call, phase, hs, hc, -⟩ := ha
  refine ⟨{ call with phase := phase }, ?_⟩
  rw [setPhase, hs, List.getElem?_modify_eq, hc]
  rfl

theorem own_step (hst : StepCase json s a t) (ha : a.ofCall = some c) : s.Advances c t := by
  cases hst with
  | register c' call hc hp =>
    obtain rfl := Option.some.inj ha
    exact .intro rfl hc (by simp [hp, Phase.stepsLeft])
  | wrote c' call outcome w hc hp =>
    obtain rfl := Option.some.inj ha
    exact .intro rfl hc (by simp [hp, Phase.stepsLeft])
  | writeFailed c' call outcome w e hc hp =>
    obtain rfl := Option.some.inj ha
    exact .intro rfl hc (by simp [hp, Phase.stepsLeft])
  | received c' call msg hc hp =>
    obtain rfl := Option.some.inj ha
    exact .intro rfl hc (by simp [hp, Phase.stepsLeft])
  | exited c' call hc hp =>
    obtain rfl := Option.some.inj ha
    exact .intro rfl hc (by simp [hp, Phase.stepsLeft])
  | expired c' call hc hp =>
    obtain rfl := Option.some.inj ha
    exact .intro rfl hc (by simp [hp, Phase.stepsLeft])
  | unregistered c' call hc hp =>
    obtain rfl := Option.some.inj ha
    exact .intro rfl hc (by simp [hp, Phase.stepsLeft])
  | quiet a r d w ns hq => exact absurd (hq.symm.trans ha) (by simp)
  | call | resolved | clear => cases ha

theorem calls_setPhase_of_ne {s' : Connection} {phase : Phase} {i : Nat} (hs : s'.calls = s.calls)
    (hi : c ≠ i) : (s'.setPhase c phase).calls[i]? = s.calls[i]? := by
  rw [setPhase, hs, List.getElem?_modify_ne _ _ hi]

/-- A dispatched message changes no phase, and nothing of a call that has returned. -/
theorem deliver_phase {s' : Connection} {msg : Value} {i : Nat} (hs : s'.calls = s.calls)
    (hi : s.calls[i]? = some call) :
    ∃ call', (s'.deliver c msg).calls[i]? = some call' ∧ call'.phase = call.phase ∧
      (∀ r, call.phase = .returned r → call' = call) := by
  by_cases hci : c = i
  · subst hci
    rw [deliver, hs, List.getElem?_modify_eq, hi]
    refine ⟨_, rfl, ?_, ?_⟩
    · dsimp only
      split <;> rfl
    · intro r hr
      simp only [hr]
  · rw [deliver, hs, List.getElem?_modify_ne _ _ hci]
    exact ⟨call, hi, rfl, fun _ _ => rfl⟩

/-- What the other threads leave of a call. -/
theorem other_step (hst : StepCase json s a t) (ha : a.ofCall ≠ some c)
    (hc : s.calls[c]? = some call) :
    ∃ call', t.calls[c]? = some call' ∧ call'.phase = call.phase ∧
      (∀ r, call.phase = .returned r → call' = call) := by
  have hsame {x : Option Call} (hx : x = some call) : ∃ call', x = some call' ∧
      call'.phase = call.phase ∧ (∀ r, call.phase = .returned r → call' = call) :=
    ⟨call, hx, rfl, fun _ _ => rfl⟩
  have hlt : c < s.calls.length := (List.getElem?_eq_some_iff.mp hc).1
  cases hown : a.ofCall with
  | some c' =>
    obtain ⟨hs, -, -⟩ := own_step hst hown
    have hne : c' ≠ c := fun he => ha (he ▸ hown)
    exact hsame ((calls_setPhase_of_ne hs hne).trans hc)
  | none =>
    cases hst with
    | call => exact hsame ((List.getElem?_append_left hlt).trans hc)
    | resolved => exact deliver_phase rfl hc
    | quiet | clear => exact hsame hc
    | _ => cases hown

theorem not_own_step (hc : s.calls[c]? = some call) (hp : call.phase = .returned r)
    (hst : StepCase json s a t) : a.ofCall ≠ some c := by
  intro ha
  obtain ⟨-, hc', hlt⟩ := own_step hst ha
  obtain rfl := Option.some.inj (hc.symm.trans hc')
  rw [hp] at hlt
  exact Nat.not_lt_zero _ hlt

/-- A call that has returned keeps its result, whatever happens afterwards. -/
theorem returned_of_run (hr : Run (Steps (step json)) s h t) (hc : s.calls[c]? = some call)
    (hp : call.phase = .returned r) : t.calls[c]? = some call := by
  refine hr.invariant (fun t => t.calls[c]? = some call) hc ?_
  intro u a v hu hst
  have ha := not_own_step hu hp (step_case hst)
  obtain ⟨call', hc', -, hsame⟩ := other_step (step_case hst) ha hu
  rw [hc', hsame r hp]

theorem stepsLeft_own (hst : StepCase json s a t) (ha : a.ofCall = some c) :
    t.stepsLeft c + 1 ≤ s.stepsLeft c := by
  obtain @⟨s', call, phase, hs, hc, hlt⟩ := own_step hst ha
  have hc' : (s'.setPhase c phase).calls[c]? = some { call with phase := phase } := by
    rw [setPhase, hs, List.getElem?_modify_eq, hc]
    rfl
  rw [stepsLeft_of_call hc, stepsLeft_of_call hc']
  exact hlt

theorem stepsLeft_other (hst : StepCase json s a t) (ha : a.ofCall ≠ some c) :
    t.stepsLeft c ≤ s.stepsLeft c := by
  cases hc : s.calls[c]? with
  | some call =>
    obtain ⟨call', hc', hp, -⟩ := other_step hst ha hc
    rw [stepsLeft_of_call hc, stepsLeft_of_call hc', hp]
  | none =>
    -- a call that is made in this step has all its steps before it
    exact (stepsLeft_le t c).trans_eq (by rw [stepsLeft, hc, Option.elim_none])

/-- While a call waits, one of the two ends of `recv_timeout` is open to it and the other is
not. -/
theorem waiting_step (hc : s.calls[c]? = some call) (hp : call.phase = .waiting) :
    (s.step json (.receive c)).isSome = true ↔ s.step json (.expire c) = none := by
  simp only [step, hc, Option.bind_some, receiveCall, expireCall, hp]
  cases call.mailbox with
  | nil => cases s.senderAlive c call <;> simp
  | cons => simp

/-- A call that has not returned can take a step by itself. -/
theorem exists_own_step (json : Json) (hc : s.calls[c]? = some call)
    (hp : ∀ r, call.phase ≠ .returned r) :
    ∃ a t, a.ofCall = some c ∧ s.step json a = some t := by
  have henabled (a : Action) (ha : a.ofCall = some c) (hs : (s.step json a).isSome = true) :
      ∃ a t, a.ofCall = some c ∧ s.step json a = some t := by
    obtain ⟨t, ht⟩ := Option.isSome_iff_exists.mp hs
    exact ⟨a, t, ha, ht⟩
  cases hphase : call.phase with
  | drawn => exact henabled (.register c) rfl (by simp [step, hc, registerCall, hphase])
  | registered =>
    refine henabled (.write c .done) rfl ?_
    simp only [step, hc, Option.bind_some, writeCall, hphase]
    split <;> rfl
  | waiting =>
    by_cases he : s.step json (.expire c) = none
    · exact henabled (.receive c) rfl ((waiting_step hc hphase).mpr he)
    · exact henabled (.expire c) rfl (Option.isSome_iff_ne_none.mpr he)
  | timedOut => exact henabled (.unregister c) rfl (by simp [step, hc, unregisterCall, hphase])
  | returned r => exact absurd hphase (hp r)

/-- A call can return by its own steps alone, whatever state the others have left. -/
theorem returns_alone (json : Json) (hc : s.calls[c]? = some call) :
    ∃ h t call' r, Run (Steps (step json)) s h t ∧ (∀ p ∈ h, p.2.ofCall = some c) ∧
      h.length ≤ s.stepsLeft c ∧ t.calls[c]? = some call' ∧ call'.phase = .returned r := by
  -- each step of its own leaves fewer of them
  induction hn : s.stepsLeft c using Nat.strong_induction_on generalizing s call with
  | _ n ih =>
    by_cases hp : ∃ r, call.phase = .returned r
    · obtain ⟨r, hr⟩ := hp
      exact ⟨[], s, call, r, .start _ s, by simp, Nat.zero_le _, hc, hr⟩
    · obtain ⟨a, u, ha, hst⟩ := exists_own_step json hc (not_exists.mp hp)
      have hless := stepsLeft_own (step_case hst) ha
      obtain ⟨call₁, hc₁⟩ := (own_step (step_case hst) ha).exists_call
      obtain ⟨h, t, call', r, hr, hown, hlen, hc', hr'⟩ :=
        ih (u.stepsLeft c) (by omega) hc₁ rfl
      refine ⟨(s, a) :: h, t, call', r, ?_, ?_, ?_, hc', hr'⟩
      · exact (Run.nil.snoc hst).trans hr
      · exact List.forall_mem_cons.mpr ⟨ha, hown⟩
      · rw [List.length_cons]
        omega

/-- A call that no one answers. -/
def unanswered : List Action :=
  [.call "shutdown" .null 5000, .register 0, .write 0 .done, .expire 0, .unregister 0]

end Connection

end LspGraph
