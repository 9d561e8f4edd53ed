import Mathlib.Data.List.Basic

/-! Runs of a labelled transition relation, with the history of every run kept as a list of
the states left and the actions taken in them. -/
namespace Runs

variable {σ α : Type*} {R : σ → α → σ → Prop} {s₀ s t : σ} {h : List (σ × α)}

/-- `Run R s₀ h s`: from `s₀` the steps recorded in `h`, oldest first, lead to `s`. -/
inductive Run (R : σ → α → σ → Prop) (s₀ : σ) : List (σ × α) → σ → Prop where
  | nil : Run R s₀ [] s₀
  | snoc {h : List (σ × α)} {s t : σ} {a : α} :
      Run R s₀ h s → R s a t → Run R s₀ (h ++ [(s, a)]) t

/-- The run without steps, with its relation and its state given. -/
theorem Run.start (R : σ → α → σ → Prop) (s : σ) : Run R s [] s := .nil

/-- An invariant that may speak about the history. The step also gets the run so far, so
that invariants proved earlier can be used in it. -/
theorem Run.induct (P : List (σ × α) → σ → Prop) (h0 : P [] s₀)
    (hs : ∀ h s a t, Run R s₀ h s → P h s → R s a t → P (h ++ [(s, a)]) t)
    (hr : Run R s₀ h s) : P h s := by
  induction hr with
  | nil => exact h0
  | snoc hr hst ih => exact hs _ _ _ _ hr ih hst

/-- The plain invariant rule: true at the start and kept by every step. -/
theorem Run.invariant (P : σ → Prop) (h0 : P s₀)
    (hs : ∀ s a t, P s → R s a t → P t) (hr : Run R s₀ h s) : P s :=
  hr.induct (fun _ s => P s) h0 (fun _ s a t _ => hs s a t)

theorem Run.eq_start (hr : Run R s₀ [] s) : s = s₀ := by
  generalize he : [] = h at hr
  cases hr with
  | nil => rfl
  | snoc => simp at he

/-- A run whose actions end with `a` ends with a step by `a`. -/
theorem Run.last {as : List α} {a : α} (hr : Run R s₀ h t) (ha : h.map Prod.snd = as ++ [a]) :
    ∃ h' s, h = h' ++ [(s, a)] ∧ h'.map Prod.snd = as ∧ Run R s₀ h' s ∧ R s a t := by
  cases hr with
  | nil => simp at ha
  | @snoc h' s t b hr hst =>
    rw [List.map_append] at ha
    obtain ⟨hacts, hact⟩ := List.append_inj' ha rfl
    obtain rfl : b = a := List.singleton_inj.mp hact
    exact ⟨h', s, rfl, hacts, hr, hst⟩

/-- A step of a run is taken at the end of a shorter run. -/
theorem Run.split {h₁ h₂ : List (σ × α)} {a : α} {u : σ}
    (hr : Run R s₀ (h₁ ++ (s, a) :: h₂) u) :
    Run R s₀ h₁ s ∧ ∃ t, R s a t ∧ Run R s₀ (h₁ ++ [(s, a)]) t := by
  generalize he : h₁ ++ (s, a) :: h₂ = h at hr
  -- the recorded step is the last one of the run, or one of the run before
  induction hr generalizing h₂ with
  | nil => simp at he
  | @snoc h' s' t' a' hr hst ih =>
    rcases List.eq_nil_or_concat h₂ with rfl | ⟨h₃, p, rfl⟩
    · obtain ⟨rfl, hp⟩ := List.append_inj' he rfl
      obtain ⟨rfl, rfl⟩ : s = s' ∧ a = a' := by simpa using hp
      exact ⟨hr, t', hst, hr.snoc hst⟩
    · have hc : (h₁ ++ (s, a) :: h₃) ++ [p] = h' ++ [(s', a')] := by simpa using he
      exact ih (List.append_inj' hc rfl).1

/-- A run from where another one leads continues it. -/
theorem Run.trans {h' : List (σ × α)} (hr : Run R s₀ h s) (hr' : Run R s h' t) :
    Run R s₀ (h ++ h') t := by
  induction hr' with
  | nil => rwa [List.append_nil]
  | snoc _ hst ih =>
    rw [← List.append_assoc]
    exact ih.snoc hst

/-- A property kept by every step that meets the guard `G`: it holds wherever a run leads
whose steps all meet the guard. -/
theorem Run.guarded (P : List (σ × α) → σ → Prop) (G : σ → α → Prop) (h0 : P [] s₀)
    (hs : ∀ h s a t, Run R s₀ h s → P h s → G s a → R s a t → P (h ++ [(s, a)]) t)
    (hr : Run R s₀ h s) (hg : ∀ p ∈ h, G p.1 p.2) : P h s := by
  induction hr with
  | nil => exact h0
  | snoc hr hst ih =>
    have hg' := List.forall_mem_append.mp hg
    exact hs _ _ _ _ hr (ih hg'.1) (hg'.2 _ (List.mem_singleton.mpr rfl)) hst

/-- Where a step that keeps the property must also meet the guard, the guard is exact: the
property holds all along a run if and only if every step of the run meets the guard. -/
theorem Run.guarded_iff (P : List (σ × α) → σ → Prop) (G : σ → α → Prop) (h0 : P [] s₀)
    (hs : ∀ h s a t, Run R s₀ h s → P h s → G s a → R s a t → P (h ++ [(s, a)]) t)
    (hn : ∀ h s a t, Run R s₀ h s → P h s → R s a t → P (h ++ [(s, a)]) t → G s a)
    (hr : Run R s₀ h s) :
    (∀ p ∈ h, G p.1 p.2) ↔ ∀ h₁ t, h₁ <+: h → Run R s₀ h₁ t → P h₁ t := by
  constructor
  · intro hg h₁ t hp hr₁
    exact hr₁.guarded P G h0 hs (fun p hm => hg p (hp.subset hm))
  · rintro hP ⟨s', a⟩ hm
    obtain ⟨h₁, h₂, rfl⟩ := List.append_of_mem hm
    obtain ⟨hr₁, t, hst, hr₂⟩ := hr.split
    have hp₁ : h₁ <+: h₁ ++ (s', a) :: h₂ := List.prefix_append _ _
    have hp₂ : h₁ ++ [(s', a)] <+: h₁ ++ (s', a) :: h₂ := ⟨h₂, by simp⟩
    exact hn _ _ _ _ hr₁ (hP _ _ hp₁ hr₁) hst (hP _ _ hp₂ hr₂)

/-- Steps that lower a rank, where no other step raises it, are at most as many as the rank at the
start. -/
theorem Run.countP_le_rank (rank : σ → ℕ) (C : α → Bool) (G : σ → α → Prop)
    (hdec : ∀ s a t, G s a → R s a t → C a = true → rank t + 1 ≤ rank s)
    (hle : ∀ s a t, G s a → R s a t → C a = false → rank t ≤ rank s)
    (hr : Run R s₀ h s) (hg : ∀ p ∈ h, G p.1 p.2) :
    (h.map Prod.snd).countP C + rank s ≤ rank s₀ := by
  refine hr.guarded (fun h s => (h.map Prod.snd).countP C + rank s ≤ rank s₀) G ?_ ?_ hg
  · exact Nat.le_of_eq (Nat.zero_add _)
  · intro h s a t _ ih ha hst
    rw [List.map_append, List.countP_append, List.map_singleton, List.countP_singleton]
    cases hc : C a with
    | true =>
      have hlt := hdec s a t ha hst hc
      rw [if_pos rfl]
      omega
    | false =>
      have hkeep := hle s a t ha hst hc
      rw [if_neg Bool.false_ne_true]
      omega

section Functional

/-- The transition relation of a step function, `none` where the action is not enabled. -/
def Steps (step : σ → α → Option σ) (s : σ) (a : α) (t : σ) : Prop := step s a = some t

/-- Execute a list of actions, recording the history. -/
def exec (step : σ → α → Option σ) : σ → List (σ × α) → List α → Option (List (σ × α) × σ)
  | s, h, [] => some (h, s)
  | s, h, a :: as => (step s a).bind fun t => exec step t (h ++ [(s, a)]) as

theorem Run.of_exec {step : σ → α → Option σ} {as : List α} {h' : List (σ × α)}
    (hr : Run (Steps step) s₀ h s) (he : exec step s h as = some (h', t)) :
    Run (Steps step) s₀ h' t := by
  induction as generalizing h s with
  | nil =>
    obtain ⟨rfl, rfl⟩ : h = h' ∧ s = t := by simpa [exec] using he
    exact hr
  | cons a as ih =>
    obtain ⟨u, hu, he⟩ := Option.bind_eq_some_iff.mp he
    exact ih (hr.snoc hu) he

/-- The actions decide where a run leads. -/
theorem Run.unique {step : σ → α → Option σ} {h' : List (σ × α)} (hr : Run (Steps step) s₀ h s)
    (hr' : Run (Steps step) s₀ h' t) (ha : h.map Prod.snd = h'.map Prod.snd) : h = h' ∧ s = t := by
  induction hr generalizing h' t with
  | nil =>
    obtain rfl := List.map_eq_nil_iff.mp ha.symm
    exact ⟨rfl, hr'.eq_start.symm⟩
  | @snoc h u s a hr hst ih =>
    have ha' : h'.map Prod.snd = h.map Prod.snd ++ [a] := by
      rw [← ha, List.map_append]
      rfl
    obtain ⟨h₁, u', rfl, hacts, hbefore, hlast⟩ := hr'.last ha'
    obtain ⟨rfl, rfl⟩ := ih hbefore hacts.symm
    exact ⟨rfl, Option.some.inj (hst.symm.trans hlast)⟩

/-- The run of a list of actions from the start. -/
theorem run_of_exec (step : σ → α → Option σ) (s : σ) (as : List α) {h : List (σ × α)}
    (he : exec step s [] as = some (h, t)) : Run (Steps step) s h t := Run.nil.of_exec he

end Functional

section Total

/-- The history of a list of actions under a total step function. -/
def trace (f : σ → α → σ) : σ → List α → List (σ × α)
  | _, [] => []
  | s, a :: as => (s, a) :: trace f (f s a) as

theorem map_snd_trace (f : σ → α → σ) (s : σ) (as : List α) :
    (trace f s as).map Prod.snd = as := by
  induction as generalizing s with
  | nil => rfl
  | cons a as ih => rw [trace, List.map_cons, ih]

theorem Run.of_total (f : σ → α → σ) (hf : ∀ s a, R s a (f s a)) (as : List α)
    (hr : Run R s₀ h s) : Run R s₀ (h ++ trace f s as) (as.foldl f s) := by
  induction as generalizing h s with
  | nil => simpa [trace] using hr
  | cons a as ih => simpa [trace] using ih (hr.snoc (hf s a))

/-- The run of a list of actions, each of which is a step. -/
theorem run_of_total (f : σ → α → σ) (hf : ∀ s a, R s a (f s a)) (s : σ) (as : List α) :
    Run R s (trace f s as) (as.foldl f s) := Run.nil.of_total f hf as

end Total

end Runs
