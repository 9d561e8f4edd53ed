import Mathlib.Data.List.Basic

/-! Machines with an output for every input, and simulation between two of them: the outputs of
two machines in related states are the same, and their states stay related. -/
namespace Machines

variable {σ τ α β : Type*} {f : σ → α → β × σ} {g : τ → α → β × τ} {Rel : σ → τ → Prop}

/-- The outputs of a list of inputs, and the state they lead to. -/
def runAll (f : σ → α → β × σ) : σ → List α → List β × σ
  | s, [] => ([], s)
  | s, a :: as => ((f s a).1 :: (runAll f (f s a).2 as).1, (runAll f (f s a).2 as).2)

/-- One input to machines in related states. -/
def Simulates (f : σ → α → β × σ) (g : τ → α → β × τ) (Rel : σ → τ → Prop) : Prop :=
  ∀ s t a, Rel s t → (f s a).1 = (g t a).1 ∧ Rel (f s a).2 (g t a).2

/-- Any number of inputs. -/
theorem Simulates.runAll (h : Simulates f g Rel) {s : σ} {t : τ} (hr : Rel s t) (as : List α) :
    (runAll f s as).1 = (runAll g t as).1 ∧ Rel (runAll f s as).2 (runAll g t as).2 := by
  induction as generalizing s t with
  | nil => exact ⟨rfl, hr⟩
  | cons a as ih =>
    obtain ⟨hout, hnext⟩ := h s t a hr
    obtain ⟨houts, hend⟩ := ih hnext
    refine ⟨?_, hend⟩
    change (f s a).1 :: _ = (g t a).1 :: _
    rw [hout, houts]

/-- A simulation by an abstraction function, which an invariant of the first machine may help. -/
theorem simulates_of_abstraction {Inv : σ → Prop} {abs : σ → τ}
    (hinv : ∀ s a, Inv s → Inv (f s a).2)
    (hstep : ∀ s a, Inv s → (f s a).1 = (g (abs s) a).1 ∧ abs (f s a).2 = (g (abs s) a).2) :
    Simulates f g (fun s t => Inv s ∧ abs s = t) := by
  rintro s t a ⟨hs, rfl⟩
  obtain ⟨hout, habs⟩ := hstep s a hs
  exact ⟨hout, hinv s a hs, habs⟩

/-- What holds of a state and is kept by every input holds after any number of them. -/
theorem runAll_invariant {P : σ → Prop} (hs : ∀ s a, P s → P (f s a).2) {s : σ} (h : P s)
    (as : List α) : P (runAll f s as).2 := by
  induction as generalizing s with
  | nil => exact h
  | cons a as ih => exact ih (hs s a h)

end Machines
