import Mathlib.Data.List.Basic

/-! States with a record of what was done in reaching them, oldest first: what an operation adds
to the record, and what an act relies on. -/
namespace Recording

variable {σ α β : Type*} {P Q : α → Prop} {p q r : σ × List α}

/-- From one state to another only acts with the property were added to the record. -/
def Adds (P : α → Prop) (p q : σ × List α) : Prop := ∃ acts, q.2 = p.2 ++ acts ∧ ∀ a ∈ acts, P a

theorem Adds.refl (P : α → Prop) (p : σ × List α) : Adds P p p :=
  ⟨[], (List.append_nil _).symm, by simp⟩

theorem Adds.trans (h : Adds P p q) (h' : Adds P q r) : Adds P p r := by
  obtain ⟨acts, hq, hP⟩ := h
  obtain ⟨acts', hr, hP'⟩ := h'
  refine ⟨acts ++ acts', ?_, List.forall_mem_append.mpr ⟨hP, hP'⟩⟩
  rw [hr, hq, List.append_assoc]

theorem Adds.single {a : α} (ha : P a) (hq : q.2 = p.2 ++ [a]) : Adds P p q :=
  ⟨[a], hq, by simpa using ha⟩

theorem Adds.of_eq (h : q.2 = p.2) : Adds P p q := ⟨[], by simpa using h, by simp⟩

section Provision

variable (gives needs : α → Option β)

/-- Whatever an act of the record needs was there before, or is given by an earlier act. -/
def Provided : (β → Prop) → List α → Prop
  | _, [] => True
  | there, a :: acts => (∀ b, needs a = some b → there b) ∧
      Provided (fun b => there b ∨ gives a = some b) acts

variable {gives needs} {there there' : β → Prop} {acts acts' : List α}

theorem Provided.mono (h : Provided gives needs there acts) (ht : ∀ b, there b → there' b) :
    Provided gives needs there' acts := by
  induction acts generalizing there there' with
  | nil => trivial
  | cons a acts ih =>
    exact ⟨fun b hb => ht b (h.1 b hb), ih h.2 fun b hb => hb.imp_left (ht b)⟩

theorem Provided.append (h : Provided gives needs there acts)
    (h' : Provided gives needs (fun b => there b ∨ b ∈ acts.filterMap gives) acts') :
    Provided gives needs there (acts ++ acts') := by
  induction acts generalizing there with
  | nil => exact h'.mono fun b hb => hb.resolve_right List.not_mem_nil
  | cons a acts ih =>
    refine ⟨h.1, ih h.2 (h'.mono fun b hb => ?_)⟩
    rcases hb with hb | hb
    · exact .inl (.inl hb)
    · obtain ⟨a', ha', hg⟩ := List.mem_filterMap.mp hb
      rcases List.mem_cons.mp ha' with rfl | ha'
      · exact .inl (.inr hg)
      · exact .inr (List.mem_filterMap.mpr ⟨a', ha', hg⟩)

theorem Provided.before {before after : List α} {a : α} {b : β}
    (h : Provided gives needs there (before ++ a :: after)) (hb : needs a = some b) :
    there b ∨ b ∈ before.filterMap gives := by
  induction before generalizing there with
  | nil => exact .inl (h.1 b hb)
  | cons a' before ih =>
    rcases ih h.2 with (ht | hg) | hm
    · exact .inl ht
    · exact .inr (List.mem_filterMap.mpr ⟨a', List.mem_cons_self, hg⟩)
    · obtain ⟨a'', ha'', hg⟩ := List.mem_filterMap.mp hm
      exact .inr (List.mem_filterMap.mpr ⟨a'', List.mem_cons_of_mem _ ha'', hg⟩)

end Provision

end Recording
