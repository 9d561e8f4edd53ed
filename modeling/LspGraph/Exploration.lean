import Mathlib.Data.Set.Insert
import Mathlib.Logic.Relation

/-! Exploring a graph from its roots by opening nodes one at a time, in any order: what has been
seen so far, and what is seen when nothing is left to open. -/
namespace Exploration

variable {α : Type*} {next : α → Set α} {roots opened known : Set α} {a b : α}

/-- The roots, and the successors of every opened node that was itself seen. -/
inductive Seen (next : α → Set α) (roots opened : Set α) : α → Prop where
  | root {a : α} : a ∈ roots → Seen next roots opened a
  | step {a b : α} : Seen next roots opened a → a ∈ opened → b ∈ next a →
      Seen next roots opened b

/-- What the graph leads to from its roots. -/
def Region (next : α → Set α) (roots : Set α) : Set α :=
  {b | ∃ a ∈ roots, Relation.ReflTransGen (fun a b => b ∈ next a) a b}

theorem Region.root (ha : a ∈ roots) : a ∈ Region next roots := ⟨a, ha, .refl⟩

theorem Region.step (ha : a ∈ Region next roots) (hb : b ∈ next a) : b ∈ Region next roots := by
  obtain ⟨r, hr, hra⟩ := ha
  exact ⟨r, hr, hra.tail hb⟩

theorem Region.mono {roots' : Set α} (h : roots ⊆ roots') :
    Region next roots ⊆ Region next roots' :=
  fun _ ⟨r, hr, hra⟩ => ⟨r, h hr, hra⟩

theorem Seen.mono {roots' opened' : Set α} (hr : roots ⊆ roots') (ho : opened ⊆ opened')
    (h : Seen next roots opened a) : Seen next roots' opened' a := by
  induction h with
  | root ha => exact .root (hr ha)
  | step _ ha hb ih => exact ih.step (ho ha) hb

theorem Seen.mem_region (h : Seen next roots opened a) : a ∈ Region next roots := by
  induction h with
  | root ha => exact .root ha
  | step _ _ hb ih => exact Region.step ih hb

/-- The state of an exploration: what is known is what has been seen, and only that was opened. -/
structure Searched (next : α → Set α) (roots opened known : Set α) : Prop where
  known_iff : ∀ a, a ∈ known ↔ Seen next roots opened a
  opened_known : opened ⊆ known

theorem searched_empty (next : α → Set α) : Searched next ∅ ∅ ∅ := by
  refine ⟨fun a => iff_of_false (Set.notMem_empty a) ?_, subset_rfl⟩
  intro h
  cases h with
  | root ha => exact ha
  | step _ ha _ => exact ha

/-- New roots are seen, and nothing else with them: what they lead to was not opened from them,
and what was opened had been seen already. -/
theorem Searched.addRoots (h : Searched next roots opened known) (new : Set α) :
    Searched next (roots ∪ new) opened (known ∪ new) := by
  refine ⟨fun a => ⟨?_, ?_⟩, h.opened_known.trans Set.subset_union_left⟩
  · rintro (ha | ha)
    · exact ((h.known_iff a).mp ha).mono Set.subset_union_left subset_rfl
    · exact .root (.inr ha)
  · intro ha
    induction ha with
    | root ha =>
      rcases ha with ha | ha
      · exact .inl ((h.known_iff _).mpr (.root ha))
      · exact .inr ha
    | step _ ho hb _ =>
      exact .inl ((h.known_iff _).mpr (((h.known_iff _).mp (h.opened_known ho)).step ho hb))

/-- Opening a known node makes its successors known. -/
theorem Searched.openNode (h : Searched next roots opened known) (ha : a ∈ known) :
    Searched next roots (insert a opened) (known ∪ next a) := by
  have hmono {b : α} (hb : Seen next roots opened b) : Seen next roots (insert a opened) b :=
    hb.mono subset_rfl (Set.subset_insert a opened)
  refine ⟨fun b => ⟨?_, ?_⟩, ?_⟩
  · rintro (hb | hb)
    · exact hmono ((h.known_iff b).mp hb)
    · exact (hmono ((h.known_iff a).mp ha)).step (Set.mem_insert a opened) hb
  · intro hb
    induction hb with
    | root hb => exact .inl ((h.known_iff _).mpr (.root hb))
    | step _ ho hb _ =>
      rcases ho with rfl | ho
      · exact .inr hb
      · exact .inl ((h.known_iff _).mpr (((h.known_iff _).mp (h.opened_known ho)).step ho hb))
  · exact Set.insert_subset (.inl ha) (h.opened_known.trans Set.subset_union_left)

theorem Searched.known_subset (h : Searched next roots opened known) :
    known ⊆ Region next roots :=
  fun a ha => ((h.known_iff a).mp ha).mem_region

/-- With nothing left to open, the known nodes are the region of the roots. -/
theorem Searched.known_eq (h : Searched next roots opened known) (hf : known ⊆ opened) :
    known = Region next roots := by
  refine h.known_subset.antisymm ?_
  rintro b ⟨r, hr, hrb⟩
  induction hrb with
  | refl => exact (h.known_iff r).mpr (.root hr)
  | tail _ hb ih => exact (h.known_iff _).mpr (((h.known_iff _).mp ih).step (hf ih) hb)

end Exploration
