import Mathlib.Data.List.Basic

/-! Ordered forests, given by the children of an item, and their pre-order. An item is met by its
place: which of the items, which of its children, and so on. -/
namespace Forest

variable {α : Type*} (children : α → List α)

/-- The item at a place. -/
def itemAt : List α → List ℕ → Option α
  | _, [] => none
  | xs, [i] => xs[i]?
  | xs, i :: j :: p => xs[i]?.bind fun x => itemAt (children x) (j :: p)

/-- All items at their places, in the lexicographic order of the places: an item comes before
those below it, and these come before the next item. -/
structure PreOrder (xs : List α) (l : List (List ℕ × α)) : Prop where
  mem_iff (p : List ℕ) (x : α) : (p, x) ∈ l ↔ itemAt children xs p = some x
  sorted : l.Pairwise fun q r => q.1 < r.1

/-- The place of an item when one more comes before its forest. -/
def next : List ℕ → List ℕ
  | [] => []
  | i :: p => (i + 1) :: p

/-- The place of an item when its forest becomes the children of a first item. -/
abbrev below (p : List ℕ) : List ℕ := 0 :: p

variable {children} {x y : α} {xs : List α} {l l' : List (List ℕ × α)} {p q : List ℕ}

theorem itemAt_ne_nil (h : itemAt children xs p = some x) : p ≠ [] := by
  rintro rfl
  cases h

theorem next_lt_next (h : p < q) : next p < next q := by
  cases q with
  | nil => exact absurd h (List.not_lt_nil p)
  | cons j q =>
    cases p with
    | nil => exact List.nil_lt_cons (j + 1) q
    | cons i p =>
      apply List.cons_lt_cons_iff.mpr
      rcases List.cons_lt_cons_iff.mp h with hij | ⟨hij, hpq⟩
      · exact Or.inl (by omega)
      · exact Or.inr ⟨by omega, hpq⟩

theorem below_lt_next (hq : q ≠ []) : below p < next q := by
  cases q with
  | nil => exact absurd rfl hq
  | cons j q => exact List.cons_lt_cons_iff.mpr (Or.inl (Nat.succ_pos j))

theorem first_lt_below (hq : q ≠ []) : [0] < below q := by
  cases q with
  | nil => exact absurd rfl hq
  | cons j q => exact List.cons_lt_cons_iff.mpr (Or.inr ⟨rfl, List.nil_lt_cons j q⟩)

theorem itemAt_below (hq : q ≠ []) :
    itemAt children (x :: xs) (below q) = itemAt children (children x) q := by
  cases q with
  | nil => exact absurd rfl hq
  | cons j q => rfl

theorem itemAt_next (q : List ℕ) :
    itemAt children (x :: xs) (next q) = itemAt children xs q := by
  match q with
  | [] => rfl
  | [i] => rfl
  | i :: j :: q => rfl

/-- A place is that of the first item, or below it, or in the rest of the forest. -/
theorem itemAt_cons_iff : itemAt children (x :: xs) p = some y ↔
    (p = [0] ∧ y = x) ∨ (∃ q, p = below q ∧ itemAt children (children x) q = some y) ∨
      ∃ q, p = next q ∧ itemAt children xs q = some y := by
  constructor
  · intro h
    match p with
    | [] => cases h
    | [0] => exact Or.inl ⟨rfl, (Option.some.inj h).symm⟩
    | 0 :: j :: q => exact Or.inr (Or.inl ⟨j :: q, rfl, h⟩)
    | (i + 1) :: q => exact Or.inr (Or.inr ⟨i :: q, rfl, (itemAt_next (i :: q)).symm.trans h⟩)
  · rintro (⟨rfl, rfl⟩ | ⟨q, rfl, hq⟩ | ⟨q, rfl, hq⟩)
    · rfl
    · rw [itemAt_below (itemAt_ne_nil hq)]
      exact hq
    · rw [itemAt_next]
      exact hq

theorem mem_map_place {f : List ℕ → List ℕ} :
    (p, y) ∈ l.map (Prod.map f id) ↔ ∃ q, p = f q ∧ (q, y) ∈ l := by
  rw [List.mem_map]
  constructor
  · rintro ⟨⟨q, z⟩, hq, heq⟩
    obtain ⟨rfl, rfl⟩ := Prod.mk.inj heq
    exact ⟨q, rfl, hq⟩
  · rintro ⟨q, rfl, hq⟩
    exact ⟨(q, y), hq, rfl⟩

namespace PreOrder

theorem nil : PreOrder children [] [] where
  mem_iff p x := by
    constructor
    · intro h
      cases h
    · intro h
      match p with
      | [] => cases h
      | [i] => cases h
      | i :: j :: p => cases h
  sorted := List.Pairwise.nil

/-- The first item, then what is below it, then the rest of the forest. -/
theorem cons (hx : PreOrder children (children x) l) (hxs : PreOrder children xs l') :
    PreOrder children (x :: xs)
      (([0], x) :: (l.map (Prod.map below id) ++ l'.map (Prod.map next id))) where
  mem_iff p y := by
    rw [itemAt_cons_iff, List.mem_cons, List.mem_append, Prod.mk.injEq, mem_map_place,
      mem_map_place]
    simp only [hx.mem_iff, hxs.mem_iff]
  sorted := by
    have hne {ys : List α} {m : List (List ℕ × α)} (hm : PreOrder children ys m)
        (r : List ℕ × α) (hr : r ∈ m) : r.1 ≠ [] :=
      itemAt_ne_nil ((hm.mem_iff r.1 r.2).mp hr)
    rw [List.pairwise_cons, List.pairwise_append]
    refine ⟨?_, ?_, ?_, ?_⟩
    · intro r hr
      rcases List.mem_append.mp hr with hr | hr
      · obtain ⟨q, hq, rfl⟩ := List.mem_map.mp hr
        exact first_lt_below (hne hx q hq)
      · obtain ⟨q, hq, rfl⟩ := List.mem_map.mp hr
        exact below_lt_next (hne hxs q hq)
    · apply List.pairwise_map.mpr
      exact hx.sorted.imp fun h => List.cons_lt_cons_iff.mpr (Or.inr ⟨rfl, h⟩)
    · apply List.pairwise_map.mpr
      exact hxs.sorted.imp next_lt_next
    · intro r hr r' hr'
      obtain ⟨q, -, rfl⟩ := List.mem_map.mp hr
      obtain ⟨q', hq', rfl⟩ := List.mem_map.mp hr'
      exact below_lt_next (hne hxs q' hq')

/-- A forest has one pre-order. -/
theorem unique (h : PreOrder children xs l) (h' : PreOrder children xs l') : l = l' := by
  have hnodup {m : List (List ℕ × α)} (hm : PreOrder children xs m) : m.Nodup :=
    hm.sorted.imp fun hlt heq => absurd (heq ▸ hlt) (List.lt_irrefl _)
  have hperm : l.Perm l' := by
    apply (List.perm_ext_iff_of_nodup (hnodup h) (hnodup h')).mpr
    intro r
    exact (h.mem_iff r.1 r.2).trans (h'.mem_iff r.1 r.2).symm
  apply hperm.eq_of_pairwise _ h.sorted h'.sorted
  intro q r _ _ hqr hrq
  exact absurd (List.lt_trans hqr hrq) (List.lt_irrefl q.1)

end PreOrder

end Forest
