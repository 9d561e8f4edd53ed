import Mathlib.Data.List.Basic
import Mathlib.Logic.Relation

/-! Working off a list of items each of which is replaced by its children. No item is remembered,
so that the work ends exactly where the items below the list are well founded. -/
namespace Worklist

variable {α : Type*} (children : α → List α)

/-- The items worked off, in order; `none` where the fuel runs out first. -/
def exhaust : ℕ → List α → Option (List α)
  | _, [] => some []
  | 0, _ :: _ => none
  | fuel + 1, x :: work => (exhaust fuel (children x ++ work)).map (x :: ·)

/-- The second item is the first or comes up while it is worked off. -/
def Below : α → α → Prop := Relation.ReflTransGen fun x y => y ∈ children x

/-- No item comes up below both. -/
def Apart (x y : α) : Prop := ∀ z, Below children x z → ¬Below children y z

/-- With so much fuel the first list is worked off as the second. -/
inductive Exhausts : ℕ → List α → List α → Prop where
  | nil (n : ℕ) : Exhausts n [] []
  | cons {n : ℕ} {x : α} {work l : List α} :
      Exhausts n (children x ++ work) l → Exhausts (n + 1) (x :: work) (x :: l)

variable {children} {m n : ℕ} {work work' l l' : List α} {x : α}

theorem exhaust_iff : exhaust children n work = some l ↔ Exhausts children n work l := by
  constructor
  · intro h
    induction n generalizing work l with
    | zero =>
      cases work with
      | nil =>
        obtain rfl : [] = l := Option.some.inj h
        exact .nil 0
      | cons x work => cases h
    | succ n ih =>
      cases work with
      | nil =>
        obtain rfl : [] = l := Option.some.inj h
        exact .nil (n + 1)
      | cons x work =>
        obtain ⟨l', hl, rfl⟩ := Option.map_eq_some_iff.mp h
        exact .cons (ih hl)
  · intro h
    induction h with
    | nil n => cases n <;> rfl
    | cons _ ih =>
      rw [exhaust, ih]
      rfl

/-- More fuel changes nothing. -/
theorem Exhausts.mono (h : Exhausts children n work l) (hn : n ≤ m) :
    Exhausts children m work l := by
  induction h generalizing m with
  | nil n => exact .nil m
  | cons _ ih =>
    obtain ⟨j, rfl⟩ : ∃ j, m = j + 1 := ⟨m - 1, by omega⟩
    exact .cons (ih (by omega))

/-- Two lists are worked off one after the other. -/
theorem Exhausts.append (h : Exhausts children m work l) (h' : Exhausts children n work' l') :
    Exhausts children (m + n) (work ++ work') (l ++ l') := by
  induction h with
  | nil m => exact h'.mono (by omega)
  | cons _ ih =>
    rw [List.append_assoc] at ih
    rw [Nat.succ_add]
    exact .cons ih

theorem Exhausts.acc (h : Exhausts children n work l) :
    ∀ x ∈ work, Acc (fun y x => y ∈ children x) x := by
  induction h with
  | nil n => simp
  | @cons n x work l _ ih =>
    have hacc := List.forall_mem_append.mp ih
    exact List.forall_mem_cons.mpr ⟨Acc.intro x hacc.1, hacc.2⟩

theorem exhausts_of_each (h : ∀ x ∈ work, ∃ n l, Exhausts children n [x] l) :
    ∃ n l, Exhausts children n work l := by
  induction work with
  | nil => exact ⟨0, [], .nil 0⟩
  | cons x work ih =>
    obtain ⟨⟨m, l, hx⟩, hwork⟩ := List.forall_mem_cons.mp h
    obtain ⟨n, l', hrest⟩ := ih hwork
    exact ⟨m + n, l ++ l', hx.append hrest⟩

theorem exhausts_of_acc (h : Acc (fun y x => y ∈ children x) x) :
    ∃ n l, Exhausts children n [x] l := by
  induction h with
  | intro x _ ih =>
    obtain ⟨n, l, h⟩ := exhausts_of_each ih
    refine ⟨n + 1, x :: l, .cons ?_⟩
    rwa [List.append_nil]

/-- The work ends exactly if nothing goes down for ever from an item of the list. -/
theorem ends_iff : (∃ n l, exhaust children n work = some l) ↔
    ∀ x ∈ work, Acc (fun y x => y ∈ children x) x := by
  simp only [exhaust_iff]
  constructor
  · rintro ⟨n, l, h⟩
    exact h.acc
  · exact fun hacc => exhausts_of_each fun x hx => exhausts_of_acc (hacc x hx)

/-- The items worked off are those of the list and those below them. -/
theorem Exhausts.mem_iff (h : Exhausts children n work l) (y : α) :
    y ∈ l ↔ ∃ x ∈ work, Below children x y := by
  induction h with
  | nil n => simp
  | @cons n x work l _ ih =>
    have hbelow : Below children x y ↔ y = x ∨ ∃ c ∈ children x, Below children c y := by
      unfold Below
      rw [Relation.ReflTransGen.cases_head_iff, eq_comm]
    rw [List.mem_cons, ih, List.exists_mem_cons_iff, hbelow, or_assoc]
    simp only [List.mem_append, or_and_right, exists_or]

/-- Where siblings have nothing below them in common and nothing is below itself, each item is
worked off once. -/
theorem Exhausts.nodup (hsiblings : ∀ x, (children x).Pairwise (Apart children))
    (hdown : ∀ x, ∀ c ∈ children x, ¬Below children c x)
    (h : Exhausts children n work l) (hwork : work.Pairwise (Apart children)) : l.Nodup := by
  induction h with
  | nil n => exact List.nodup_nil
  | @cons n x work l h ih =>
    obtain ⟨hx, hwork⟩ := List.pairwise_cons.mp hwork
    refine List.nodup_cons.mpr ⟨fun hmem => ?_, ih ?_⟩
    · obtain ⟨c, hc, hy⟩ := (h.mem_iff x).mp hmem
      rcases List.mem_append.mp hc with hc | hc
      · exact hdown x c hc hy
      · exact hx c hc x .refl hy
    · -- what is below a child is below the item that is taken off
      refine List.pairwise_append.mpr ⟨hsiblings x, hwork, fun c hc w hw z hz => ?_⟩
      exact hx w hw z (Relation.ReflTransGen.head hc hz)

end Worklist
