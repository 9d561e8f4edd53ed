import LspGraph.Readiness
import LspGraph.Spacing

/-! The sample of files a server is tried on: `even_stride` picks evenly spaced positions. -/
namespace LspGraph
open Spacing

variable {α : Type*}

/-- The sample consists of the items at the picked positions, in their order. -/
theorem evenStride_eq_picks (items : List α) (max : ℕ) :
    (evenStride items max).map some = (picks items.length max).map fun i => items[i]? := by
  have hrange : items.map some = (List.range items.length).map fun i => items[i]? := by
    apply List.ext_getElem
    · simp
    · intro i hi hi'
      have hi : i < items.length := by simpa using hi
      simp [hi]
  have hsome (indices : List ℕ) (hin : ∀ i ∈ indices, i < items.length) :
      (indices.filterMap fun i => items[i]?).map some = indices.map fun i => items[i]? := by
    induction indices with
    | nil => rfl
    | cons i indices ih =>
      obtain ⟨hi, hin⟩ := List.forall_mem_cons.mp hin
      simp only [List.filterMap_cons, List.getElem?_eq_getElem hi, List.map_cons, ih hin]
  unfold evenStride
  split_ifs with h₀ hle
  · rcases h₀ with hnil | rfl
    · rw [List.isEmpty_iff.mp hnil]
      rfl
    · cases items <;> simp [picks]
  · rw [picks_of_le hle, hrange]
  · -- all the picked positions are there, so that `filter_map` drops none
    have hlt := Nat.not_le.mp hle
    have hin := fun i hi => lt_of_mem_picks (n := items.length) (k := max) (i := i) hi
    rw [picks_of_lt hlt] at hin ⊢
    have hcomp : (List.range max).filterMap (fun i => items[i * items.length / max]?) =
        ((List.range max).map (pick items.length max)).filterMap fun i => items[i]? := by
      rw [List.filterMap_map]
      rfl
    rw [hcomp, hsome _ hin]

theorem length_evenStride (items : List α) (max : ℕ) :
    (evenStride items max).length = min items.length max := by
  have h := congrArg List.length (evenStride_eq_picks items max)
  rwa [List.length_map, List.length_map, length_picks] at h

/-- `even_stride` spreads evenly: while its products are in the range of `usize`, it takes as
many items as it may, at increasing positions that start at the first one, are a floor or a
ceiling of the quotient apart and end as close to the last one, so that no stretch of that
length is left out. -/
theorem evenStride_spreads (items : List α) (max : ℕ) (h : (max - 1) * items.length < 2 ^ 64) :
    (∀ i < max, i * items.length < 2 ^ 64) ∧
    (evenStride items max).map some = (picks items.length max).map (fun i => items[i]?) ∧
    (evenStride items max).length = min items.length max ∧
    (∀ i ∈ picks items.length max, i < items.length) ∧
    (picks items.length max).Pairwise (· < ·) ∧
    (0 < items.length → 0 < max →
      (picks items.length max).head? = some 0 ∧
      (max < items.length → ∀ j (hj : j + 1 < (picks items.length max).length),
        (picks items.length max)[j + 1] =
            (picks items.length max)[j] + items.length / max ∨
          (picks items.length max)[j + 1] =
            (picks items.length max)[j] + items.length ⌈/⌉ max) ∧
      ∃ i, (picks items.length max).getLast? = some i ∧
        items.length - items.length ⌈/⌉ max ≤ i) ∧
    (0 < max → ∀ a < items.length, a + items.length ⌈/⌉ max ≤ items.length →
      ∃ i ∈ picks items.length max, a ≤ i ∧ i < a + items.length ⌈/⌉ max) := by
  refine ⟨?_, evenStride_eq_picks items max, ?_, fun i => lt_of_mem_picks, picks_pairwise _ _, ?_,
    ?_⟩
  · -- the largest product is that of the last index
    intro i hi
    calc i * items.length ≤ (max - 1) * items.length :=
          Nat.mul_le_mul_right _ (Nat.le_sub_one_of_lt hi)
      _ < 2 ^ 64 := h
  · exact length_evenStride items max
  · exact fun hn hk => ⟨head_picks hn hk, getElem_picks_succ, getLast_picks hn hk⟩
  · exact fun hk a => exists_mem_picks_window hk

/-- Forty files of seventy-nine, where a whole-number stride would take the first forty. -/
theorem evenStride_spreads_seventy_nine :
    (evenStride (List.range 79) 40).length = 40 ∧
      ∃ i ∈ picks 79 40, 77 ≤ i ∧ i < 79 := by
  have h := evenStride_spreads (List.range 79) 40 (by decide)
  refine ⟨h.2.2.1, ?_⟩
  exact h.2.2.2.2.2.2 (by decide) 77 (by decide) (by decide)

end LspGraph
