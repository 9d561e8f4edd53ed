import Mathlib.Algebra.Order.Floor.Div
import Mathlib.Order.Monotone.Basic

/-! Evenly spaced positions: `k` of the positions below `n`, taken by floor division. -/
namespace Spacing

/-- The `i`-th of `k` evenly spaced positions below `n`. -/
def pick (n k i : ℕ) : ℕ := i * n / k

/-- At most `k` positions below `n`: all of them, if there are no more than `k`. -/
def picks (n k : ℕ) : List ℕ := if n ≤ k then List.range n else (List.range k).map (pick n k)

variable {n k : ℕ}

theorem pick_zero (n k : ℕ) : pick n k 0 = 0 := by simp [pick]

/-- The position behind the last one. -/
theorem pick_self (n : ℕ) (hk : 0 < k) : pick n k k = n := Nat.mul_div_cancel_left n hk

theorem ceilDiv_pos (hn : 0 < n) (hk : 0 < k) : 0 < n ⌈/⌉ k := by
  by_contra h
  have hle := (ceilDiv_le_iff_le_mul hk).mp (Nat.not_lt.mp h)
  omega

/-- The quotient rounded up: one more, unless the division is exact. -/
theorem ceilDiv_eq_div_add (n : ℕ) (hk : 0 < k) :
    n ⌈/⌉ k = n / k + if n % k = 0 then 0 else 1 := by
  have hdiv := Nat.div_add_mod n k
  have hmod := Nat.mod_lt n hk
  apply Nat.le_antisymm
  · apply (ceilDiv_le_iff_le_mul hk).mpr
    rw [Nat.mul_add]
    split_ifs <;> omega
  · have hle := (ceilDiv_le_iff_le_mul hk).mp (Nat.le_refl (n ⌈/⌉ k))
    have hq : n / k ≤ n ⌈/⌉ k := Nat.div_le_of_le_mul hle
    split_ifs with hr
    · exact hq
    · -- with a remainder the quotient times the divisor falls short
      apply Nat.lt_of_le_of_ne hq
      intro heq
      rw [← heq] at hle
      omega

/-- Consecutive positions differ by the quotient, rounded down or up. -/
theorem pick_succ (n : ℕ) (hk : 0 < k) (i : ℕ) :
    pick n k (i + 1) = pick n k i + n / k ∨ pick n k (i + 1) = pick n k i + n ⌈/⌉ k := by
  unfold pick
  rw [Nat.succ_mul, Nat.add_div hk, ceilDiv_eq_div_add n hk]
  have hmod := Nat.mod_lt (i * n) hk
  split_ifs <;> omega

theorem pick_succ_le (n : ℕ) (hk : 0 < k) (i : ℕ) :
    pick n k (i + 1) ≤ pick n k i + n ⌈/⌉ k := by
  have hle : n / k ≤ n ⌈/⌉ k := by
    rw [ceilDiv_eq_div_add n hk]
    exact Nat.le_add_right _ _
  rcases pick_succ n hk i with h | h <;> omega

theorem pick_strictMono (hk : 0 < k) (hkn : k ≤ n) : StrictMono (pick n k) := by
  apply strictMono_nat_of_lt_succ
  intro i
  have hq : 0 < n / k := Nat.div_pos hkn hk
  have hc : 0 < n ⌈/⌉ k := ceilDiv_pos (Nat.lt_of_lt_of_le hk hkn) hk
  rcases pick_succ n hk i with h | h <;> omega

/-- The last position is no further from the end than the others are apart. -/
theorem pick_last (n : ℕ) (hk : 0 < k) : n - n ⌈/⌉ k ≤ pick n k (k - 1) := by
  have h := pick_succ_le n hk (k - 1)
  rw [Nat.sub_add_cancel hk, pick_self n hk] at h
  omega

/-- No gap is wider than the quotient rounded up. -/
theorem exists_pick_window (hk : 0 < k) {a : ℕ} (ha : a < n) (hw : a + n ⌈/⌉ k ≤ n) :
    ∃ i < k, a ≤ pick n k i ∧ pick n k i < a + n ⌈/⌉ k := by
  have hex : ∃ i, a ≤ pick n k i := ⟨k, by rw [pick_self n hk]; exact ha.le⟩
  -- the first position that is not before the window
  have hfind := Nat.find_spec hex
  have hmin (i : ℕ) (hi : i < Nat.find hex) : pick n k i < a := Nat.not_le.mp (Nat.find_min hex hi)
  generalize Nat.find hex = i at hfind hmin
  have hin : pick n k i < a + n ⌈/⌉ k := by
    cases i with
    | zero =>
      have hc := ceilDiv_pos (Nat.zero_lt_of_lt ha) hk
      rw [pick_zero]
      omega
    | succ i =>
      have hstep := pick_succ_le n hk i
      have hbefore := hmin i (Nat.lt_succ_self i)
      omega
  refine ⟨i, ?_, hfind, hin⟩
  by_contra hik
  have hself := pick_self n hk
  rcases Nat.lt_or_eq_of_le (Nat.not_lt.mp hik) with hlt | rfl
  · have := hmin k hlt
    omega
  · omega

theorem length_picks (n k : ℕ) : (picks n k).length = min n k := by
  unfold picks
  split_ifs <;> simp <;> omega

theorem picks_of_le (h : n ≤ k) : picks n k = List.range n := if_pos h

theorem picks_of_lt (h : k < n) : picks n k = (List.range k).map (pick n k) :=
  if_neg (Nat.not_le.mpr h)

/-- The positions are below `n`. -/
theorem lt_of_mem_picks {i : ℕ} (hi : i ∈ picks n k) : i < n := by
  unfold picks at hi
  split_ifs at hi with h
  · exact List.mem_range.mp hi
  · obtain ⟨j, hj, rfl⟩ := List.mem_map.mp hi
    have hjk := List.mem_range.mp hj
    have hk : 0 < k := Nat.zero_lt_of_lt hjk
    calc pick n k j < pick n k k := pick_strictMono hk (Nat.not_le.mp h).le hjk
      _ = n := pick_self n hk

theorem picks_pairwise (n k : ℕ) : (picks n k).Pairwise (· < ·) := by
  unfold picks
  split_ifs with h
  · exact List.pairwise_lt_range
  · rw [List.pairwise_map]
    rcases Nat.eq_zero_or_pos k with rfl | hk
    · exact .nil
    · exact List.pairwise_lt_range.imp fun hij => pick_strictMono hk (Nat.not_le.mp h).le hij

theorem head_picks (hn : 0 < n) (hk : 0 < k) : (picks n k).head? = some 0 := by
  unfold picks
  split_ifs
  · rw [List.head?_range, if_neg hn.ne']
  · rw [List.head?_map, List.head?_range, if_neg hk.ne', Option.map_some, pick_zero]

theorem getLast_picks (hn : 0 < n) (hk : 0 < k) :
    ∃ i, (picks n k).getLast? = some i ∧ n - n ⌈/⌉ k ≤ i := by
  unfold picks
  split_ifs
  · have hc := ceilDiv_pos hn hk
    exact ⟨n - 1, by rw [List.getLast?_range, if_neg hn.ne'], by omega⟩
  · refine ⟨pick n k (k - 1), ?_, pick_last n hk⟩
    rw [List.getLast?_map, List.getLast?_range, if_neg hk.ne', Option.map_some]

theorem getElem_picks_succ (hkn : k < n) (j : ℕ) (hj : j + 1 < (picks n k).length) :
    (picks n k)[j + 1] = (picks n k)[j] + n / k ∨
      (picks n k)[j + 1] = (picks n k)[j] + n ⌈/⌉ k := by
  have hlen := length_picks n k
  have hk : 0 < k := by omega
  simp only [picks_of_lt hkn, List.getElem_map, List.getElem_range]
  exact pick_succ n hk j

/-- Every window as wide as the quotient rounded up has a pick. -/
theorem exists_mem_picks_window (hk : 0 < k) {a : ℕ} (ha : a < n) (hw : a + n ⌈/⌉ k ≤ n) :
    ∃ i ∈ picks n k, a ≤ i ∧ i < a + n ⌈/⌉ k := by
  unfold picks
  split_ifs
  · have hc := ceilDiv_pos (Nat.zero_lt_of_lt ha) hk
    exact ⟨a, List.mem_range.mpr ha, Nat.le_refl a, by omega⟩
  · obtain ⟨i, hi, hwin⟩ := exists_pick_window hk ha hw
    exact ⟨_, List.mem_map_of_mem (List.mem_range.mpr hi), hwin⟩

end Spacing
