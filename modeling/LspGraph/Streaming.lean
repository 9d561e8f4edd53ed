import Mathlib.Data.List.Basic

/-! Incremental decoders. What such a decoder has found in the data received so far cannot be
changed by data that arrives later; it follows that the way the data is cut into chunks is
invisible. And the interleavings in which two parties use one stream. -/
namespace Streaming

/-- One look at the buffered data: more is needed, an item with what is left after it, or the
decoder dies. -/
inductive Poll (α β : Type*) where
  | wait
  | item (b : β) (rest : List α)
  | abort

/-- A decoder whose every decision is stable under appending data. -/
structure Incremental (α β : Type*) where
  poll : List α → Poll α β
  shrinks : ∀ {b r rest}, poll b = .item r rest → rest.length < b.length
  item_append : ∀ {b r rest} (x : List α), poll b = .item r rest →
    poll (b ++ x) = .item r (rest ++ x)
  abort_append : ∀ {b} (x : List α), poll b = .abort → poll (b ++ x) = .abort

namespace Incremental

variable {α β : Type*} (D : Incremental α β)

/-- Poll until the decoder waits or dies: the items found and, unless it died, the data left. -/
def drain (b : List α) : List β × Option (List α) :=
  match _h : D.poll b with
  | .wait => ([], some b)
  | .abort => ([], none)
  | .item r rest => (r :: (drain rest).1, (drain rest).2)
termination_by b.length
decreasing_by exact D.shrinks ‹_›

/-- Append each chunk to the data left over and drain after each. -/
def feed (b : List α) : List (List α) → List β × Option (List α)
  | [] => ([], some b)
  | c :: cs =>
    match (D.drain (b ++ c)).2 with
    | none => ((D.drain (b ++ c)).1, none)
    | some b' => ((D.drain (b ++ c)).1 ++ (feed b' cs).1, (feed b' cs).2)

variable {D} {b b' : List α} {r : β} {rest : List α}

theorem drain_wait (h : D.poll b = .wait) : D.drain b = ([], some b) := by
  unfold drain
  split <;> simp_all

theorem drain_abort (h : D.poll b = .abort) : D.drain b = ([], none) := by
  unfold drain
  split <;> simp_all

theorem drain_item (h : D.poll b = .item r rest) :
    D.drain b = (r :: (D.drain rest).1, (D.drain rest).2) := by
  conv_lhs => unfold drain
  split <;> simp_all

/-- A drained decoder waits on what it left. -/
theorem poll_drained (h : (D.drain b).2 = some b') : D.poll b' = .wait := by
  induction hn : b.length using Nat.strongRecOn generalizing b with
  | ind n ih =>
    subst hn
    cases hp : D.poll b with
    | wait =>
      rw [drain_wait hp] at h
      obtain rfl : b = b' := by simpa using h
      exact hp
    | abort =>
      rw [drain_abort hp] at h
      simp at h
    | item r rest =>
      rw [drain_item hp] at h
      exact ih _ (D.shrinks hp) h rfl

/-- Draining more data: the items of the first part, then those of what it left with the rest
appended. -/
theorem drain_append (b x : List α) : D.drain (b ++ x) =
    match (D.drain b).2 with
    | none => D.drain b
    | some b' => ((D.drain b).1 ++ (D.drain (b' ++ x)).1, (D.drain (b' ++ x)).2) := by
  -- by strong induction on the length of the data, which every item shrinks
  induction hn : b.length using Nat.strongRecOn generalizing b with
  | ind n ih =>
    subst hn
    cases hp : D.poll b with
    | wait => simp [drain_wait hp]
    | abort => simp [drain_abort hp, drain_abort (D.abort_append x hp)]
    | item r rest =>
      rw [drain_item hp, drain_item (D.item_append x hp), ih _ (D.shrinks hp) rest rfl]
      cases hd : (D.drain rest).2 with
      | none => simp only [hd]
      | some b' => simp only [List.cons_append]

/-- Where the whole data leaves something to go on from, so does each front of it, and its items
come first. -/
theorem drain_front {x : List α} (h : (D.drain (b ++ x)).2 = some b') :
    ∃ b'' rest, (D.drain b).2 = some b'' ∧ (D.drain (b ++ x)).1 = (D.drain b).1 ++ rest := by
  rw [drain_append] at h ⊢
  cases hd : (D.drain b).2 with
  | none =>
    simp only [hd] at h
    cases h
  | some b'' => exact ⟨b'', _, rfl, rfl⟩

/-- Feeding a decoder chunk by chunk is draining it once over all the data. -/
theorem feed_eq_drain (cs : List (List α)) (hb : D.poll b = .wait) :
    D.feed b cs = D.drain (b ++ cs.flatten) := by
  induction cs generalizing b with
  | nil => simp [feed, drain_wait hb]
  | cons c cs ih =>
    have hc : b ++ (c :: cs).flatten = (b ++ c) ++ cs.flatten := by simp
    rw [hc, drain_append (b ++ c), feed]
    cases hd : (D.drain (b ++ c)).2 with
    | none => exact Prod.ext rfl hd.symm
    | some b' => simp only [ih (poll_drained hd)]

end Incremental

theorem filterMap_snoc {α β : Type*} (f : α → Option β) (l : List α) (a : α) :
    (l ++ [a]).filterMap f = l.filterMap f ++ (f a).toList := by
  rw [List.filterMap_append]
  cases ha : f a <;> simp [ha]

theorem countP_snoc {α : Type*} (p : α → Bool) (l : List α) (a : α) :
    (l ++ [a]).countP p = l.countP p + if p a then 1 else 0 := by
  rw [List.countP_append, List.countP_singleton]

/-- `Interleaving zs xs ys`: the list `zs` is a merge of `xs` and `ys`, each in its order. -/
inductive Interleaving {α : Type*} : List α → List α → List α → Prop where
  | nil : Interleaving [] [] []
  | left {zs xs ys : List α} (x : α) : Interleaving zs xs ys → Interleaving (x :: zs) (x :: xs) ys
  | right {zs xs ys : List α} (y : α) : Interleaving zs xs ys →
      Interleaving (y :: zs) xs (y :: ys)

/-- What two parties write, neither in a step of the other, is a merge of what each writes. -/
theorem interleaving_filterMap {α β : Type*} (f g : α → Option β) (l : List α)
    (hfg : ∀ a ∈ l, f a = none ∨ g a = none) :
    Interleaving (l.filterMap fun a => (f a).or (g a)) (l.filterMap f) (l.filterMap g) := by
  induction l with
  | nil => exact .nil
  | cons a l ih =>
    have hl := ih fun b hb => hfg b (List.mem_cons_of_mem a hb)
    simp only [List.filterMap_cons]
    rcases hfg a List.mem_cons_self with ha | ha
    · rw [ha, Option.none_or]
      cases g a with
      | none => exact hl
      | some y => exact hl.right y
    · rw [ha, Option.or_none]
      cases f a with
      | none => exact hl
      | some x => exact hl.left x

end Streaming
