import Mathlib.Data.List.Basic

/-! FIFO channels: a channel is the log of everything sent on it and the number of messages
received from it so far. And pipes, which hold as much as their capacity allows. -/

/-- An unbounded FIFO channel. -/
structure Channel (α : Type*) where
  sent : List α
  received : ℕ
  received_le : received ≤ sent.length

/-- A log only grows at its end: what stands at an index stays there. -/
theorem List.getElem?_append_some {α : Type*} {l : List α} {i : ℕ} {x : α} (h : l[i]? = some x)
    (l' : List α) : (l ++ l')[i]? = some x := by
  rw [List.getElem?_append_left (List.getElem?_eq_some_iff.mp h).1]
  exact h

namespace Channel

variable {α : Type*} {c c' : Channel α} {x : α}

def empty : Channel α := ⟨[], 0, Nat.le_refl 0⟩

/-- What is sent and not yet received, oldest first. -/
def queue (c : Channel α) : List α := c.sent.drop c.received

def send (c : Channel α) (xs : List α) : Channel α where
  sent := c.sent ++ xs
  received := c.received
  received_le := by
    have h := c.received_le
    rw [List.length_append]
    omega

/-- Take the oldest message out of the queue. -/
def receive (c : Channel α) : Option (α × Channel α) :=
  if h : c.received < c.sent.length then
    some (c.sent[c.received], ⟨c.sent, c.received + 1, h⟩)
  else none

@[simp] theorem sent_send (c : Channel α) (xs : List α) : (c.send xs).sent = c.sent ++ xs := rfl

@[simp] theorem received_send (c : Channel α) (xs : List α) :
    (c.send xs).received = c.received := rfl

theorem send_nil (c : Channel α) : c.send [] = c := by
  obtain ⟨sent, received, hle⟩ := c
  simp [send]

theorem send_send (c : Channel α) (xs ys : List α) : (c.send xs).send ys = c.send (xs ++ ys) := by
  simp [send]

@[simp] theorem queue_send (c : Channel α) (xs : List α) : (c.send xs).queue = c.queue ++ xs := by
  unfold queue
  rw [sent_send, received_send, List.drop_append_of_le_length c.received_le]

/-- A received message is the one at the mark, and the mark moves behind it. -/
theorem receive_some (h : c.receive = some (x, c')) :
    c'.sent = c.sent ∧ c'.received = c.received + 1 ∧ c.sent[c.received]? = some x := by
  unfold receive at h
  split_ifs at h with hlt
  obtain ⟨rfl, rfl⟩ : c.sent[c.received] = x ∧ _ = c' := by simpa using h
  exact ⟨rfl, rfl, List.getElem?_eq_getElem hlt⟩

theorem queue_receive (h : c.receive = some (x, c')) : c.queue = x :: c'.queue := by
  obtain ⟨hs, hr, hx⟩ := receive_some h
  obtain ⟨hlt, hx⟩ := List.getElem?_eq_some_iff.mp hx
  unfold queue
  rw [hs, hr, List.drop_eq_getElem_cons hlt, hx]

theorem queue_of_receive_none (h : c.receive = none) : c.queue = [] := by
  unfold receive at h
  split_ifs at h with hlt
  exact List.drop_eq_nil_iff.mpr (Nat.le_of_not_lt hlt)

/-- An empty queue: everything sent is received. -/
theorem received_of_queue (h : c.queue = []) : c.received = c.sent.length := by
  have hle := c.received_le
  have hdrop := List.drop_eq_nil_iff.mp h
  omega

end Channel

/-- A FIFO pipe of finite capacity. -/
structure Pipe (α : Type*) (capacity : ℕ) where
  content : List α
  fits : content.length ≤ capacity

namespace Pipe

variable {α : Type*} {capacity : ℕ} {p q : Pipe α capacity} {xs ys : List α}

def empty : Pipe α capacity := ⟨[], Nat.zero_le capacity⟩

/-- How much more the pipe can hold. -/
def room (p : Pipe α capacity) : ℕ := capacity - p.content.length

/-- Put items into the pipe, if there is room for them. -/
def put (p : Pipe α capacity) (xs : List α) : Option (Pipe α capacity) :=
  if h : xs.length ≤ p.room then
    some ⟨p.content ++ xs, by
      have hfits := p.fits
      unfold room at h
      rw [List.length_append]
      omega⟩
  else none

/-- One write of the first `n` items, with the items left over. -/
def write (p : Pipe α capacity) (xs : List α) (n : ℕ) : Option (Pipe α capacity × List α) :=
  if 0 < n ∧ n ≤ xs.length then (p.put (xs.take n)).map fun q => (q, xs.drop n) else none

/-- What is left behind the first `n` items. -/
def advance (p : Pipe α capacity) (n : ℕ) : Pipe α capacity :=
  ⟨p.content.drop n, by
    have hfits := p.fits
    rw [List.length_drop]
    omega⟩

theorem room_put (h : p.put xs = some q) : xs.length + q.room = p.room := by
  unfold put at h
  split_ifs at h with hroom
  obtain rfl := Option.some.inj h
  unfold room at hroom ⊢
  rw [List.length_append]
  omega

theorem put_isSome (h : xs.length ≤ p.room) : ∃ q, p.put xs = some q := by
  unfold put
  rw [dif_pos h]
  exact ⟨_, rfl⟩

theorem room_advance (p : Pipe α capacity) (n : ℕ) : p.room ≤ (p.advance n).room := by
  unfold room advance
  rw [List.length_drop]
  omega

/-- A write takes from the room what it takes from the items. -/
theorem write_some {n : ℕ} (h : p.write xs n = some (q, ys)) :
    0 < n ∧ ys.length + n = xs.length ∧ q.room + n = p.room := by
  unfold write at h
  split_ifs at h with hn
  obtain ⟨q', hput, hq⟩ := Option.map_eq_some_iff.mp h
  obtain ⟨rfl, rfl⟩ := Prod.mk.inj hq
  have hroom := room_put hput
  rw [List.length_take, Nat.min_eq_left hn.2] at hroom
  rw [List.length_drop]
  omega

/-- Nothing can be written into a full pipe. -/
theorem write_full {n : ℕ} (h : p.room = 0) : p.write xs n = none := by
  cases hw : p.write xs n with
  | none => rfl
  | some w =>
    obtain ⟨q, ys⟩ := w
    have hlen := write_some hw
    omega

theorem write_isSome {n : ℕ} (h0 : 0 < n) (hn : n ≤ xs.length) (hroom : n ≤ p.room) :
    ∃ q ys, p.write xs n = some (q, ys) := by
  have htake : (xs.take n).length ≤ p.room := by rwa [List.length_take, Nat.min_eq_left hn]
  obtain ⟨q, hput⟩ := put_isSome htake
  refine ⟨q, xs.drop n, ?_⟩
  unfold write
  rw [if_pos ⟨h0, hn⟩, hput]
  rfl

/-- A write of more than fits can fill the pipe. -/
theorem write_fills (h0 : 0 < p.room) (h : p.room < xs.length) :
    ∃ q ys, p.write xs p.room = some (q, ys) ∧ ys ≠ [] ∧ q.room = 0 := by
  obtain ⟨q, ys, hw⟩ := write_isSome h0 (Nat.le_of_lt h) (Nat.le_refl _)
  obtain ⟨-, hlen, hroom⟩ := write_some hw
  refine ⟨q, ys, hw, ?_, by omega⟩
  rintro rfl
  rw [List.length_nil] at hlen
  omega

end Pipe
