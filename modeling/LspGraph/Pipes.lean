import LspGraph.Channels
import LspGraph.WireOrder

/-! The connection over pipes of finite capacity (`transport/mod.rs`): a write takes as many steps
as the pipe makes it, and holds the writer's lock until it is done. -/
namespace LspGraph
open Runs

/-- The calling thread in `Connection::write`. -/
inductive CallerState where
  | idle
  /-- Waiting for the lock, with a frame to write. -/
  | locking (frame : Bytes)
  /-- Holding the lock, with the rest of the frame to write. -/
  | writing (rest : Bytes)
  deriving DecidableEq

/-- The reader thread in `read_loop`. -/
inductive AnswererState where
  | reading
  | decoding
  /-- Waiting for the lock, with a reply to write. -/
  | locking (frame : Bytes)
  | replying (rest : Bytes)
  | left
  deriving DecidableEq

/-- The server, as far as its output goes. -/
inductive ServerState where
  | running
  | writing (rest : Bytes)
  deriving DecidableEq

/-- The two pipes with the three parties at their ends. -/
structure Duplex (cin cout : ℕ) where
  stdin : Pipe UInt8 cin
  stdout : Pipe UInt8 cout
  caller : CallerState
  reader : AnswererState
  decoder : Decoder
  server : ServerState

inductive DuplexAction where
  /-- A `request` or `notify`, up to the lock. -/
  | call (msg : Value)
  | lockCaller
  | writeCaller (n : ℕ)
  | unlockCaller
  /-- The reader takes some of the output. -/
  | read (n : ℕ)
  | readEnd
  /-- One round of the inner loop of `read_loop`, up to the lock of a reply. -/
  | decode
  | lockReader
  | writeReader (n : ℕ)
  | unlockReader
  /-- The server begins to write. -/
  | output (bytes : Bytes)
  | writeServer (n : ℕ)
  | outputDone
  /-- The server takes some of its input. -/
  | consume (n : ℕ)

/-- The steps that only carry on: all but those with which output begins or is decoded. -/
def DuplexAction.carriesOn : DuplexAction → Bool
  | .output _ | .decode => false
  | _ => true

namespace Duplex

variable {cin cout : ℕ}

def start (cin cout : ℕ) : Duplex cin cout :=
  ⟨.empty, .empty, .idle, .reading, .new, .running⟩

/-- Whether nobody holds the writer's lock. -/
def lockFree (s : Duplex cin cout) : Bool :=
  match s.caller, s.reader with
  | .writing _, _ => false
  | _, .replying _ => false
  | _, _ => true

/-- What the server is still writing. -/
def serverRest (s : Duplex cin cout) : Bytes :=
  match s.server with
  | .writing rest => rest
  | .running => []

/-- The server is blocked on its output. -/
def ServerBlocked (s : Duplex cin cout) : Prop := s.serverRest ≠ [] ∧ s.stdout.room = 0

instance (s : Duplex cin cout) : Decidable s.ServerBlocked := inferInstanceAs (Decidable (_ ∧ _))

/-- The calling thread is blocked in a write: on the pipe or on the lock. -/
def CallerBlocked (s : Duplex cin cout) : Prop :=
  match s.caller with
  | .idle => False
  | .locking _ => s.lockFree = false
  | .writing rest => rest ≠ [] ∧ s.stdin.room = 0

/-- The reader is blocked on the lock or on its own write. -/
def ReaderBlocked (s : Duplex cin cout) : Prop :=
  match s.reader with
  | .locking _ => s.lockFree = false
  | .replying rest => rest ≠ [] ∧ s.stdin.room = 0
  | _ => False

instance (s : Duplex cin cout) : Decidable s.CallerBlocked :=
  match s with
  | ⟨_, _, .idle, _, _, _⟩ => isFalse id
  | ⟨i, o, .locking f, r, d, v⟩ =>
    inferInstanceAs (Decidable (lockFree ⟨i, o, .locking f, r, d, v⟩ = false))
  | ⟨_, _, .writing _, _, _, _⟩ => inferInstanceAs (Decidable (_ ∧ _))

instance (s : Duplex cin cout) : Decidable s.ReaderBlocked :=
  match s with
  | ⟨_, _, _, .reading, _, _⟩ | ⟨_, _, _, .decoding, _, _⟩ | ⟨_, _, _, .left, _, _⟩ => isFalse id
  | ⟨i, o, c, .locking f, d, v⟩ =>
    inferInstanceAs (Decidable (lockFree ⟨i, o, c, .locking f, d, v⟩ = false))
  | ⟨_, _, _, .replying _, _, _⟩ => inferInstanceAs (Decidable (_ ∧ _))

/-- All three are blocked at once. -/
def Stuck (s : Duplex cin cout) : Prop := s.CallerBlocked ∧ s.ReaderBlocked ∧ s.ServerBlocked

instance (s : Duplex cin cout) : Decidable s.Stuck := inferInstanceAs (Decidable (_ ∧ _ ∧ _))

variable (json : Json)

/-- The reply that the next round of `read_loop` has to write. -/
def nextReply (s : Duplex cin cout) : Option Value :=
  match s.decoder.nextMessage with
  | some (.ok (some body), _) => replyTo json body
  | _ => none

/-- One round of the inner loop of `read_loop`. -/
def decodeNext (s : Duplex cin cout) : Duplex cin cout :=
  match s.decoder.nextMessage with
  | none => { s with reader := .left }
  | some (.error _, d) => { s with decoder := d, reader := .left }
  | some (.ok none, d) => { s with decoder := d, reader := .reading }
  | some (.ok (some _), d) =>
    match s.nextReply json with
    | none => { s with decoder := d }
    | some reply => { s with decoder := d, reader := .locking (encode (json.bytes reply)) }

/-- The transitions; `none` where the action is not the next one of its party. -/
def step (s : Duplex cin cout) : DuplexAction → Option (Duplex cin cout)
  | .call msg =>
    match s.caller, json.toVec msg with
    | .idle, .ok bytes => some { s with caller := .locking (encode bytes) }
    -- a message that is not serialised is not written either
    | _, _ => none
  | .lockCaller =>
    match s.caller with
    | .locking frame => if s.lockFree then some { s with caller := .writing frame } else none
    | _ => none
  | .writeCaller n =>
    match s.caller with
    | .writing rest =>
      (s.stdin.write rest n).map fun w => { s with stdin := w.1, caller := .writing w.2 }
    | _ => none
  | .unlockCaller => if s.caller = .writing [] then some { s with caller := .idle } else none
  | .read n =>
    if s.reader = .reading ∧ 0 < n ∧ n ≤ Connection.chunkSize ∧ n ≤ s.stdout.content.length then
      some { s with stdout := s.stdout.advance n, reader := .decoding
                    decoder := s.decoder.push (s.stdout.content.take n) }
    else none
  | .readEnd => if s.reader = .reading then some { s with reader := .left } else none
  | .decode => if s.reader = .decoding then some (s.decodeNext json) else none
  | .lockReader =>
    match s.reader with
    | .locking frame => if s.lockFree then some { s with reader := .replying frame } else none
    | _ => none
  | .writeReader n =>
    match s.reader with
    | .replying rest =>
      (s.stdin.write rest n).map fun w => { s with stdin := w.1, reader := .replying w.2 }
    | _ => none
  | .unlockReader =>
    if s.reader = .replying [] then some { s with reader := .decoding } else none
  | .output bytes => if s.server = .running then some { s with server := .writing bytes } else none
  | .writeServer n =>
    match s.server with
    | .writing rest =>
      (s.stdout.write rest n).map fun w => { s with stdout := w.1, server := .writing w.2 }
    | .running => none
  | .outputDone => if s.server = .writing [] then some { s with server := .running } else none
  -- a server that is blocked on its output does not read
  | .consume n =>
    if ¬s.ServerBlocked ∧ 0 < n ∧ n ≤ s.stdin.content.length then
      some { s with stdin := s.stdin.advance n }
    else none

variable {json} {s t u : Duplex cin cout} {a : DuplexAction}
variable {h : List (Duplex cin cout × DuplexAction)}

/-- A step by its action: what it asks for, and what it changes. -/
inductive StepCase (json : Json) (s : Duplex cin cout) : DuplexAction → Duplex cin cout → Prop where
  | call (msg : Value) (bytes : Bytes) : s.caller = .idle → json.toVec msg = .ok bytes →
      StepCase json s (.call msg) { s with caller := .locking (encode bytes) }
  | lockCaller (frame : Bytes) : s.caller = .locking frame → s.lockFree = true →
      StepCase json s .lockCaller { s with caller := .writing frame }
  | writeCaller (n : ℕ) (rest left : Bytes) (pipe : Pipe UInt8 cin) : s.caller = .writing rest →
      s.stdin.write rest n = some (pipe, left) →
      StepCase json s (.writeCaller n) { s with stdin := pipe, caller := .writing left }
  | unlockCaller : s.caller = .writing [] → StepCase json s .unlockCaller { s with caller := .idle }
  | read (n : ℕ) (d : Decoder) : s.reader = .reading →
      StepCase json s (.read n)
        { s with stdout := s.stdout.advance n, reader := .decoding, decoder := d }
  | readEnd : s.reader = .reading → StepCase json s .readEnd { s with reader := .left }
  | decode : s.reader = .decoding → StepCase json s .decode (s.decodeNext json)
  | lockReader (frame : Bytes) : s.reader = .locking frame → s.lockFree = true →
      StepCase json s .lockReader { s with reader := .replying frame }
  | writeReader (n : ℕ) (rest left : Bytes) (pipe : Pipe UInt8 cin) : s.reader = .replying rest →
      s.stdin.write rest n = some (pipe, left) →
      StepCase json s (.writeReader n) { s with stdin := pipe, reader := .replying left }
  | unlockReader : s.reader = .replying [] →
      StepCase json s .unlockReader { s with reader := .decoding }
  | output (bytes : Bytes) : s.server = .running →
      StepCase json s (.output bytes) { s with server := .writing bytes }
  | writeServer (n : ℕ) (rest left : Bytes) (pipe : Pipe UInt8 cout) : s.server = .writing rest →
      s.stdout.write rest n = some (pipe, left) →
      StepCase json s (.writeServer n) { s with stdout := pipe, server := .writing left }
  | outputDone : s.server = .writing [] → StepCase json s .outputDone { s with server := .running }
  | consume (n : ℕ) : ¬s.ServerBlocked →
      StepCase json s (.consume n) { s with stdin := s.stdin.advance n }

theorem step_case (hst : s.step json a = some t) : StepCase json s a t := by
  cases a with
  | call msg =>
    cases hc : s.caller <;> cases hb : json.toVec msg <;>
      simp only [step, hc, hb, reduceCtorEq, Option.some.injEq] at hst
    obtain rfl := hst
    exact .call msg _ hc hb
  | lockCaller =>
    cases hc : s.caller <;> simp only [step, hc, reduceCtorEq] at hst
    obtain ⟨hfree, ⟨⟩⟩ := Option.ite_none_right_eq_some.mp hst
    exact .lockCaller _ hc hfree
  | writeCaller n =>
    cases hc : s.caller <;> simp only [step, hc, reduceCtorEq] at hst
    obtain ⟨⟨pipe, left⟩, hw, rfl⟩ := Option.map_eq_some_iff.mp hst
    exact .writeCaller n _ left pipe hc hw
  | unlockCaller =>
    obtain ⟨hc, ⟨⟩⟩ := Option.ite_none_right_eq_some.mp hst
    exact .unlockCaller hc
  | read n =>
    obtain ⟨⟨hr, -⟩, ⟨⟩⟩ := Option.ite_none_right_eq_some.mp hst
    exact .read n _ hr
  | readEnd =>
    obtain ⟨hr, ⟨⟩⟩ := Option.ite_none_right_eq_some.mp hst
    exact .readEnd hr
  | decode =>
    obtain ⟨hr, ⟨⟩⟩ := Option.ite_none_right_eq_some.mp hst
    exact .decode hr
  | lockReader =>
    cases hr : s.reader <;> simp only [step, hr, reduceCtorEq] at hst
    obtain ⟨hfree, ⟨⟩⟩ := Option.ite_none_right_eq_some.mp hst
    exact .lockReader _ hr hfree
  | writeReader n =>
    cases hr : s.reader <;> simp only [step, hr, reduceCtorEq] at hst
    obtain ⟨⟨pipe, left⟩, hw, rfl⟩ := Option.map_eq_some_iff.mp hst
    exact .writeReader n _ left pipe hr hw
  | unlockReader =>
    obtain ⟨hr, ⟨⟩⟩ := Option.ite_none_right_eq_some.mp hst
    exact .unlockReader hr
  | output bytes =>
    obtain ⟨hs, ⟨⟩⟩ := Option.ite_none_right_eq_some.mp hst
    exact .output bytes hs
  | writeServer n =>
    cases hs : s.server <;> simp only [step, hs, reduceCtorEq] at hst
    obtain ⟨⟨pipe, left⟩, hw, rfl⟩ := Option.map_eq_some_iff.mp hst
    exact .writeServer n _ left pipe hs hw
  | outputDone =>
    obtain ⟨hs, ⟨⟩⟩ := Option.ite_none_right_eq_some.mp hst
    exact .outputDone hs
  | consume n =>
    obtain ⟨⟨hb, -⟩, ⟨⟩⟩ := Option.ite_none_right_eq_some.mp hst
    exact .consume n hb

/-- Where a round of the inner loop leaves the reader; nothing else changes but the decoder. -/
theorem decodeNext_cases (json : Json) (s : Duplex cin cout) :
    ∃ d r, s.decodeNext json = { s with decoder := d, reader := r } ∧
      ((∃ reply, s.nextReply json = some reply ∧ r = .locking (encode (json.bytes reply))) ∨
        s.nextReply json = none ∧ (r = .left ∨ r = .reading ∨ r = s.reader)) := by
  unfold decodeNext
  cases hm : s.decoder.nextMessage with
  | none => exact ⟨_, _, rfl, .inr ⟨by rw [nextReply, hm], .inl rfl⟩⟩
  | some m =>
    obtain ⟨e | _ | body, d⟩ := m
    · exact ⟨d, _, rfl, .inr ⟨by rw [nextReply, hm], .inl rfl⟩⟩
    · exact ⟨d, _, rfl, .inr ⟨by rw [nextReply, hm], .inr (.inl rfl)⟩⟩
    · dsimp only
      cases hn : s.nextReply json with
      | none => exact ⟨d, s.reader, rfl, .inr ⟨rfl, .inr (.inr rfl)⟩⟩
      | some reply => exact ⟨d, _, rfl, .inl ⟨reply, rfl, rfl⟩⟩

/-- The round is that of the connection: it leaves the same buffer, and the reply to be written is
the one that the connection writes. -/
theorem decodeNext_connection (json : Json) (s : Duplex cin cout) {c : Connection}
    (hd : c.decoder = s.decoder) :
    (c.decodeNext json .done).decoder = (s.decodeNext json).decoder ∧
      (c.decodeNext json .done).written =
        c.written ++ ((s.nextReply json).map fun reply => encode (json.bytes reply)).getD [] := by
  have hreply : s.nextReply json = (Connection.bodyOf (c, .decode .done)).bind (replyTo json) := by
    rw [Connection.bodyOf_decode, hd]
    unfold nextReply
    rcases s.decoder.nextMessage with _ | ⟨e | _ | body, d⟩ <;> rfl
  refine ⟨?_, hreply ▸ (Connection.adds_decode json c).written⟩
  unfold decodeNext
  cases hm : s.decoder.nextMessage with
  | none =>
    simp only [Connection.decodeNext, hd, hm]
  | some m =>
    obtain ⟨m, d⟩ := m
    rw [Connection.decoder_decodeNext json (hd ▸ hm)]
    rcases m with e | _ | body
    · rfl
    · rfl
    · dsimp only
      cases s.nextReply json <;> rfl

/-- At most one thread holds the lock. -/
def Exclusive (s : Duplex cin cout) : Prop :=
  ∀ rest rest', s.caller = .writing rest → s.reader ≠ .replying rest'

theorem lockFree_iff : s.lockFree = true ↔
    (∀ rest, s.caller ≠ .writing rest) ∧ ∀ rest, s.reader ≠ .replying rest := by
  unfold lockFree
  cases s.caller <;> cases s.reader <;> simp

theorem exclusive_step (he : s.Exclusive) (hst : s.step json a = some t) : t.Exclusive := by
  intro rest rest' hc hr
  cases step_case hst with
  | call => cases hc
  | lockCaller frame _ hfree => exact (lockFree_iff.mp hfree).2 rest' hr
  | writeCaller n old left pipe hw => exact he old rest' hw hr
  | unlockCaller => cases hc
  | read => cases hr
  | readEnd => cases hr
  | decode hd =>
    obtain ⟨d, r, ht, hcases⟩ := decodeNext_cases json s
    rw [ht] at hc hr
    rcases hcases with ⟨reply, -, rfl⟩ | ⟨-, rfl | rfl | rfl⟩
    · cases hr
    · cases hr
    · cases hr
    · exact he rest rest' hc hr
  | lockReader frame _ hfree => exact (lockFree_iff.mp hfree).1 rest hc
  | writeReader n old left pipe hw => exact he rest old hc hw
  | unlockReader => cases hr
  | output => exact he rest rest' hc hr
  | writeServer => exact he rest rest' hc hr
  | outputDone => exact he rest rest' hc hr
  | consume => exact he rest rest' hc hr

theorem exclusive_of_run (hr : Run (Steps (step json)) (start cin cout) h s) : s.Exclusive :=
  hr.invariant Exclusive (fun _ _ hc => by cases hc) fun _ _ _ he hst => exclusive_step he hst

/-- A server that has something left to write is writing it. -/
theorem server_of_rest (h : s.serverRest ≠ []) : s.server = .writing s.serverRest := by
  unfold serverRest at h ⊢
  cases hs : s.server with
  | running => simp [hs] at h
  | writing => rfl

/-- Output that cannot block the server for as long as the reader is busy with a reply: it fits
into the pipe, or the reply that is being written fits into the other one. -/
def OutputFits (s : Duplex cin cout) (out : Bytes) : Prop :=
  match s.reader with
  | .locking _ => out.length ≤ s.stdout.room
  | .replying rest => out.length ≤ s.stdout.room ∨ rest.length ≤ s.stdin.room
  | _ => True

instance (s : Duplex cin cout) (out : Bytes) : Decidable (s.OutputFits out) :=
  match s with
  | ⟨_, _, _, .reading, _, _⟩ | ⟨_, _, _, .decoding, _, _⟩ | ⟨_, _, _, .left, _, _⟩ =>
    isTrue trivial
  | ⟨_, o, _, .locking _, _, _⟩ => inferInstanceAs (Decidable (out.length ≤ o.room))
  | ⟨_, _, _, .replying _, _, _⟩ => inferInstanceAs (Decidable (_ ∨ _))

/-- What the server is writing fits. -/
def Safe (s : Duplex cin cout) : Prop := s.OutputFits s.serverRest

/-- The condition on a step: a request of the server is taken up only when what the server is
writing fits into the pipe, and what the server begins to write while a reply waits fits. -/
def Fits (json : Json) (s : Duplex cin cout) : DuplexAction → Prop
  | .decode => (s.nextReply json).isSome = true → s.serverRest.length ≤ s.stdout.room
  | .output bytes => s.OutputFits bytes
  | _ => True

instance (json : Json) (s : Duplex cin cout) (a : DuplexAction) : Decidable (s.Fits json a) :=
  match a with
  | .decode => inferInstanceAs (Decidable (_ → _))
  | .output bytes => inferInstanceAs (Decidable (s.OutputFits bytes))
  | .call _ | .lockCaller | .writeCaller _ | .unlockCaller | .read _ | .readEnd | .lockReader
  | .writeReader _ | .unlockReader | .writeServer _ | .outputDone | .consume _ => isTrue trivial

theorem Safe.not_stuck (hs : s.Safe) : ¬s.Stuck := by
  rintro ⟨-, hr, hrest, hroom⟩
  have hpos := List.length_pos_of_ne_nil hrest
  unfold Safe OutputFits at hs
  unfold ReaderBlocked at hr
  cases hreader : s.reader with
  | reading => simp only [hreader] at hr
  | decoding => simp only [hreader] at hr
  | left => simp only [hreader] at hr
  | locking frame =>
    simp only [hreader] at hs
    omega
  | replying rest =>
    simp only [hreader] at hs hr
    have hlen := List.length_pos_of_ne_nil hr.1
    omega

theorem OutputFits.of_room {out : Bytes} (h : out.length ≤ s.stdout.room) : s.OutputFits out := by
  unfold OutputFits
  split
  · exact h
  · exact .inl h
  · trivial

/-- The reader stays where it is, and neither has the output grown nor the rooms shrunk. -/
theorem OutputFits.mono {out out' : Bytes} (hs : s.OutputFits out) (hr : t.reader = s.reader)
    (hout : out'.length + s.stdout.room ≤ out.length + t.stdout.room)
    (hin : s.stdin.room ≤ t.stdin.room) : t.OutputFits out' := by
  unfold OutputFits at hs ⊢
  rw [hr]
  cases hreader : s.reader with
  | locking frame =>
    simp only [hreader] at hs ⊢
    omega
  | replying rest =>
    simp only [hreader] at hs ⊢
    omega
  | _ => trivial

theorem OutputFits.of_reader {out : Bytes} (hl : ∀ frame, s.reader ≠ .locking frame)
    (hr : ∀ rest, s.reader ≠ .replying rest) : s.OutputFits out := by
  unfold OutputFits
  cases hreader : s.reader with
  | locking frame => exact absurd hreader (hl frame)
  | replying rest => exact absurd hreader (hr rest)
  | _ => trivial

/-- A step that fits leaves the output fitting. -/
theorem safe_step (he : s.Exclusive) (hs : s.Safe) (hf : s.Fits json a)
    (hst : s.step json a = some t) : t.Safe := by
  cases step_case hst with
  | call => exact hs.mono rfl le_rfl le_rfl
  | lockCaller => exact hs.mono rfl le_rfl le_rfl
  | writeCaller n rest left pipe hc hw =>
    -- the caller holds the lock, so that no reply is being written
    by_cases hl : ∃ frame, s.reader = .locking frame
    · obtain ⟨frame, hl⟩ := hl
      unfold Safe OutputFits at hs ⊢
      simp only [hl] at hs ⊢
      exact hs
    · exact .of_reader (fun frame hr => hl ⟨frame, hr⟩) (fun rest' => he rest rest' hc)
  | unlockCaller => exact hs.mono rfl le_rfl le_rfl
  | read => exact .of_reader (by simp) (by simp)
  | readEnd => exact .of_reader (by simp) (by simp)
  | decode hd =>
    obtain ⟨d, r, ht, hcases⟩ := decodeNext_cases json s
    rw [ht]
    rcases hcases with ⟨reply, hreply, rfl⟩ | ⟨-, rfl | rfl | rfl⟩
    · exact .of_room (hf (by rw [hreply]; rfl))
    · exact .of_reader (by simp) (by simp)
    · exact .of_reader (by simp) (by simp)
    · exact .of_reader (by simp [hd]) (by simp [hd])
  | lockReader frame hl =>
    unfold Safe OutputFits at hs
    simp only [hl] at hs
    exact .of_room hs
  | writeReader n rest left pipe hr hw =>
    have hlen := Pipe.write_some hw
    unfold Safe OutputFits at hs ⊢
    simp only [hr] at hs ⊢
    change s.serverRest.length ≤ _ ∨ _
    omega
  | unlockReader => exact .of_reader (by simp) (by simp)
  | output => exact OutputFits.mono hf rfl le_rfl le_rfl
  | writeServer n rest left pipe hserver hw =>
    have hlen := Pipe.write_some hw
    have hrest : s.serverRest = rest := by rw [serverRest, hserver]
    refine hs.mono rfl ?_ le_rfl
    rw [hrest]
    change left.length + _ ≤ _ + pipe.room
    omega
  | outputDone => exact hs.mono rfl (Nat.add_le_add_right (Nat.zero_le _) _) le_rfl
  | consume n => exact hs.mono rfl le_rfl (Pipe.room_advance s.stdin n)

/-- A step after which the output fits was a step that fits. -/
theorem fits_of_safe (ht : t.Safe) (hst : s.step json a = some t) : s.Fits json a := by
  cases step_case hst with
  | decode hd =>
    intro hsome
    obtain ⟨d, r, hdecode, hcases⟩ := decodeNext_cases json s
    rcases hcases with ⟨reply, -, rfl⟩ | ⟨hnone, -⟩
    · rw [hdecode] at ht
      exact ht
    · rw [hnone] at hsome
      cases hsome
  | output => exact ht.mono rfl le_rfl le_rfl
  | _ => trivial

/-- Once all three are blocked nothing moves again. -/
theorem Stuck.step_eq_none (hs : s.Stuck) (a : DuplexAction) : s.step json a = none := by
  obtain ⟨hc, hr, hb⟩ := hs
  cases hst : s.step json a with
  | none => rfl
  | some t =>
    exfalso
    unfold CallerBlocked at hc
    unfold ReaderBlocked at hr
    have hserver := server_of_rest hb.1
    cases step_case hst with
    | call msg bytes h => simp [h] at hc
    | lockCaller frame h hfree => simp [h, hfree] at hc
    | writeCaller n rest left pipe h hw =>
      simp only [h] at hc
      simp [Pipe.write_full hc.2] at hw
    | unlockCaller h => simp [h] at hc
    | read n d h => simp [h] at hr
    | readEnd h => simp [h] at hr
    | decode h => simp [h] at hr
    | lockReader frame h hfree => simp [h, hfree] at hr
    | writeReader n rest left pipe h hw =>
      simp only [h] at hr
      simp [Pipe.write_full hr.2] at hw
    | unlockReader h => simp [h] at hr
    | output bytes h => simp [h] at hserver
    | writeServer n rest left pipe h hw => simp [Pipe.write_full hb.2] at hw
    | outputDone h =>
      rw [h] at hserver
      exact hb.1 (ServerState.writing.inj hserver).symm
    | consume n h => exact h hb

theorem safe_of_run (he : s.Exclusive) (hs : s.Safe) (hr : Run (Steps (step json)) s h t)
    (hf : ∀ p ∈ h, p.1.Fits json p.2) : t.Safe := by
  have hboth : t.Exclusive ∧ t.Safe := by
    refine hr.guarded (fun _ t => t.Exclusive ∧ t.Safe) (Fits json) ⟨he, hs⟩ ?_ hf
    rintro _ s a t - ⟨he, hs⟩ hf hst
    exact ⟨exclusive_step he hst, safe_step he hs hf hst⟩
  exact hboth.2

/-- What a state comes to by steps that only carry on. -/
def CarriesTo (json : Json) (s t : Duplex cin cout) : Prop :=
  ∃ h, Run (Steps (step json)) s h t ∧ ∀ p ∈ h, p.2.carriesOn = true

/-- All three are blocked, or will be if every party only carries on in some order. -/
def CanGetStuck (json : Json) (s : Duplex cin cout) : Prop := ∃ t, s.CarriesTo json t ∧ t.Stuck

theorem CarriesTo.refl (json : Json) (s : Duplex cin cout) : s.CarriesTo json s :=
  ⟨[], .nil, by simp⟩

theorem CarriesTo.trans (hs : s.CarriesTo json t) (ht : t.CarriesTo json u) :
    s.CarriesTo json u := by
  obtain ⟨h, hr, hc⟩ := hs
  obtain ⟨h', hr', hc'⟩ := ht
  exact ⟨h ++ h', hr.trans hr', List.forall_mem_append.mpr ⟨hc, hc'⟩⟩

theorem CarriesTo.of_step (hst : s.step json a = some t) (ha : a.carriesOn = true) :
    s.CarriesTo json t :=
  ⟨[] ++ [(s, a)], Run.nil.snoc hst, by simpa using ha⟩

/-- A step that only carries on always fits. -/
theorem safe_of_carriesTo (he : s.Exclusive) (hs : s.Safe) (hc : s.CarriesTo json t) : t.Safe := by
  obtain ⟨h, hr, hc⟩ := hc
  refine safe_of_run he hs hr ?_
  intro p hp
  have hp := hc p hp
  unfold Fits
  cases ha : p.2 with
  | decode => simp [ha, DuplexAction.carriesOn] at hp
  | output => simp [ha, DuplexAction.carriesOn] at hp
  | _ => trivial

/-- A party that writes more than fits fills its pipe: `moved` is the state as a function of what
its writes change. -/
theorem carriesTo_fills {capacity : ℕ} (pipe : Pipe UInt8 capacity) (rest : Bytes)
    (moved : Pipe UInt8 capacity → Bytes → Duplex cin cout) (write : ℕ → DuplexAction)
    (hs : moved pipe rest = s) (hw : ∀ n, (write n).carriesOn = true)
    (hstep : ∀ n q left, pipe.write rest n = some (q, left) →
      s.step json (write n) = some (moved q left))
    (hroom : pipe.room < rest.length) :
    ∃ q left, s.CarriesTo json (moved q left) ∧ left ≠ [] ∧ q.room = 0 := by
  rcases Nat.eq_zero_or_pos pipe.room with h0 | h0
  · refine ⟨pipe, rest, ?_, List.ne_nil_of_length_pos (by omega), h0⟩
    rw [hs]
    exact .refl json s
  · obtain ⟨q, left, hwrite, hleft, hfull⟩ := Pipe.write_fills h0 hroom
    exact ⟨q, left, .of_step (hstep _ q left hwrite) (hw _), hleft, hfull⟩

/-- A message larger than the pipe: a `didOpen` has the text of its file. -/
def Outgrows (json : Json) (capacity : ℕ) : Prop :=
  ∃ params bytes, json.toVec (notifyMessage "textDocument/didOpen" params) = .ok bytes ∧
    capacity ≤ bytes.length

theorem length_lt_encode (payload : Bytes) : payload.length < (encode payload).length := by
  rw [encode_eq, List.length_append, List.length_append]
  have hsep : crlfcrlf.length = 4 := rfl
  omega

theorem carriesTo_calls (hj : Outgrows json cin) (hc : s.caller = .idle) :
    ∃ frame, cin < frame.length ∧ s.CarriesTo json { s with caller := .locking frame } := by
  obtain ⟨params, bytes, hb, hlen⟩ := hj
  have hcall : s.step json (.call (notifyMessage "textDocument/didOpen" params)) =
      some { s with caller := .locking (encode bytes) } := by
    simp only [step, hc, hb]
  exact ⟨encode bytes, hlen.trans_lt (length_lt_encode bytes), .of_step hcall rfl⟩

/-- The caller comes to fill the pipe with more to write. -/
def CallerFills (json : Json) (s : Duplex cin cout) : Prop :=
  ∃ pipe left, s.CarriesTo json { s with stdin := pipe, caller := .writing left } ∧
    left ≠ [] ∧ pipe.room = 0

theorem CallerFills.before (ht : t.CallerFills json) (hc : s.CarriesTo json t)
    (hsame : ∀ (pipe : Pipe UInt8 cin) (caller : CallerState),
      { t with stdin := pipe, caller := caller } = { s with stdin := pipe, caller := caller }) :
    s.CallerFills json := by
  obtain ⟨pipe, left, hfill, hleft⟩ := ht
  rw [hsame] at hfill
  exact ⟨pipe, left, hc.trans hfill, hleft⟩

theorem callerFills_of_room {rest : Bytes} (hc : s.caller = .writing rest)
    (hroom : s.stdin.room < rest.length) : s.CallerFills json := by
  refine carriesTo_fills s.stdin rest
    (fun q left => { s with stdin := q, caller := .writing left }) .writeCaller (by rw [← hc])
    (fun _ => rfl) ?_ hroom
  intro n q left hw
  simp [step, hc, hw]

section Caller

variable (hj : Outgrows json cin) (hfree : ∀ rest, s.reader ≠ .replying rest)
include hj hfree

/-- A caller at rest can begin to write more than the pipe holds. -/
theorem callerFills_of_idle (hc : s.caller = .idle) : s.CallerFills json := by
  obtain ⟨frame, hlen, hcall⟩ := carriesTo_calls hj hc
  have hlf : lockFree { s with caller := .locking frame } = true :=
    lockFree_iff.mpr ⟨by simp, hfree⟩
  have hlock : step json { s with caller := .locking frame } .lockCaller =
      some { s with caller := .writing frame } := by
    simp only [step, hlf, if_true]
  have hroom : s.stdin.room < frame.length := (Nat.sub_le _ _).trans_lt hlen
  have hfills : CallerFills json { s with caller := .writing frame } :=
    callerFills_of_room rfl hroom
  exact hfills.before (hcall.trans (.of_step hlock rfl)) fun _ _ => rfl

/-- So can a caller that has written all. -/
theorem callerFills_of_done (hc : s.caller = .writing []) : s.CallerFills json := by
  have hunlock : s.step json .unlockCaller = some { s with caller := .idle } := if_pos hc
  have hfills : CallerFills json { s with caller := .idle } := callerFills_of_idle hj hfree rfl
  exact hfills.before (.of_step hunlock rfl) fun _ _ => rfl

theorem callerFills_of_writing {rest : Bytes} (hc : s.caller = .writing rest) :
    s.CallerFills json := by
  rcases Nat.lt_or_ge s.stdin.room rest.length with hroom | hroom
  · exact callerFills_of_room hc hroom
  rcases Nat.eq_zero_or_pos rest.length with h0 | h0
  · rw [List.length_eq_zero_iff.mp h0] at hc
    exact callerFills_of_done hj hfree hc
  obtain ⟨q, left, hw⟩ := Pipe.write_isSome h0 le_rfl hroom
  obtain ⟨-, hlen, -⟩ := Pipe.write_some hw
  obtain rfl : left = [] := List.length_eq_zero_iff.mp (by omega)
  have hwrite : s.step json (.writeCaller rest.length) =
      some { s with stdin := q, caller := .writing [] } := by
    simp [step, hc, hw]
  have hfills : CallerFills json { s with stdin := q, caller := .writing [] } :=
    callerFills_of_done hj hfree rfl
  exact hfills.before (.of_step hwrite rfl) fun _ _ => rfl

theorem callerFills : s.CallerFills json := by
  cases hc : s.caller with
  | idle => exact callerFills_of_idle hj hfree hc
  | writing rest => exact callerFills_of_writing hj hfree hc
  | locking frame =>
    have hlf : s.lockFree = true := lockFree_iff.mpr ⟨by simp [hc], hfree⟩
    have hlock : s.step json .lockCaller = some { s with caller := .writing frame } := by
      simp only [step, hc, hlf, if_true]
    have hfills : CallerFills json { s with caller := .writing frame } :=
      callerFills_of_writing hj hfree rfl
    exact hfills.before (.of_step hlock rfl) fun _ _ => rfl

end Caller

theorem CanGetStuck.before (ht : t.CanGetStuck json) (hc : s.CarriesTo json t) :
    s.CanGetStuck json := by
  obtain ⟨u, hu, hstuck⟩ := ht
  exact ⟨u, hc.trans hu, hstuck⟩

theorem carriesTo_readerFills {rest : Bytes} (hr : s.reader = .replying rest)
    (hroom : s.stdin.room < rest.length) :
    ∃ pipe left, s.CarriesTo json { s with stdin := pipe, reader := .replying left } ∧
      left ≠ [] ∧ pipe.room = 0 := by
  refine carriesTo_fills s.stdin rest
    (fun q left => { s with stdin := q, reader := .replying left }) .writeReader (by rw [← hr])
    (fun _ => rfl) ?_ hroom
  intro n q left hw
  simp [step, hr, hw]

/-- A reply waits for the lock while the server is blocked: the caller need only write more than
its pipe holds. -/
theorem canGetStuck_of_locking {frame : Bytes} (hj : Outgrows json cin)
    (hr : s.reader = .locking frame) (hb : s.ServerBlocked) : s.CanGetStuck json := by
  have hfree : ∀ rest, s.reader ≠ .replying rest := by simp [hr]
  obtain ⟨pipe, left, hfill, hleft, hfull⟩ := callerFills hj hfree
  refine ⟨_, hfill, ⟨hleft, hfull⟩, ?_, hb⟩
  simp [ReaderBlocked, hr, lockFree]

/-- The reader is blocked in the write of a reply while the server is blocked: the caller need
only come to wait for the lock. -/
theorem canGetStuck_of_replying {rest : Bytes} (hj : Outgrows json cin) (he : s.Exclusive)
    (hr : s.reader = .replying rest) (hrest : rest ≠ []) (hroom : s.stdin.room = 0)
    (hb : s.ServerBlocked) : s.CanGetStuck json := by
  have hreader : s.ReaderBlocked := by
    unfold ReaderBlocked
    rw [hr]
    exact ⟨hrest, hroom⟩
  cases hc : s.caller with
  | writing left => exact absurd hr (he left rest hc)
  | locking frame =>
    refine ⟨s, .refl json s, ?_, hreader, hb⟩
    simp [CallerBlocked, hc, lockFree, hr]
  | idle =>
    obtain ⟨frame, -, hcall⟩ := carriesTo_calls hj hc
    refine ⟨_, hcall, ?_, ?_, hb⟩
    · simp [CallerBlocked, lockFree, hr]
    · simpa only [ReaderBlocked, hr] using hreader

/-- A server that writes more than fits comes to be blocked. -/
theorem carriesTo_serverBlocked (hroom : s.stdout.room < s.serverRest.length) :
    ∃ pipe left, s.CarriesTo json { s with stdout := pipe, server := .writing left } ∧
      ServerBlocked { s with stdout := pipe, server := .writing left } := by
  have hs := server_of_rest (List.ne_nil_of_length_pos ((Nat.zero_le _).trans_lt hroom))
  refine carriesTo_fills s.stdout s.serverRest
    (fun q left => { s with stdout := q, server := .writing left }) .writeServer (by rw [← hs])
    (fun _ => rfl) ?_ hroom
  intro n q left hw
  rw [step, hs]
  simp [hw]

theorem canGetStuck_of_not_safe (hj : Outgrows json cin) (he : s.Exclusive) (hs : ¬s.Safe) :
    s.CanGetStuck json := by
  unfold Safe OutputFits at hs
  cases hr : s.reader with
  | reading => simp [hr] at hs
  | decoding => simp [hr] at hs
  | left => simp [hr] at hs
  | locking frame =>
    simp only [hr] at hs
    obtain ⟨pipe, left, hfill, hb⟩ := carriesTo_serverBlocked (Nat.lt_of_not_le hs)
    refine CanGetStuck.before ?_ hfill
    exact canGetStuck_of_locking hj hr hb
  | replying rest =>
    simp only [hr] at hs
    obtain ⟨hout, hin⟩ := not_or.mp hs
    obtain ⟨pipe, left, hfill, hb⟩ := carriesTo_serverBlocked (Nat.lt_of_not_le hout)
    refine CanGetStuck.before ?_ hfill
    -- then the reader fills the other pipe
    obtain ⟨pipe', left', hfill', hleft, hfull⟩ := carriesTo_readerFills
      (s := { s with stdout := pipe, server := .writing left }) hr (Nat.lt_of_not_le hin)
    refine CanGetStuck.before ?_ hfill'
    exact canGetStuck_of_replying hj (fun _ _ hc _ => he _ _ hc hr) rfl hleft hfull hb

/-- The output that the server writes while the reader answers one of its requests decides: in a
run whose steps all fit no state is or can come to be stuck, and where messages outgrow the pipe
this is so in no other run. -/
theorem never_stuck_iff_fits (hr : Run (Steps (step json)) (start cin cout) h s) :
    ((∀ p ∈ h, p.1.Fits json p.2) → ∀ h₁ t, h₁ <+: h →
      Run (Steps (step json)) (start cin cout) h₁ t → ¬t.CanGetStuck json) ∧
    (Outgrows json cin → (∀ h₁ t, h₁ <+: h →
      Run (Steps (step json)) (start cin cout) h₁ t → ¬t.CanGetStuck json) →
        ∀ p ∈ h, p.1.Fits json p.2) := by
  have hsafe := hr.guarded_iff (fun _ t => t.Safe) (Fits json) trivial
    (fun h s a t hr hs hf hst => safe_step (exclusive_of_run hr) hs hf hst)
    (fun h s a t _ _ hst ht => fits_of_safe ht hst)
  constructor
  · intro hf h₁ t hp hr₁
    rintro ⟨u, hu, hstuck⟩
    have hs : t.Safe := hsafe.mp hf h₁ t hp hr₁
    exact (safe_of_carriesTo (exclusive_of_run hr₁) hs hu).not_stuck hstuck
  · intro hj hns
    refine hsafe.mpr fun h₁ t hp hr₁ => ?_
    by_contra hs
    exact hns h₁ t hp hr₁ (canGetStuck_of_not_safe hj (exclusive_of_run hr₁) hs)

/-- What `open` sends of a small file. -/
def openParams : Value :=
  .object [("textDocument", .object [("uri", .string "file:///m.rs"),
    ("languageId", .string "rust"), ("version", .ofI64 1),
    ("text", .string "fn main() \x7b\x7d")])]

def openMessage : Value := notifyMessage "textDocument/didOpen" openParams

def openBody : Bytes :=
  strBytes ("\x7b\"jsonrpc\":\"2.0\",\"method\":\"textDocument/didOpen\",\"params\":" ++
    "\x7b\"textDocument\":\x7b\"languageId\":\"rust\",\"text\":\"fn main() \x7b\x7d\"," ++
    "\"uri\":\"file:///m.rs\",\"version\":1\x7d\x7d\x7d")

/-- JSON as far as the runs below use it. -/
def openJson : Json where
  toVec v :=
    if (v.get "method").bind (·.asStr) = some "textDocument/didOpen" then .ok openBody
    else Connection.wireJson.toVec v
  fromSlice := Connection.wireJson.fromSlice

/-- A file is opened while the server writes a request, which is then answered. -/
def openAndAnswer : List DuplexAction :=
  [.call openMessage, .lockCaller, .writeCaller 64, .output (encode Connection.configurationBody),
    .writeServer 81, .outputDone, .read 81, .decode, .consume 64, .writeCaller 64, .consume 64,
    .writeCaller 47, .unlockCaller, .lockReader, .consume 47, .writeReader 60, .unlockReader]

set_option maxRecDepth 4000 in
/-- The request is answered, and nothing can get stuck behind it. -/
theorem never_stuck_open_and_answer :
    ∃ h s, Run (Steps (step openJson)) (start 64 100) h s ∧ h.map Prod.snd = openAndAnswer ∧
      s.reader = .decoding ∧ Outgrows openJson 64 ∧ ¬s.CanGetStuck openJson := by
  have hr := run_of_exec (step openJson) (start 64 100) openAndAnswer rfl
  refine ⟨_, _, hr, rfl, rfl, ⟨openParams, openBody, rfl, by decide⟩, ?_⟩
  exact (never_stuck_iff_fits hr).1 (by decide) _ _ (List.prefix_refl _) hr

/-- A file is opened while the server writes a request with two notifications behind it. -/
def openAmongOutput : List DuplexAction :=
  [.call openMessage, .lockCaller, .writeCaller 64,
    .output (encode Connection.configurationBody ++ encode Connection.logBody ++
      encode Connection.logBody), .writeServer 81,
    .read 81, .decode, .writeServer 100]

set_option maxRecDepth 4000 in
/-- The caller waits for room in the pipe, the reader for the lock of the caller, and the server
for the reader. -/
theorem blocked_all_three :
    ∃ h s, Run (Steps (step openJson)) (start 64 100) h s ∧ h.map Prod.snd = openAmongOutput ∧
      s.Stuck ∧ ∀ a, s.step openJson a = none := by
  have hr := run_of_exec (step openJson) (start 64 100) openAmongOutput rfl
  refine ⟨_, _, hr, rfl, ?_, ?_⟩
  · decide
  · exact Stuck.step_eq_none (by decide)

end Duplex

end LspGraph
