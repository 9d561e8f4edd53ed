import LspGraph.FrameGrammar

/-! The arithmetic of `next_message`: which streams take it out of the range of `usize`, and what
that does to the reader thread. -/
namespace LspGraph
open RustText Streaming Runs

/-- `m + n` on `usize`: out of range it panics where overflow is checked, and wraps around
otherwise. -/
def addUsize (checked : Bool) (m n : ℕ) : Option ℕ :=
  if m + n < 2^64 then some (m + n) else if checked then none else some ((m + n) % 2^64)

/-- `&b[i..j]`. -/
def slice (b : Bytes) (i j : ℕ) : Option Bytes :=
  if i ≤ j ∧ j ≤ b.length then some ((b.take j).drop i) else none

/-- What `b.drain(..j)` leaves. -/
def drainTo (b : Bytes) (j : ℕ) : Option Bytes := if j ≤ b.length then some (b.drop j) else none

/-- `next_message` with every addition and every slice as the language carries it out. -/
def Decoder.nextMessageWith (checked : Bool) (d : Decoder) :
    Option (Result (Option Bytes) × Decoder) :=
  match findSubslice d.buf crlfcrlf with
  | none => some (.ok none, d)
  | some headerEnd =>
    (slice d.buf 0 headerEnd).bind fun header =>
    match headerLength header with
    | .error e =>
      (addUsize checked headerEnd 4).bind fun bodyStart =>
      (drainTo d.buf bodyStart).map fun rest => (.error e, ⟨rest⟩)
    | .ok len =>
      (addUsize checked headerEnd 4).bind fun bodyStart =>
      (addUsize checked bodyStart len).bind fun bodyEnd =>
      if d.buf.length < bodyEnd then some (.ok none, d)
      else (slice d.buf bodyStart bodyEnd).bind fun body =>
        (drainTo d.buf bodyEnd).map fun rest => (.ok (some body), ⟨rest⟩)

/-- The length that the header at the front declares stays in range. -/
def LengthInRange (b : Bytes) : Prop :=
  ∀ h rest len, FirstTerminator b h rest → WellFormed h len → h.length + 4 + len < 2^64

/-- What is left of a stream behind some of the frames at its front and, where `past` says so,
behind malformed headers as well. -/
inductive Reaches (past : Prop) : Bytes → Bytes → Prop where
  | refl (b : Bytes) : Reaches past b b
  | frame {b h body rest t : Bytes} : FirstTerminator b h (body ++ rest) →
      WellFormed h body.length → Reaches past rest t → Reaches past b t
  | malformed {b h rest t : Bytes} : past → FirstTerminator b h rest →
      (∀ len, ¬WellFormed h len) → Reaches past rest t → Reaches past b t

/-- No header that is reached declares a length that leaves the range. -/
def LengthsInRange (past : Prop) (stream : Bytes) : Prop :=
  ∀ t, Reaches past stream t → LengthInRange t

theorem parseUsize_lt {s : List Char} {n : ℕ} (h : parseUsize s = some n) : n < 2^64 := by
  unfold parseUsize at h
  dsimp only at h
  obtain ⟨⟨-, -, hlt⟩, he⟩ := Option.ite_none_right_eq_some.mp h
  rw [← Option.some.inj he]
  exact hlt

theorem WellFormed.lt {h : Bytes} {len : ℕ} (hw : WellFormed h len) : len < 2^64 := by
  obtain ⟨_, _, _, -, -, -, -, hval⟩ := hw
  exact parseUsize_lt hval

/-- In a buffer that fits into memory the declared length alone can leave the range, and then the
code panics whether or not overflow is checked: the wrapped sum lies before the start of the
body. -/
theorem nextMessageWith_eq (checked : Bool) (d : Decoder) (hd : d.buf.length < 2^64) :
    d.nextMessageWith checked = d.nextMessage := by
  have heq : d.nextMessage = (Decoder.mk d.buf).nextMessage := rfl
  unfold Decoder.nextMessageWith
  rw [heq, nextMessage_eq]
  cases hf : findSubslice d.buf crlfcrlf with
  | none => rfl
  | some e =>
    have hle : e + 4 ≤ d.buf.length := findSubslice_bound _ _ _ hf
    have hheader : slice d.buf 0 e = some (d.buf.take e) := by
      rw [slice, if_pos ⟨Nat.zero_le _, by omega⟩, List.drop_zero]
    have hstart : addUsize checked e 4 = some (e + 4) := if_pos (by omega)
    dsimp only
    rw [hheader, Option.bind_some]
    cases hl : headerLength (d.buf.take e) with
    | error err =>
      dsimp only
      rw [hstart, Option.bind_some, drainTo, if_pos hle]
      rfl
    | ok len =>
      have hlen := ((headerLength_eq_ok_iff _ _).mp hl).lt
      dsimp only
      rw [hstart, Option.bind_some]
      by_cases hover : 2^64 ≤ e + 4 + len
      · rw [if_pos hover, addUsize, if_neg (Nat.not_lt.mpr hover)]
        cases checked with
        | true => rfl
        | false =>
          -- the slice would end before it starts
          have hwrap : (e + 4 + len) % 2^64 < e + 4 := by omega
          rw [if_neg Bool.false_ne_true, Option.bind_some, if_neg (by omega), slice,
            if_neg (by omega)]
          rfl
      · rw [if_neg hover, addUsize, if_pos (by omega), Option.bind_some]
        split_ifs with hshort
        · rfl
        · rw [slice, if_pos (by omega), drainTo, if_pos (by omega)]
          rfl

theorem FirstTerminator.append {b h rest : Bytes} (ht : FirstTerminator b h rest) (x : Bytes) :
    FirstTerminator (b ++ x) h (rest ++ x) := by
  obtain ⟨hf, htake, hrest⟩ := (findSubslice_iff b h rest).mp ht
  obtain ⟨hf', htake', hle⟩ := terminator_append b x h.length hf
  refine (findSubslice_iff _ _ _).mpr ⟨hf', by rw [htake', ← htake], ?_⟩
  rw [List.drop_append_of_le_length hle, hrest]

/-- `next_message` panics exactly on a length that leaves the range. -/
theorem nextMessage_eq_none_iff (b : Bytes) :
    (Decoder.mk b).nextMessage = none ↔ ¬LengthInRange b := by
  constructor
  · intro hm hin
    exact nextMessage_ne_none hin hm
  · intro hout
    unfold LengthInRange at hout
    push Not at hout
    obtain ⟨h, rest, len, ht, hw, hover⟩ := hout
    rw [nextMessage_of_terminator ht, (headerLength_eq_ok_iff h len).mpr hw]
    exact if_pos hover

theorem lengthInRange_of_some {b : Bytes} {p : Result (Option Bytes) × Decoder}
    (hm : (Decoder.mk b).nextMessage = some p) : LengthInRange b := by
  by_contra hout
  rw [(nextMessage_eq_none_iff b).mpr hout] at hm
  cases hm

section Reaches

variable {past : Prop} {b h rest : Bytes}

theorem lengthsInRange_frame {body : Bytes} (ht : FirstTerminator b h (body ++ rest))
    (hw : WellFormed h body.length) :
    LengthsInRange past b ↔ LengthInRange b ∧ LengthsInRange past rest := by
  constructor
  · exact fun hb => ⟨hb b (.refl b), fun t hr => hb t (.frame ht hw hr)⟩
  · rintro ⟨hb, hrest⟩ t hr
    cases hr with
    | refl => exact hb
    | frame ht' hw' hr =>
      -- the terminator and the length are those of the frame at hand
      obtain ⟨rfl, he⟩ := ht'.unique ht
      obtain ⟨rfl, rfl⟩ := List.append_inj he (hw'.unique hw)
      exact hrest t hr
    | malformed _ ht' hno =>
      obtain ⟨rfl, -⟩ := ht'.unique ht
      exact absurd hw (hno _)

theorem lengthsInRange_malformed (ht : FirstTerminator b h rest) (hno : ∀ len, ¬WellFormed h len) :
    LengthsInRange past b ↔ (past → LengthsInRange past rest) := by
  constructor
  · exact fun hb hp t hr => hb t (.malformed hp ht hno hr)
  · intro hrest t hr
    cases hr with
    | refl =>
      intro h' rest' len ht' hw
      obtain ⟨rfl, -⟩ := ht'.unique ht
      exact absurd hw (hno len)
    | frame ht' hw' =>
      obtain ⟨rfl, -⟩ := ht'.unique ht
      exact absurd hw' (hno _)
    | malformed hp ht' _ hr =>
      obtain ⟨-, rfl⟩ := ht'.unique ht
      exact hrest hp t hr

theorem nextMessage_waits {d : Decoder} (hm : (Decoder.mk b).nextMessage = some (.ok none, d)) :
    d = ⟨b⟩ := by
  have hc := next_case b
  rw [hm] at hc
  cases hc <;> rfl

/-- A buffer on which the decoder waits holds nothing to be reached. -/
theorem lengthsInRange_of_waits {d : Decoder}
    (hm : (Decoder.mk b).nextMessage = some (.ok none, d)) : LengthsInRange past b := by
  have hin := lengthInRange_of_some hm
  intro t hr
  cases hr with
  | refl => exact hin
  | frame ht hw =>
    rw [(nextMessage_body_iff hin _ _).mpr ⟨_, ht, hw⟩] at hm
    cases hm
  | malformed _ ht hno =>
    obtain ⟨e, he⟩ := (nextMessage_error_iff b _).mpr ⟨_, ht, hno⟩
    rw [he] at hm
    cases hm

section Ahead

-- the bytes that are still to come
variable {x : Bytes} {d : Decoder}

theorem lengthInRange_of_append (hin : LengthInRange (b ++ x)) : LengthInRange b :=
  fun h rest len ht => hin h (rest ++ x) len (ht.append x)

theorem not_lengthsInRange_of_panic (hm : (Decoder.mk b).nextMessage = none) :
    ¬LengthsInRange past (b ++ x) := fun hx =>
  (nextMessage_eq_none_iff b).mp hm (lengthInRange_of_append (hx _ (.refl _)))

theorem lengthsInRange_body {body : Bytes}
    (hm : (Decoder.mk b).nextMessage = some (.ok (some body), d)) :
    LengthsInRange past (b ++ x) ↔ LengthsInRange past (d.buf ++ x) := by
  have hin := lengthInRange_of_some hm
  obtain ⟨h, ht, hw⟩ := (nextMessage_body_iff hin body d.buf).mp hm
  -- the frame is at the front of the longer buffer too
  have hx := ht.append x
  rw [List.append_assoc] at hx
  have hin' : LengthInRange (b ++ x) := by
    intro h' rest' len ht' hw'
    obtain ⟨rfl, -⟩ := ht'.unique hx
    exact hin _ _ _ ht hw'
  calc LengthsInRange past (b ++ x)
    _ ↔ LengthInRange (b ++ x) ∧ LengthsInRange past (d.buf ++ x) := lengthsInRange_frame hx hw
    _ ↔ LengthsInRange past (d.buf ++ x) := and_iff_right hin'

theorem lengthsInRange_error {e : Error} (hm : (Decoder.mk b).nextMessage = some (.error e, d)) :
    LengthsInRange past (b ++ x) ↔ (past → LengthsInRange past (d.buf ++ x)) := by
  obtain ⟨h, ht, hno⟩ := (nextMessage_error_iff b d.buf).mp ⟨e, hm⟩
  exact lengthsInRange_malformed (ht.append x) hno

end Ahead

/-- Frames written by `encode` are in range. -/
theorem lengthsInRange_encode (payloads : List Bytes) (hp : ∀ p ∈ payloads, p.length < 2^63) :
    LengthsInRange past (payloads.map encode).flatten := by
  induction payloads with
  | nil => exact lengthsInRange_of_waits (d := ⟨[]⟩) rfl
  | cons p ps ih =>
    have hpoll := pollFrames_encode p (ps.map encode).flatten (hp p List.mem_cons_self)
    have hm := polled (encode p ++ (ps.map encode).flatten)
    rw [List.map_cons, List.flatten_cons]
    generalize he : (Decoder.mk (encode p ++ (ps.map encode).flatten)).nextMessage = m at hm
    -- the first call gives the first payload
    cases hm with
    | body body rest hbody =>
      obtain ⟨-, rfl⟩ := Poll.item.inj (hbody.symm.trans hpoll)
      have hps := ih fun q hq => hp q (List.mem_cons_of_mem p hq)
      rw [← List.append_nil (encode p ++ _), lengthsInRange_body he, List.append_nil]
      exact hps
    | panic h => cases h.symm.trans hpoll
    | wait h => cases h.symm.trans hpoll
    | error e rest h => cases h.symm.trans hpoll

end Reaches

/-- What a user of the decoder can do with it. -/
inductive DecoderOp where
  | push (bytes : Bytes)
  | next

def DecoderOp.bytes : DecoderOp → Bytes
  | .push bytes => bytes
  | .next => []

namespace Decoder

/-- One operation; `none` where it panics. -/
def step (d : Decoder) : DecoderOp → Option Decoder
  | .push bytes => some (d.push bytes)
  | .next => d.nextMessage.map Prod.snd

/-- The bytes pushed so far. -/
def pushes (h : List (Decoder × DecoderOp)) : Bytes := h.flatMap fun p => p.2.bytes

theorem pushes_append (h h' : List (Decoder × DecoderOp)) :
    pushes (h ++ h') = pushes h ++ pushes h' := List.flatMap_append

variable {d t : Decoder} {h : List (Decoder × DecoderOp)}

theorem pushes_push (d : Decoder) (bytes : Bytes) : pushes [(d, .push bytes)] = bytes :=
  List.flatMap_singleton _ _

/-- A call keeps what lies ahead in range. -/
theorem lengthsInRange_next {x : Bytes} {r : Result (Option Bytes)}
    (hm : d.nextMessage = some (r, t)) (hd : LengthsInRange True (d.buf ++ x)) :
    LengthsInRange True (t.buf ++ x) := by
  rcases r with e | _ | body
  · exact (lengthsInRange_error hm).mp hd trivial
  · rw [nextMessage_waits hm]
    exact hd
  · exact (lengthsInRange_body hm).mp hd

/-- In range on the stream, in range on the buffer with the rest of the stream. -/
theorem lengthsInRange_of_run (hr : Run (Steps step) new h d) :
    ∀ x, LengthsInRange True (pushes h ++ x) → LengthsInRange True (d.buf ++ x) := by
  apply hr.induct (fun h d => ∀ x, LengthsInRange True (pushes h ++ x) →
    LengthsInRange True (d.buf ++ x)) (fun x hx => hx)
  intro h d op t _ ih hst x hx
  rw [pushes_append] at hx
  cases op with
  | push bytes =>
    obtain rfl := Option.some.inj hst
    rw [pushes_push, List.append_assoc] at hx
    rw [push, List.append_assoc]
    exact ih _ hx
  | next =>
    obtain ⟨⟨r, t⟩, hm, rfl⟩ := Option.map_eq_some_iff.mp hst
    have hnext : pushes [(d, .next)] = [] := rfl
    rw [hnext, List.append_nil] at hx
    exact lengthsInRange_next hm (ih x hx)

/-- Calls that go past errors come to every header that is reached, or panic before. -/
theorem panics_of_reaches {b t : Bytes} (hr : Reaches True b t) (hout : ¬LengthInRange t) :
    ∃ h d, Run (Steps step) ⟨b⟩ h d ∧ pushes h = [] ∧ d.nextMessage = none := by
  -- either the buffer at hand panics, or one call leads on
  have hhere (b : Bytes) (hb : ¬LengthInRange b) :
      ∃ h d, Run (Steps step) ⟨b⟩ h d ∧ pushes h = [] ∧ d.nextMessage = none :=
    ⟨[], ⟨b⟩, .start _ _, rfl, (nextMessage_eq_none_iff b).mpr hb⟩
  have hgo {b rest : Bytes} {r : Result (Option Bytes)}
      (hm : (Decoder.mk b).nextMessage = some (r, ⟨rest⟩))
      (ih : ∃ h d, Run (Steps step) ⟨rest⟩ h d ∧ pushes h = [] ∧ d.nextMessage = none) :
      ∃ h d, Run (Steps step) ⟨b⟩ h d ∧ pushes h = [] ∧ d.nextMessage = none := by
    obtain ⟨h, d, hr, hp, hn⟩ := ih
    have hst : Steps step ⟨b⟩ .next ⟨rest⟩ := Option.map_eq_some_iff.mpr ⟨_, hm, rfl⟩
    exact ⟨_, d, ((Run.start _ _).snoc hst).trans hr, by rw [pushes_append, hp]; rfl, hn⟩
  induction hr with
  | refl b => exact hhere b hout
  | @frame b _ _ _ _ ht hw _ ih =>
    by_cases hb : LengthInRange b
    · exact hgo ((nextMessage_body_iff hb _ _).mpr ⟨_, ht, hw⟩) (ih hout)
    · exact hhere b hb
  | @malformed b _ _ _ _ ht hno _ ih =>
    obtain ⟨e, hm⟩ := (nextMessage_error_iff b _).mpr ⟨_, ht, hno⟩
    exact hgo hm (ih hout)

/-- However a stream is cut and however often `next_message` is called in between, no call panics:
exactly if every length stays in range. -/
theorem never_panics_iff (stream : Bytes) :
    (∀ h d, Run (Steps step) new h d → pushes h <+: stream → d.nextMessage ≠ none) ↔
      LengthsInRange True stream := by
  constructor
  · intro hsafe t hr
    by_contra hout
    -- the whole stream in one push, and then calls only
    obtain ⟨h, d, hrun, hp, hn⟩ := panics_of_reaches hr hout
    have hst : Steps step new (.push stream) ⟨stream⟩ := rfl
    refine hsafe _ d (((Run.start _ _).snoc hst).trans hrun) ?_ hn
    rw [pushes_append, hp, List.append_nil, List.nil_append, pushes_push]
  · rintro hin h d hr ⟨x, rfl⟩ hn
    exact not_lengthsInRange_of_panic hn (lengthsInRange_of_run hr x hin)

end Decoder

/-- The steps of the reader thread. -/
def Action.ofReader : Action → Bool
  | .read _ | .readEnd | .decode _ | .dropWriter | .clear => true
  | _ => false

namespace Connection

variable {json : Json} {s t : Connection} {a : Action} {h : List (Connection × Action)}

/-- Where a call of `next_message` leaves the reader. -/
def readerAfter : Option (Result (Option Bytes) × Decoder) → ReaderState
  | none => .panicked
  | some (.error _, _) => .left
  | some (.ok none, _) => .reading
  | some (.ok (some _), _) => .decoding

theorem reader_decodeNext (json : Json) (hs : s.reader = .decoding) (o : WriteOutcome) :
    (s.decodeNext json o).reader = readerAfter s.decoder.nextMessage := by
  unfold decodeNext
  rcases s.decoder.nextMessage with _ | ⟨(e | _ | body), d⟩
  · rfl
  · rfl
  · rfl
  · dsimp only
    cases json.fromSlice body with
    | none => exact hs
    | some msg => exact (reader_dispatch json s d msg o).1.trans hs

/-- Only the reader thread moves the reader, and only it reads. -/
theorem reader_of_other (hst : s.step json a = some t) (ha : a.ofReader = false) :
    t.reader = s.reader ∧ t.decoder = s.decoder ∧ chunkOf (s, a) = [] := by
  cases read_case hst with
  | other a t hchunk _ _ hr hd => exact ⟨hr, hd, hchunk⟩
  | _ => cases ha

/-- How many steps the reader can take before it reads again, at most. -/
def room (s : Connection) : ℕ :=
  match s.reader with
  | .reading => s.decoder.buf.length + 3
  | .decoding => s.decoder.buf.length + 4
  | .left => 2
  | .writerDropped => 1
  | .cleared | .panicked => 0

theorem room_decodeNext (json : Json) (hs : s.reader = .decoding) (o : WriteOutcome) :
    (s.decodeNext json o).room < s.room := by
  have hroom : s.room = s.decoder.buf.length + 4 := by
    unfold room
    rw [hs]
  have hr := reader_decodeNext json hs o
  rw [hroom]
  rcases hm : s.decoder.nextMessage with _ | ⟨(e | _ | body), d⟩
  all_goals
    rw [hm] at hr
    unfold room
    rw [hr]
    dsimp only [readerAfter]
  · omega
  · omega
  · rw [decoder_decodeNext json hm o, nextMessage_waits hm]
    exact Nat.lt_succ_self _
  · have hshrink := decodeNext_shrinks hr
    omega

/-- Every step of the reader uses up room, and only what it reads gives it more. -/
theorem room_step (hst : s.step json a = some t) :
    (if a.ofReader then 1 else 0) + t.room ≤ s.room + 3 * (chunkOf (s, a)).length := by
  cases ha : a.ofReader with
  | false =>
    obtain ⟨hr, hd, -⟩ := reader_of_other hst ha
    have hroom : t.room = s.room := by
      unfold room
      rw [hr, hd]
    rw [hroom]
    exact le_add_right (Nat.zero_add _).le
  | true =>
    rw [if_pos rfl]
    cases a with
    | read chunk =>
      -- a chunk is not empty
      obtain ⟨⟨hr, hpos, -⟩, ⟨⟩⟩ := Option.ite_none_right_eq_some.mp hst
      simp only [room, hr, chunkOf, Decoder.push, List.length_append]
      omega
    | readEnd =>
      obtain ⟨hr, ⟨⟩⟩ := Option.ite_none_right_eq_some.mp hst
      simp only [room, hr]
      omega
    | decode o =>
      obtain ⟨hr, ⟨⟩⟩ := Option.ite_none_right_eq_some.mp hst
      have hlt := room_decodeNext json hr o
      omega
    | dropWriter =>
      obtain ⟨hr, ⟨⟩⟩ := Option.ite_none_right_eq_some.mp hst
      simp only [room, hr]
      omega
    | clear =>
      obtain ⟨hr, ⟨⟩⟩ := Option.ite_none_right_eq_some.mp hst
      simp only [room, hr]
      omega
    | _ => cases ha

/-- The steps of the reader thread in a run. -/
def readerSteps (h : List (Connection × Action)) : ℕ := h.countP fun p => p.2.ofReader

theorem readerSteps_le (hr : Run (Steps (step json)) new h s) :
    readerSteps h + s.room ≤ 3 * (reads h).length + 3 := by
  apply hr.induct (fun h s => readerSteps h + s.room ≤ 3 * (reads h).length + 3)
  · exact Nat.le_refl 3
  · intro h s a t _ ih hst
    have hstep := room_step hst
    have hsnoc : readerSteps (h ++ [(s, a)]) = readerSteps h + if a.ofReader then 1 else 0 :=
      countP_snoc _ h (s, a)
    calc readerSteps (h ++ [(s, a)]) + t.room
      _ = readerSteps h + ((if a.ofReader then 1 else 0) + t.room) := by
          rw [hsnoc, Nat.add_assoc]
      _ ≤ readerSteps h + (s.room + 3 * (chunkOf (s, a)).length) := Nat.add_le_add_left hstep _
      _ ≤ 3 * (reads h).length + 3 + 3 * (chunkOf (s, a)).length := by omega
      _ = 3 * (reads (h ++ [(s, a)])).length + 3 := by
          rw [reads_snoc, List.length_append]
          omega

/-- Unless it is done or has panicked, the reader thread has a next step. -/
theorem reader_goes_on (json : Json) (s : Connection) : s.reader = .cleared ∨
    s.reader = .panicked ∨ ∃ a t, a.ofReader = true ∧ s.step json a = some t := by
  cases hr : s.reader with
  | reading => exact .inr (.inr ⟨.readEnd, _, rfl, if_pos hr⟩)
  | decoding => exact .inr (.inr ⟨.decode .done, _, rfl, if_pos hr⟩)
  | left => exact .inr (.inr ⟨.dropWriter, _, rfl, if_pos hr⟩)
  | writerDropped => exact .inr (.inr ⟨.clear, _, rfl, if_pos hr⟩)
  | cleared => exact .inl rfl
  | panicked => exact .inr (.inl rfl)

/-- The reader has not panicked, and what lies ahead of it is in range. -/
def Ahead (s : Connection) (x : Bytes) : Prop :=
  s.reader ≠ .panicked ∧
    (s.reader = .reading ∨ s.reader = .decoding → LengthsInRange False (s.decoder.buf ++ x))

theorem ahead_step {x : Bytes} (hst : s.step json a = some t)
    (hs : s.Ahead (chunkOf (s, a) ++ x)) : t.Ahead x := by
  obtain ⟨hp, hin⟩ := hs
  cases ha : a.ofReader with
  | false =>
    obtain ⟨hr, hd, hchunk⟩ := reader_of_other hst ha
    rw [hchunk] at hin
    unfold Ahead
    rw [hr, hd]
    exact ⟨hp, hin⟩
  | true =>
    cases a with
    | read chunk =>
      obtain ⟨⟨hr, -⟩, ⟨⟩⟩ := Option.ite_none_right_eq_some.mp hst
      refine ⟨by simp, fun _ => ?_⟩
      change LengthsInRange False ((s.decoder.buf ++ chunk) ++ x)
      rw [List.append_assoc]
      exact hin (.inl hr)
    | decode o =>
      obtain ⟨hr, ⟨⟩⟩ := Option.ite_none_right_eq_some.mp hst
      have hx : LengthsInRange False (s.decoder.buf ++ x) := hin (.inr hr)
      have hr' := reader_decodeNext json hr o
      rcases hm : s.decoder.nextMessage with _ | ⟨(e | _ | body), d⟩
      · exact absurd hx (not_lengthsInRange_of_panic hm)
      -- an error, an incomplete frame and a body leave the reader in three different states
      all_goals
        rw [hm] at hr'
        unfold Ahead
        rw [hr', decoder_decodeNext json hm o]
      · exact ⟨by simp [readerAfter], by simp [readerAfter]⟩
      · rw [nextMessage_waits hm]
        exact ⟨by simp [readerAfter], fun _ => hx⟩
      · exact ⟨by simp [readerAfter], fun _ => (lengthsInRange_body hm).mp hx⟩
    | readEnd =>
      obtain ⟨-, ⟨⟩⟩ := Option.ite_none_right_eq_some.mp hst
      exact ⟨by simp, by simp⟩
    | dropWriter =>
      obtain ⟨-, ⟨⟩⟩ := Option.ite_none_right_eq_some.mp hst
      exact ⟨by simp, by simp⟩
    | clear =>
      obtain ⟨-, ⟨⟩⟩ := Option.ite_none_right_eq_some.mp hst
      exact ⟨by simp, by simp⟩
    | _ => cases ha

theorem ahead_of_run (hr : Run (Steps (step json)) new h s) :
    ∀ x, LengthsInRange False (reads h ++ x) → s.Ahead x := by
  apply hr.induct (fun h s => ∀ x, LengthsInRange False (reads h ++ x) → s.Ahead x)
  · exact fun x hx => ⟨by simp [new], fun _ => hx⟩
  · intro h s a t _ ih hst x hx
    rw [reads_snoc, List.append_assoc] at hx
    exact ahead_step hst (ih _ hx)

/-- From here the reader alone can panic, reading no more than `x`. -/
def CanPanic (json : Json) (s : Connection) (x : Bytes) : Prop :=
  ∃ h t, Run (Steps (step json)) s h t ∧ reads h <+: x ∧ t.reader = .panicked

theorem CanPanic.after {x : Bytes} (hst : s.step json a = some t) (ht : t.CanPanic json x) :
    s.CanPanic json (chunkOf (s, a) ++ x) := by
  obtain ⟨h, u, hr, hx, hu⟩ := ht
  have hone : Run (Steps (step json)) s [(s, a)] t := (Run.start _ s).snoc hst
  have hreads : reads [(s, a)] = chunkOf (s, a) := List.flatMap_singleton _ _
  refine ⟨_, u, hone.trans hr, ?_, hu⟩
  rw [reads_append, hreads]
  exact (List.prefix_append_right_inj _).mpr hx

/-- A decoding reader goes on until it panics or reads again: by induction on the buffer. -/
theorem canPanic_decoding {x : Bytes}
    (hreading : ∀ s : Connection, s.reader = .reading →
      s.decoder.nextMessage = some (.ok none, s.decoder) →
      ¬LengthsInRange False (s.decoder.buf ++ x) → s.CanPanic json x)
    (s : Connection) (hs : s.reader = .decoding)
    (hout : ¬LengthsInRange False (s.decoder.buf ++ x)) : s.CanPanic json x := by
  induction hn : s.decoder.buf.length using Nat.strongRecOn generalizing s with
  | ind n ih =>
    subst hn
    have hst : s.step json (.decode .done) = some (s.decodeNext json .done) := if_pos hs
    have hr := reader_decodeNext json hs .done
    -- the round reads nothing
    apply CanPanic.after (x := x) hst
    rcases hm : s.decoder.nextMessage with _ | ⟨(e | _ | body), d⟩
    all_goals rw [hm] at hr
    · exact ⟨[], _, .start _ _, List.nil_prefix, hr⟩
    · -- the loop ends at an error, and nothing behind it counts
      exact absurd ((lengthsInRange_error hm).mpr False.elim) hout
    · have hd := decoder_decodeNext json hm .done
      obtain rfl : d = s.decoder := nextMessage_waits hm
      apply hreading _ hr
      · rw [hd]
        exact hm
      · rw [hd]
        exact hout
    · have hd := decoder_decodeNext json hm .done
      have hshrink := decodeNext_shrinks hr
      refine ih _ (by omega) _ hr ?_ rfl
      rw [hd]
      exact fun hin => hout ((lengthsInRange_body hm).mpr hin)

/-- Where a length ahead leaves the range the reader comes to it, if it reads byte by byte. -/
theorem canPanic_reading (x : Bytes) : ∀ s : Connection, s.reader = .reading →
    s.decoder.nextMessage = some (.ok none, s.decoder) →
    ¬LengthsInRange False (s.decoder.buf ++ x) → s.CanPanic json x := by
  induction x with
  | nil =>
    -- nothing more to read, and the buffer holds no whole frame
    intro s _ hm hout
    rw [List.append_nil] at hout
    exact absurd (lengthsInRange_of_waits hm) hout
  | cons b x ih =>
    intro s hs _ hout
    have hst : s.step json (.read [b]) =
        some { s with decoder := s.decoder.push [b], reader := .decoding } :=
      if_pos ⟨hs, Nat.one_pos, by simp [chunkSize]⟩
    refine CanPanic.after (x := x) hst (canPanic_decoding ih _ rfl ?_)
    change ¬LengthsInRange False ((s.decoder.buf ++ [b]) ++ x)
    rw [List.append_assoc]
    exact hout

/-- On what it reads of a stream the reader thread comes to its end: exactly if every length that
`read_loop` gets to stays in range. -/
theorem reader_ends_iff (json : Json) (stream : Bytes) :
    (∀ h s, Run (Steps (step json)) new h s → reads h <+: stream → s.reader ≠ .panicked ∧
      readerSteps h ≤ 3 * stream.length + 3 ∧
      (s.reader = .cleared ∨ ∃ a t, a.ofReader = true ∧ s.step json a = some t)) ↔
    LengthsInRange False stream := by
  constructor
  · intro hsafe
    by_contra hout
    obtain ⟨h, s, hr, hx, hs⟩ := canPanic_reading stream new rfl rfl hout
    exact (hsafe h s hr hx).1 hs
  · rintro hin h s hr ⟨x, rfl⟩
    have hp := (ahead_of_run hr x hin).1
    have hsteps := readerSteps_le hr
    refine ⟨hp, ?_, ?_⟩
    · rw [List.length_append]
      omega
    · rcases reader_goes_on json s with hs | hs | hs
      · exact .inl hs
      · exact absurd hs hp
      · exact .inr hs

end Connection

/-- Every addition and slice of `next_message` stays in range, whatever the chunks and the calls:
exactly if no header that is reached declares a length that leaves the range of `usize`. The
decoder alone reaches the headers behind malformed ones as well; `read_loop`, which ends at the
first of them, comes to its end and to the clearing of the map exactly if the lengths up to there
stay in range. -/
theorem decoder_in_range_iff (stream : Bytes) :
    (∀ checked (d : Decoder), d.buf.length < 2^64 →
      d.nextMessageWith checked = d.nextMessage) ∧
    ((∀ h d, Run (Steps Decoder.step) Decoder.new h d → Decoder.pushes h <+: stream →
      d.nextMessage ≠ none) ↔ LengthsInRange True stream) ∧
    ∀ json, (∀ h s, Run (Steps (Connection.step json)) Connection.new h s →
      Connection.reads h <+: stream → s.reader ≠ .panicked ∧
      Connection.readerSteps h ≤ 3 * stream.length + 3 ∧
      (s.reader = .cleared ∨ ∃ a t, a.ofReader = true ∧ s.step json a = some t)) ↔
      LengthsInRange False stream :=
  ⟨nextMessageWith_eq, Decoder.never_panics_iff stream,
    fun json => Connection.reader_ends_iff json stream⟩

/-- A header that declares the largest `usize`. -/
def hugeLength : Bytes := strBytes (headerLine (2^64 - 1)) ++ crlfcrlf

theorem nextMessage_hugeLength : (Decoder.mk hugeLength).nextMessage = none := by
  apply (nextMessage_eq_none_iff _).mpr
  intro hin
  have hfind := findSubslice_after (strBytes (headerLine (2^64 - 1))) [] (headerLine_no_cr _)
  have ht : FirstTerminator hugeLength (strBytes (headerLine (2^64 - 1))) [] := by
    rw [List.append_nil] at hfind
    refine (findSubslice_iff _ _ _).mpr ⟨hfind, (List.take_left' rfl).symm, ?_⟩
    exact (List.drop_eq_nil_of_le (by simp [hugeLength, crlfcrlf])).symm
  have hw : WellFormed (strBytes (headerLine (2^64 - 1))) (2^64 - 1) :=
    (headerLength_eq_ok_iff _ _).mp (headerLength_headerLine _ (by decide))
  have hlt := hin _ _ _ ht hw
  omega

namespace Connection

/-- A reader with nothing buffered that reads a chunk on which `next_message` panics. -/
theorem panics_on_read (json : Json) (s : Connection) {chunk : Bytes} (hs : s.reader = .reading)
    (hd : s.decoder = .new) (hlen : 0 < chunk.length ∧ chunk.length ≤ chunkSize)
    (hn : (Decoder.mk chunk).nextMessage = none) :
    ∃ h, Run (Steps (step json)) s h { s with decoder := ⟨chunk⟩, reader := .panicked } ∧
      h.map Prod.snd = [.read chunk, .decode .done] ∧ reads h = chunk := by
  have hread : Steps (step json) s (.read chunk)
      { s with decoder := ⟨chunk⟩, reader := .decoding } := by
    rw [Steps, step, if_pos ⟨hs, hlen⟩, hd]
    rfl
  have hdecode : Steps (step json) { s with decoder := ⟨chunk⟩, reader := .decoding }
      (.decode .done) { s with decoder := ⟨chunk⟩, reader := .panicked } := by
    rw [Steps, step, if_pos rfl]
    unfold decodeNext
    rw [hn]
  exact ⟨_, ((Run.start _ s).snoc hread).snoc hdecode, rfl, by simp [reads, chunkOf]⟩

theorem stuck_of_panicked {json : Json} {s : Connection} {a : Action} (hs : s.reader = .panicked)
    (ha : a.ofReader = true) : s.step json a = none := by
  cases a with
  | read | readEnd | decode | dropWriter | clear => simp [step, hs]
  | _ => cases ha

end Connection

/-- A call that waits for its answer when the header arrives. -/
def callThenHugeLength : List Action :=
  [.call "shutdown" .null 5000, .register 0, .write 0 .done, .read hugeLength, .decode .done]

/-- One push and one call are enough, with and without overflow checks; and the reader thread
panics, leaves the waiting call in the map and takes no further step. -/
theorem decoder_leaves_range :
    (∀ checked, (Decoder.mk hugeLength).nextMessageWith checked = none) ∧
    (∃ h d, Run (Steps Decoder.step) Decoder.new h d ∧ Decoder.pushes h = hugeLength ∧
      d.nextMessage = none) ∧
    ∃ h s, Run (Steps (Connection.step sampleJson)) Connection.new h s ∧
      h.map Prod.snd = callThenHugeLength ∧ Connection.reads h = hugeLength ∧
      s.reader = .panicked ∧ s.pending.lookup 1 = some 0 ∧
      ∀ a, a.ofReader = true → s.step sampleJson a = none := by
  have hlen := headerLine_length (2^64 - 1) (by decide)
  have hsize : hugeLength.length = (strBytes (headerLine (2^64 - 1))).length + 4 := by
    simp [hugeLength, crlfcrlf]
  refine ⟨fun checked => ?_, ?_, ?_⟩
  · rw [nextMessageWith_eq checked _ (by dsimp only; omega)]
    exact nextMessage_hugeLength
  · have hst : Steps Decoder.step Decoder.new (.push hugeLength) ⟨hugeLength⟩ := rfl
    exact ⟨_, _, (Run.start _ _).snoc hst, Decoder.pushes_push _ _, nextMessage_hugeLength⟩
  · obtain ⟨h, s, hcall, hactions, hreads, hreader, hdecoder, hentry⟩ :
        ∃ h s, Run (Steps (Connection.step sampleJson)) Connection.new h s ∧
          h.map Prod.snd = [.call "shutdown" .null 5000, .register 0, .write 0 .done] ∧
          Connection.reads h = [] ∧ s.reader = .reading ∧ s.decoder = .new ∧
          s.pending.lookup 1 = some 0 := by
      have hr := run_of_exec (Connection.step sampleJson) Connection.new
        [.call "shutdown" .null 5000, .register 0, .write 0 .done] rfl
      exact ⟨_, _, hr, rfl, rfl, rfl, rfl, by decide⟩
    have hfits : 0 < hugeLength.length ∧ hugeLength.length ≤ Connection.chunkSize := by
      rw [hsize, Connection.chunkSize]
      omega
    obtain ⟨h', hr, hactions', hreads'⟩ := Connection.panics_on_read sampleJson s hreader hdecoder
      hfits nextMessage_hugeLength
    refine ⟨_, _, hcall.trans hr, ?_, ?_, rfl, hentry, fun a => Connection.stuck_of_panicked rfl⟩
    · rw [List.map_append, hactions, hactions']
      rfl
    · rw [Connection.reads_append, hreads, hreads', List.nil_append]

end LspGraph
