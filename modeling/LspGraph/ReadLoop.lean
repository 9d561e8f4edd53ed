import LspGraph.Connection
import LspGraph.FrameDecoding

/-! The read loop as a function of the bytes alone: which bodies it dispatches, and at what it
stops, does not depend on how the bytes arrive. -/
namespace LspGraph
open Runs Streaming

/-- Why `read_loop` ends. -/
inductive Stop where
  /-- End of file, or a read error. -/
  | eof
  /-- A frame that cannot be parsed. -/
  | error (e : Error)
  | panic
  deriving DecidableEq

/-- What `read_loop` makes of a stream whose results are these: the bodies up to the first error,
and the end. -/
def loopOutcome (alive : Bool) : List (Result Bytes) → List Bytes × Stop
  | [] => ([], if alive then .eof else .panic)
  | .ok body :: rest => (body :: (loopOutcome alive rest).1, (loopOutcome alive rest).2)
  | .error e :: _ => ([], .error e)

/-- The outcome of `read_loop` on a stream that is read to its end. -/
def readLoop (stream : Bytes) : List Bytes × Stop :=
  loopOutcome (frames.drain stream).2.isSome (frames.drain stream).1

theorem loopOutcome_ok (alive : Bool) (bodies : List Bytes) :
    loopOutcome alive (bodies.map .ok) = (bodies, if alive then .eof else .panic) := by
  induction bodies with
  | nil => rfl
  | cons body bodies ih => rw [List.map_cons, loopOutcome, ih]

theorem loopOutcome_error (alive : Bool) (bodies : List Bytes) (e : Error)
    (rest : List (Result Bytes)) :
    loopOutcome alive (bodies.map .ok ++ .error e :: rest) = (bodies, .error e) := by
  induction bodies with
  | nil => rfl
  | cons body bodies ih => rw [List.map_cons, List.cons_append, loopOutcome, ih]

/-- One call of `next_message`, by what it does to the buffer. -/
inductive Polled (b : Bytes) : Option (Result (Option Bytes) × Decoder) → Prop where
  | panic : frames.poll b = .abort → Polled b none
  | wait : frames.poll b = .wait → Polled b (some (.ok none, ⟨b⟩))
  | body (body rest : Bytes) : frames.poll b = .item (.ok body) rest →
      Polled b (some (.ok (some body), ⟨rest⟩))
  | error (e : Error) (rest : Bytes) : frames.poll b = .item (.error e) rest →
      Polled b (some (.error e, ⟨rest⟩))

theorem polled (b : Bytes) : Polled b (Decoder.mk b).nextMessage := by
  have hpoll : frames.poll b = pollFrames b := rfl
  unfold pollFrames at hpoll
  rw [nextMessage_eq] at hpoll ⊢
  cases hf : findSubslice b crlfcrlf with
  | none =>
    rw [hf] at hpoll
    exact .wait hpoll
  | some e =>
    rw [hf] at hpoll
    dsimp only at hpoll ⊢
    cases hl : headerLength (b.take e) with
    | error err =>
      rw [hl] at hpoll
      exact .error err _ hpoll
    | ok len =>
      rw [hl] at hpoll
      dsimp only at hpoll ⊢
      split_ifs at hpoll ⊢
      · exact .panic hpoll
      · exact .wait hpoll
      · exact .body _ _ hpoll

namespace Connection

variable {json : Json} {s t s' : Connection} {h h' : List (Connection × Action)}

/-- The bytes that a step reads. -/
def chunkOf : Connection × Action → Bytes
  | (_, .read chunk) => chunk
  | _ => []

/-- The body that a step decodes, and dispatches if it is JSON. -/
def bodyOf : Connection × Action → Option Bytes
  | (s, .decode _) =>
    match s.decoder.nextMessage with
    | some (.ok body, _) => body
    | _ => none
  | _ => none

def stopOf : Connection × Action → Option Stop
  | (_, .readEnd) => some .eof
  | (s, .decode _) =>
    match s.decoder.nextMessage with
    | none => some .panic
    | some (.error e, _) => some (.error e)
    | _ => none
  | _ => none

def reads (h : List (Connection × Action)) : Bytes := h.flatMap chunkOf

def bodies (h : List (Connection × Action)) : List Bytes := h.filterMap bodyOf

def stops (h : List (Connection × Action)) : List Stop := h.filterMap stopOf

/-- The reader of the run has stopped, on a server that sends the stream. -/
structure Finished (h : List (Connection × Action)) (stream : Bytes) (stop : Stop) : Prop where
  stops : stops h = [stop]
  reads : reads h <+: stream
  whole : stop = .eof → Connection.reads h = stream

/-- What a step does to the reader and its decoder. -/
inductive ReadCase (s : Connection) : Action → Connection → Prop where
  | other (a : Action) (t : Connection) : chunkOf (s, a) = [] → bodyOf (s, a) = none →
      stopOf (s, a) = none → t.reader = s.reader → t.decoder = s.decoder → ReadCase s a t
  | read (chunk : Bytes) (t : Connection) : s.reader = .reading → t.reader = .decoding →
      t.decoder = s.decoder.push chunk → ReadCase s (.read chunk) t
  | readEnd (t : Connection) : s.reader = .reading → t.reader = .left → ReadCase s .readEnd t
  | panicked (o : WriteOutcome) (t : Connection) : s.reader = .decoding →
      frames.poll s.decoder.buf = .abort → bodyOf (s, .decode o) = none →
      stopOf (s, .decode o) = some .panic → t.reader = .panicked → ReadCase s (.decode o) t
  | drained (o : WriteOutcome) (t : Connection) : s.reader = .decoding →
      frames.poll s.decoder.buf = .wait → bodyOf (s, .decode o) = none →
      stopOf (s, .decode o) = none → t.reader = .reading → t.decoder = s.decoder →
      ReadCase s (.decode o) t
  | decoded (o : WriteOutcome) (t : Connection) (body rest : Bytes) : s.reader = .decoding →
      frames.poll s.decoder.buf = .item (.ok body) rest → bodyOf (s, .decode o) = some body →
      stopOf (s, .decode o) = none → t.reader = .decoding → t.decoder = ⟨rest⟩ →
      ReadCase s (.decode o) t
  | failed (o : WriteOutcome) (t : Connection) (e : Error) (rest : Bytes) :
      s.reader = .decoding → frames.poll s.decoder.buf = .item (.error e) rest →
      bodyOf (s, .decode o) = none → stopOf (s, .decode o) = some (.error e) →
      t.reader = .left → ReadCase s (.decode o) t
  | dropWriter (t : Connection) : s.reader = .left → t.reader = .writerDropped →
      ReadCase s .dropWriter t
  | clear (t : Connection) : s.reader = .writerDropped → t.reader = .cleared →
      ReadCase s .clear t

theorem reader_dispatch (json : Json) (s : Connection) (d : Decoder) (msg : Value)
    (outcome : WriteOutcome) :
    (dispatch json { s with decoder := d } msg outcome).reader = s.reader ∧
      (dispatch json { s with decoder := d } msg outcome).decoder = d := by
  rcases dispatch_eq json s d msg outcome with ⟨id, c, -, -, he⟩ | ⟨-, w, ns, he⟩
  · rw [he]
    exact ⟨rfl, rfl⟩
  · rw [he]
    exact ⟨rfl, rfl⟩

theorem decoder_decodeNext (json : Json) {m : Result (Option Bytes)} {d : Decoder}
    (h : s.decoder.nextMessage = some (m, d)) (outcome : WriteOutcome) :
    (s.decodeNext json outcome).decoder = d := by
  unfold decodeNext
  rw [h]
  rcases m with e | _ | body
  · rfl
  · rfl
  · dsimp only
    cases json.fromSlice body with
    | none => rfl
    | some msg => exact (reader_dispatch json s d msg outcome).2

theorem bodyOf_decode (s : Connection) (o : WriteOutcome) : bodyOf (s, .decode o) =
    match s.decoder.nextMessage with
    | some (.ok body, _) => body
    | _ => none := rfl

theorem decode_readCase (json : Json) (o : WriteOutcome) (hr : s.reader = .decoding) :
    ReadCase s (.decode o) (s.decodeNext json o) := by
  have hp := polled s.decoder.buf
  have hbody := bodyOf_decode s o
  have hstop : stopOf (s, .decode o) =
      match s.decoder.nextMessage with
      | none => some .panic
      | some (.error e, _) => some (.error e)
      | _ => none := rfl
  unfold decodeNext
  change Polled s.decoder.buf s.decoder.nextMessage at hp
  generalize s.decoder.nextMessage = m at hp hbody hstop
  cases hp with
  | panic hp => exact .panicked o _ hr hp hbody hstop rfl
  | wait hp => exact .drained o _ hr hp hbody hstop rfl rfl
  | error e rest hp => exact .failed o _ e rest hr hp hbody hstop rfl
  | body body rest hp =>
    refine .decoded o _ body rest hr hp hbody hstop ?_ ?_
    · dsimp only
      cases json.fromSlice body with
      | none => exact hr
      | some msg => exact (reader_dispatch json s ⟨rest⟩ msg o).1.trans hr
    · dsimp only
      cases json.fromSlice body with
      | none => rfl
      | some msg => exact (reader_dispatch json s ⟨rest⟩ msg o).2

/-- A step of a calling thread leaves the reader alone. -/
theorem reader_of_ofCall {a : Action} (hst : StepCase json s a t) (ha : a.ofCall ≠ none) :
    t.reader = s.reader ∧ t.decoder = s.decoder := by
  cases hst with
  | quiet a _ _ _ _ hn => exact absurd hn ha
  | call => exact ⟨rfl, rfl⟩
  | resolved => exact absurd rfl ha
  | clear => exact absurd rfl ha
  | _ => exact ⟨rfl, rfl⟩

theorem read_case {a : Action} (hst : s.step json a = some t) : ReadCase s a t := by
  have hcall (ha : a.ofCall ≠ none) (h₁ : chunkOf (s, a) = []) (h₂ : bodyOf (s, a) = none)
      (h₃ : stopOf (s, a) = none) : ReadCase s a t := by
    obtain ⟨hr, hd⟩ := reader_of_ofCall (step_case hst) ha
    exact .other a t h₁ h₂ h₃ hr hd
  cases a with
  | call method params timeout =>
    obtain rfl := Option.some.inj hst
    exact .other _ _ rfl rfl rfl rfl rfl
  | register c => exact hcall (by simp [Action.ofCall]) rfl rfl rfl
  | write c o => exact hcall (by simp [Action.ofCall]) rfl rfl rfl
  | receive c => exact hcall (by simp [Action.ofCall]) rfl rfl rfl
  | expire c => exact hcall (by simp [Action.ofCall]) rfl rfl rfl
  | unregister c => exact hcall (by simp [Action.ofCall]) rfl rfl rfl
  | notify method params o =>
    obtain ⟨w, hw, -⟩ := writeMessage_eq json s (notifyMessage method params) o
    obtain rfl := (Option.some.inj hst).symm.trans hw
    exact .other _ _ rfl rfl rfl rfl rfl
  | read chunk =>
    obtain ⟨⟨hr, -⟩, ⟨⟩⟩ := Option.ite_none_right_eq_some.mp hst
    exact .read chunk _ hr rfl rfl
  | readEnd =>
    obtain ⟨hr, ⟨⟩⟩ := Option.ite_none_right_eq_some.mp hst
    exact .readEnd _ hr rfl
  | decode o =>
    obtain ⟨hr, ⟨⟩⟩ := Option.ite_none_right_eq_some.mp hst
    exact decode_readCase json o hr
  | dropWriter =>
    obtain ⟨hr, ⟨⟩⟩ := Option.ite_none_right_eq_some.mp hst
    exact .dropWriter _ hr rfl
  | clear =>
    obtain ⟨hr, ⟨⟩⟩ := Option.ite_none_right_eq_some.mp hst
    exact .clear _ hr rfl

/-- What the reader has done is what the bytes read so far determine. -/
def ReadSoFar (h : List (Connection × Action)) (s : Connection) : Prop :=
  match s.reader with
  | .reading =>
    stops h = [] ∧ frames.drain (reads h) = ((bodies h).map .ok, some s.decoder.buf)
  | .decoding =>
    stops h = [] ∧ frames.drain (reads h) =
      ((bodies h).map .ok ++ (frames.drain s.decoder.buf).1, (frames.drain s.decoder.buf).2)
  | .panicked =>
    stops h = [.panic] ∧ frames.drain (reads h) = ((bodies h).map .ok, none)
  | .left | .writerDropped | .cleared =>
    (stops h = [.eof] ∧ ∃ b, frames.drain (reads h) = ((bodies h).map .ok, some b)) ∨
      ∃ e rest, stops h = [.error e] ∧
        (frames.drain (reads h)).1 = (bodies h).map .ok ++ .error e :: rest

theorem reads_append : reads (h ++ h') = reads h ++ reads h' := List.flatMap_append

theorem reads_snoc (p : Connection × Action) : reads (h ++ [p]) = reads h ++ chunkOf p := by
  simp [reads]

theorem bodies_snoc (p : Connection × Action) :
    bodies (h ++ [p]) = bodies h ++ (bodyOf p).toList := filterMap_snoc bodyOf h p

theorem stops_snoc (p : Connection × Action) :
    stops (h ++ [p]) = stops h ++ (stopOf p).toList := filterMap_snoc stopOf h p

theorem readSoFar_step {a : Action} (hst : ReadCase s a t) (hi : ReadSoFar h s) :
    ReadSoFar (h ++ [(s, a)]) t := by
  unfold ReadSoFar at hi ⊢
  rw [reads_snoc, bodies_snoc, stops_snoc]
  cases hst with
  | other a t h₁ h₂ h₃ hr hd =>
    simp only [h₁, h₂, h₃, hr, hd, Option.toList_none, List.append_nil]
    exact hi
  | read chunk t hr ht hd =>
    rw [hr] at hi
    rw [ht]
    obtain ⟨hs, hdrain⟩ := hi
    refine ⟨by rw [hs]; rfl, ?_⟩
    -- draining with the chunk appended goes on from what the buffer held
    have happ := Incremental.drain_append (D := frames) (reads h) chunk
    rw [hdrain] at happ
    simp only [chunkOf, bodyOf, Option.toList_none, List.append_nil, hd]
    exact happ
  | readEnd t hr ht =>
    rw [hr] at hi
    rw [ht]
    obtain ⟨hs, hdrain⟩ := hi
    refine .inl ⟨by rw [hs]; rfl, s.decoder.buf, ?_⟩
    simp only [chunkOf, bodyOf, Option.toList_none, List.append_nil]
    exact hdrain
  | panicked o t hr hp hb hstop ht =>
    rw [hr] at hi
    rw [ht, hb, hstop]
    obtain ⟨hs, hdrain⟩ := hi
    refine ⟨by rw [hs]; rfl, ?_⟩
    simp only [chunkOf, Option.toList_none, List.append_nil]
    calc frames.drain (reads h)
      _ = ((bodies h).map .ok ++ (frames.drain s.decoder.buf).1,
            (frames.drain s.decoder.buf).2) := hdrain
      _ = ((bodies h).map .ok, none) := by rw [Incremental.drain_abort hp, List.append_nil]
  | drained o t hr hp hb hstop ht hd =>
    rw [hr] at hi
    rw [ht, hb, hstop, hd]
    obtain ⟨hs, hdrain⟩ := hi
    refine ⟨by rw [hs]; rfl, ?_⟩
    simp only [chunkOf, Option.toList_none, List.append_nil]
    calc frames.drain (reads h)
      _ = ((bodies h).map .ok ++ (frames.drain s.decoder.buf).1,
            (frames.drain s.decoder.buf).2) := hdrain
      _ = ((bodies h).map .ok, some s.decoder.buf) := by
          rw [Incremental.drain_wait hp, List.append_nil]
  | decoded o t body rest hr hp hb hstop ht hd =>
    rw [hr] at hi
    rw [ht, hb, hstop, hd]
    obtain ⟨hs, hdrain⟩ := hi
    refine ⟨by rw [hs]; rfl, ?_⟩
    simp only [chunkOf, Option.toList_some, List.append_nil]
    -- the first item of the buffer becomes the last body
    calc frames.drain (reads h)
      _ = ((bodies h).map .ok ++ (frames.drain s.decoder.buf).1,
            (frames.drain s.decoder.buf).2) := hdrain
      _ = ((bodies h).map .ok ++ .ok body :: (frames.drain rest).1, (frames.drain rest).2) := by
          rw [Incremental.drain_item hp]
      _ = ((bodies h ++ [body]).map .ok ++ (frames.drain rest).1, (frames.drain rest).2) := by
          rw [List.map_append, List.append_assoc]
          rfl
  | failed o t e rest hr hp hb hstop ht =>
    rw [hr] at hi
    rw [ht, hb, hstop]
    obtain ⟨hs, hdrain⟩ := hi
    refine .inr ⟨e, (frames.drain rest).1, by rw [hs]; rfl, ?_⟩
    simp only [chunkOf, Option.toList_none, List.append_nil]
    rw [hdrain, Incremental.drain_item hp]
  | dropWriter t hr ht =>
    rw [hr] at hi
    rw [ht]
    change _ ∨ _ at hi
    simpa [chunkOf, bodyOf, stopOf] using hi
  | clear t hr ht =>
    rw [hr] at hi
    rw [ht]
    change _ ∨ _ at hi
    simpa [chunkOf, bodyOf, stopOf] using hi

theorem readSoFar_of_run (hr : Run (Steps (step json)) new h s) : ReadSoFar h s := by
  refine hr.induct ReadSoFar ?_ fun _ _ _ _ _ hi hst => readSoFar_step (read_case hst) hi
  exact ⟨rfl, Incremental.drain_wait pollFrames_nil⟩

/-- A reader that has stopped did what the stream as a whole determines. -/
theorem readLoop_of_finished {stream : Bytes} {stop : Stop}
    (hr : Run (Steps (step json)) new h s) (hf : Finished h stream stop) :
    readLoop stream = (bodies h, stop) := by
  have hi := readSoFar_of_run hr
  obtain ⟨hstops, ⟨tail, rfl⟩, hwhole⟩ := hf
  have happ := Incremental.drain_append (D := frames) (reads h) tail
  unfold ReadSoFar at hi
  unfold readLoop
  split at hi
  · rw [hi.1] at hstops
    cases hstops
  · rw [hi.1] at hstops
    cases hstops
  · -- a panic: nothing that follows changes it
    obtain rfl : Stop.panic = stop := by simpa [hi.1] using hstops
    rw [hi.2] at happ
    rw [happ]
    exact loopOutcome_ok false (bodies h)
  all_goals
    rcases hi with ⟨hs, b, hdrain⟩ | ⟨e, rest, hs, hdrain⟩
    · -- the end of the stream
      obtain rfl : Stop.eof = stop := by simpa [hs] using hstops
      rw [← hwhole rfl, hdrain]
      exact loopOutcome_ok true (bodies h)
    · -- an error: it stays the first one whatever follows
      obtain rfl : Stop.error e = stop := by simpa [hs] using hstops
      have hfirst : ∃ more, (frames.drain (reads h ++ tail)).1 =
          (bodies h).map .ok ++ .error e :: more := by
        rw [happ]
        cases (frames.drain (reads h)).2 with
        | none => exact ⟨rest, hdrain⟩
        | some b' =>
          refine ⟨rest ++ (frames.drain (b' ++ tail)).1, ?_⟩
          dsimp only
          rw [hdrain, List.append_assoc]
          rfl
      obtain ⟨more, hmore⟩ := hfirst
      rw [hmore]
      exact loopOutcome_error _ (bodies h) e more

/-- Decoding does not depend on how the bytes arrive: a decoder drained after every push gives the
same results and keeps the same buffer however the stream is cut, and `read_loop` decodes the same
bodies and stops for the same reason, whatever else happens on the connection. -/
theorem chunking_is_invisible :
    (∀ cs ds : List Bytes, cs.flatten = ds.flatten →
      Decoder.new.receive cs = Decoder.new.receive ds) ∧
    ∀ (json : Json) (stream : Bytes) (h h' : List (Connection × Action)) (s s' : Connection)
      (stop stop' : Stop), Run (Steps (step json)) new h s → Run (Steps (step json)) new h' s' →
      Finished h stream stop → Finished h' stream stop' →
      bodies h = bodies h' ∧ stop = stop' := by
  constructor
  · intro cs ds hcd
    rw [receive_eq_drain, receive_eq_drain, hcd]
  · intro json stream h h' s s' stop stop' hr hr' hf hf'
    have he := (readLoop_of_finished hr hf).symm.trans (readLoop_of_finished hr' hf')
    exact Prod.mk.inj he

/-- A frame, and behind it a header without a length. -/
def bareHeader : Bytes := encode [123, 125] ++ crlfcrlf

/-- The stream in one chunk. -/
def bareHeaderWhole : List Action :=
  [.read bareHeader, .decode .done, .decode .done]

/-- The stream cut inside both terminators. -/
def bareHeaderCut : List Action :=
  [.read (bareHeader.take 18), .decode .done, .read ((bareHeader.drop 18).take 6),
    .decode .done, .decode .done, .read (bareHeader.drop 24), .decode .done]

/-- Both readers decode the one body, and stop at the missing length. -/
theorem chunking_is_invisible_bare_header :
    Decoder.new.receive [bareHeader] =
      Decoder.new.receive [bareHeader.take 18, bareHeader.drop 18] ∧
    ∃ h s h' s', Run (Steps (step sampleJson)) new h s ∧ h.map Prod.snd = bareHeaderWhole ∧
      Run (Steps (step sampleJson)) new h' s' ∧ h'.map Prod.snd = bareHeaderCut ∧
      bodies h = [[123, 125]] ∧ bodies h = bodies h' := by
  have hr := run_of_exec (step sampleJson) new bareHeaderWhole rfl
  have hr' := run_of_exec (step sampleJson) new bareHeaderCut rfl
  refine ⟨chunking_is_invisible.1 _ _ (by decide), _, _, _, _, hr, rfl, hr', rfl, rfl, ?_⟩
  refine (chunking_is_invisible.2 sampleJson bareHeader _ _ _ _
    (.error (.protocol "no Content-Length header found"))
    (.error (.protocol "no Content-Length header found")) hr hr' ?_ ?_).1
  · exact ⟨rfl, ⟨[], rfl⟩, fun h => by cases h⟩
  · exact ⟨rfl, ⟨[], rfl⟩, fun h => by cases h⟩

end Connection

end LspGraph
