import LspGraph.SampleHost
import LspGraph.Worker

/-! Where a match of a symbol search is asked about: the place that its entry of the answer
reports, against the requests that seeding it sends. -/
namespace LspGraph

/-- The requests that were sent: method and params. -/
abbrev RequestLog := List (String × Value)

variable {S : Type*}

/-- The host with a record of the requests it is sent. -/
def Host.recorded (host : Host S) : Host (S × RequestLog) :=
  { host.toLibraries with
    request := fun method params timeout s =>
      let (answer, s') := host.request method params timeout s.1
      (answer, s', s.2 ++ [(method, params)])
    sleep := fun d s => (host.sleep d s.1, s.2) }

/-- The engine on the recorded host. -/
def Engine.logging (e : Engine S) (log : RequestLog) : Engine (S × RequestLog) :=
  ⟨(e.server, log), e.graph, e.items, e.expansions⟩

def CoreEngine.logging (c : CoreEngine S) (log : RequestLog) : CoreEngine (S × RequestLog) :=
  ⟨c.engine.logging log, c.canSearch⟩

/-- What `prepareCallHierarchy` sends about a position of a file. -/
def prepareRequest (lib : Libraries) (path : Path) (pos : Position) : String × Value :=
  ("textDocument/prepareCallHierarchy",
    .object [("textDocument", .object [("uri", .string (lib.fromFilePath path).serialization)]),
      ("position", positionToValue pos)])

/-- What an entry of the answer reports under a key of `location.range.start`. -/
def reportedStart (e : Value) (key : String) : Option Value :=
  (((e.get "location").bind (·.get "range")).bind (·.get "start")).bind (·.get key)

/-- A coordinate as the parser takes it: the reported one where that fits into 32 bits, and zero
where no natural number is reported. -/
structure Coordinate (reported : Option Value) (taken : UInt32) : Prop where
  fits : ∀ n, reported.bind (·.asU64) = some n → n.toNat < 2^32 → reported = some (.ofU32 taken)
  absent : reported.bind (·.asU64) = none → taken = 0

/-- The match is asked about at the place that the entry reports. -/
structure AskedAt (host : Host S) (e : Value) (m : SymbolMatch) : Prop where
  parsed : parseEntry host.toLibraries e = some m
  uri : ∃ text, (e.get "location").bind (·.get "uri") = some (.string text) ∧
    host.parseUrl text = some m.uri
  line : Coordinate (reportedStart e "line") m.position.line
  character : Coordinate (reportedStart e "character") m.position.character
  /-- A uri that names no file is not asked about. -/
  noFile : host.toFilePath m.uri = none → ∀ supported (c : CoreEngine S) log,
    (coreEngine host.recorded supported).seed m (c.logging log) = (.ok none, c.logging log)
  /-- One request, or as many as the retries allow, all the same. -/
  asked : ∀ path, host.toFilePath m.uri = some path → ∀ supported (c : CoreEngine S) log,
    ∃ n, 1 ≤ n ∧ n ≤ maxAttempts ∧
      ((coreEngine host.recorded supported).seed m (c.logging log)).2.engine.server.2 =
        log ++ List.replicate n (prepareRequest host.toLibraries path m.position)

/-- The elements that are kept by a `filterMap`, each beside what it gives, in order. -/
theorem exists_sources {α β : Type*} (f : α → Option β) (l : List α) :
    ∃ kept, kept.Sublist l ∧ List.Forall₂ (fun a b => f a = some b) kept (l.filterMap f) := by
  induction l with
  | nil => exact ⟨[], List.Sublist.refl [], .nil⟩
  | cons a l ih =>
    obtain ⟨kept, hs, hf⟩ := ih
    cases ha : f a with
    | none =>
      rw [List.filterMap_cons_none ha]
      exact ⟨kept, hs.cons a, hf⟩
    | some b =>
      rw [List.filterMap_cons_some ha]
      exact ⟨a :: kept, hs.cons_cons a, .cons ha hf⟩

theorem coordinate_taken (reported : Option Value) :
    Coordinate reported ((reported.bind (·.asU64)).getD 0).toUInt32 := by
  constructor
  · intro n hn hlt
    rw [hn]
    cases reported with
    | none => cases hn
    | some v =>
      -- only the JSON form of a natural number reads as one
      cases v with
      | number x =>
        cases x with
        | posInt m =>
          obtain rfl : m = n := Option.some.inj hn
          have hm : m.toUInt32.toUInt64 = m := by
            apply UInt64.toNat_inj.mp
            simpa using Nat.mod_eq_of_lt hlt
          exact congrArg (fun k => some (Value.number (.posInt k))) hm.symm
        | _ => cases hn
      | _ => cases hn
  · intro hn
    rw [hn]
    rfl

variable (host : Host S)

theorem recorded_request (method : String) (params : Value) (timeout : Duration) (s : S)
    (log : RequestLog) : host.recorded.request method params timeout (s, log) =
      ((host.request method params timeout s).1, (host.request method params timeout s).2,
        log ++ [(method, params)]) := rfl

/-- Recording changes no answer; each attempt is recorded once. -/
theorem requestAttempts_recorded (method : String) (params : Value) (left : Nat) (s : S)
    (log : RequestLog) : ∃ n, 1 ≤ n ∧ n ≤ left + 1 ∧
      requestAttempts host.recorded method params left (s, log) =
        ((requestAttempts host method params left s).1,
          (requestAttempts host method params left s).2,
          log ++ List.replicate n (method, params)) := by
  induction left generalizing s log with
  | zero => exact ⟨1, le_rfl, le_rfl, rfl⟩
  | succ left ih =>
    rw [requestAttempts, requestAttempts, recorded_request]
    rcases host.request method params requestTimeout s with ⟨err | v, s'⟩
    · cases err with
      | contentModified _ =>
        -- the retry asks the same again
        obtain ⟨n, h₁, hn, heq⟩ := ih (host.sleep retryDelay s') (log ++ [(method, params)])
        refine ⟨n + 1, by omega, by omega, heq.trans ?_⟩
        rw [List.append_assoc, List.replicate_succ]
        rfl
      | _ => exact ⟨1, le_rfl, by omega, rfl⟩
    · exact ⟨1, le_rfl, by omega, rfl⟩

theorem prepareCallHierarchy_recorded (path : Path) (pos : Position) (s : S) (log : RequestLog) :
    ∃ n, 1 ≤ n ∧ n ≤ maxAttempts ∧
      prepareCallHierarchy host.recorded path pos (s, log) =
        ((prepareCallHierarchy host path pos s).1, (prepareCallHierarchy host path pos s).2,
          log ++ List.replicate n (prepareRequest host.toLibraries path pos)) := by
  have huri : pathToUri host.recorded path = host.fromFilePath path := rfl
  obtain ⟨n, h₁, hn, heq⟩ := requestAttempts_recorded host "textDocument/prepareCallHierarchy"
    (prepareRequest host.toLibraries path pos).2 (maxAttempts - 1) s log
  refine ⟨n, h₁, hn, ?_⟩
  unfold prepareCallHierarchy requestRetryingContentModified
  simp only [prepareRequest] at heq
  rw [huri, heq]
  unfold pathToUri prepareRequest
  -- the answer is decoded by the same libraries
  rcases requestAttempts host _ _ (maxAttempts - 1) s with ⟨err | v, s'⟩
  · rfl
  · dsimp only
    split_ifs
    · rfl
    · have hdecode : host.recorded.itemsFromValue v = host.itemsFromValue v := rfl
      rw [hdecode]
      cases host.itemsFromValue v <;> rfl

theorem seed_recorded_none (e : Engine S) (log : RequestLog) (cand : NamedCallable)
    (hp : host.toFilePath cand.uri = none) :
    (e.logging log).seed host.recorded cand = (.ok none, e.logging log) := by
  have hp' : host.recorded.toFilePath cand.uri = none := hp
  unfold Engine.seed
  rw [hp']

/-- A seed sends its requests about one place, and is the seed on the host otherwise. -/
theorem seed_recorded_some (e : Engine S) (log : RequestLog) (cand : NamedCallable) {path : Path}
    (hp : host.toFilePath cand.uri = some path) : ∃ n, 1 ≤ n ∧ n ≤ maxAttempts ∧
      (e.logging log).seed host.recorded cand =
        ((e.seed host cand).1, (e.seed host cand).2.logging
          (log ++ List.replicate n (prepareRequest host.toLibraries path cand.position))) := by
  have hp' : host.recorded.toFilePath cand.uri = some path := hp
  obtain ⟨n, h₁, hn, heq⟩ := prepareCallHierarchy_recorded host path cand.position e.server log
  refine ⟨n, h₁, hn, ?_⟩
  unfold Engine.seed
  rw [hp, hp']
  simp only [Engine.logging]
  rw [heq]
  rcases prepareCallHierarchy host path cand.position e.server with ⟨err | items, s⟩
  · cases err <;> rfl
  · cases items <;> rfl

/-- An entry that gives a match has a location with a uri, and its position is the start of the
location's range. -/
theorem parseEntry_place {lib : Libraries} {e : Value} {m : SymbolMatch}
    (h : parseEntry lib e = some m) : ∃ loc text, e.get "location" = some loc ∧
      loc.get "uri" = some (.string text) ∧ lib.parseUrl text = some m.uri ∧
      m.position = startPosition ((loc.get "range").bind (·.get "start")) := by
  unfold parseEntry at h
  simp only [Option.bind_eq_bind, Option.bind_eq_some_iff] at h
  obtain ⟨_, -, rawName, -, _, -, kindN, -, h⟩ := h
  -- the two kinds of callables are read alike
  split_ifs at h with h₆ h₁₂
  all_goals
    simp only [Option.bind_some, Option.bind_none, reduceCtorEq] at h
  all_goals
    obtain ⟨-, h⟩ := Option.ite_none_right_eq_some.mp h
    obtain ⟨loc, hloc, h⟩ := Option.bind_eq_some_iff.mp h
    obtain ⟨v, huri, h⟩ := Option.bind_eq_some_iff.mp h
    obtain ⟨text, htext, h⟩ := Option.bind_eq_some_iff.mp h
    obtain ⟨uri, hparse, h⟩ := Option.bind_eq_some_iff.mp h
    obtain rfl := Option.some.inj h
    cases v with
    | string s =>
      obtain rfl := Option.some.inj htext
      exact ⟨loc, s, hloc, huri, hparse, rfl⟩
    | _ => cases htext

theorem askedAt_of_parseEntry {e : Value} {m : SymbolMatch}
    (h : parseEntry host.toLibraries e = some m) : AskedAt host e m := by
  obtain ⟨loc, text, hloc, huri, hparse, hpos⟩ := parseEntry_place h
  have hstart (key : String) : reportedStart e key =
      ((loc.get "range").bind (·.get "start")).bind (·.get key) := by
    unfold reportedStart
    rw [hloc]
    rfl
  refine ⟨h, ⟨text, ?_, hparse⟩, ?_, ?_, ?_, ?_⟩
  · rw [hloc]
    exact huri
  · rw [hstart, hpos]
    exact coordinate_taken _
  · rw [hstart, hpos]
    exact coordinate_taken _
  · intro hp supported c log
    have hnone := seed_recorded_none host c.engine log (.ofMatch m) hp
    change (((c.engine.logging log).seed host.recorded (.ofMatch m)).1,
      CoreEngine.mk ((c.engine.logging log).seed host.recorded (.ofMatch m)).2 c.canSearch) = _
    rw [hnone]
    rfl
  · intro path hp supported c log
    obtain ⟨n, h₁, hn, heq⟩ := seed_recorded_some host c.engine log (.ofMatch m) hp
    refine ⟨n, h₁, hn, ?_⟩
    change ((c.engine.logging log).seed host.recorded (.ofMatch m)).2.server.2 = _
    rw [heq]
    rfl

/-- Each match of a search stems from one entry of the answer, in order, and is asked about where
that entry says. -/
theorem search_matches_asked_at (v : Value) : ∃ entries,
    entries.Sublist (v.asArray.getD []) ∧
    List.Forall₂ (AskedAt host) entries (parseWorkspaceSymbols host.toLibraries v) := by
  obtain ⟨entries, hs, hf⟩ := exists_sources (parseEntry host.toLibraries) (v.asArray.getD [])
  refine ⟨entries, hs, ?_⟩
  have hparse : parseWorkspaceSymbols host.toLibraries v =
      (v.asArray.getD []).filterMap (parseEntry host.toLibraries) := by
    unfold parseWorkspaceSymbols
    cases v.asArray <;> rfl
  rw [hparse]
  exact hf.imp fun _ _ he => askedAt_of_parseEntry host he

/-- Libraries in which one uri has a path that is written back in another way, as an escaped `@`
is. -/
def escapingLibraries : Libraries :=
  { sampleLibraries with
    toFilePath := fun url =>
      if url.serialization = "file:///%40types.ts" then some ⟨"/@types.ts"⟩
      else sampleLibraries.toFilePath url }

/-- A host whose server finds nothing. -/
def emptyHost : Host Unit :=
  { escapingLibraries with request := fun _ _ _ s => (.ok .null, s)
                           sleep := fun _ s => s }

/-- An entry for a function, with what its location reports besides the uri. -/
def functionEntry (name uri : String) (rest : List (String × Value)) : Value :=
  .object [("name", .string name), ("kind", .ofU32 12),
    ("location", .object (("uri", .string uri) :: rest))]

def rangeAt (line : UInt64) (character : UInt32) : List (String × Value) :=
  [("range", .object [("start",
    .object [("line", .number (.posInt line)), ("character", .ofU32 character)])])]

/-- Entries without a range, in no file, in a file with an escaped name, and behind the last line
that a position can have. -/
def placelessAnswer : Value :=
  .array [functionEntry "f" "file:///a.rs" [],
    functionEntry "g" "untitled:Untitled-1" (rangeAt 4 2),
    functionEntry "h" "file:///%40types.ts" (rangeAt 2 1),
    functionEntry "k" "file:///a.rs" (rangeAt 4294967303 1)]

/-- What is sent when a match is seeded. -/
def askedAbout (host : Host S) (s : S) (m : SymbolMatch) : RequestLog :=
  ((coreEngine host.recorded true).seed m
    ((CoreEngine.mk (.new s) true).logging [])).2.engine.server.2

/-- They are asked about at a default, not at all, under another uri, and at a cut number. -/
theorem search_matches_asked_elsewhere :
    (parseWorkspaceSymbols escapingLibraries placelessAnswer).map (askedAbout emptyHost ()) =
      [[("textDocument/prepareCallHierarchy",
          .object [("textDocument", .object [("uri", .string "file:///a.rs")]),
            ("position", positionToValue ⟨0, 0⟩)])],
        [],
        [("textDocument/prepareCallHierarchy",
          .object [("textDocument", .object [("uri", .string "file:///@types.ts")]),
            ("position", positionToValue ⟨2, 1⟩)])],
        [("textDocument/prepareCallHierarchy",
          .object [("textDocument", .object [("uri", .string "file:///a.rs")]),
            ("position", positionToValue ⟨7, 1⟩)])]] := by
  rfl

end LspGraph
