import LspGraph.Server

/-! Waiting until a server is ready (`readiness.rs`), with the calls it is made of. -/
namespace LspGraph

structure ReadinessConfig where
  maxFiles : Nat
  perFile : Nat
  timeout : Duration

namespace ReadinessConfig

def default : ReadinessConfig := ⟨40, 3, 300000⟩

/-- `from_server_config`, of the only field it reads. -/
def fromServerConfig (readyTimeoutSecs : Nat) : ReadinessConfig :=
  { default with timeout := readyTimeoutSecs * 1000 }

end ReadinessConfig

/-- A duration on the clock, which counts nanoseconds. -/
def Duration.nanos (d : Duration) : Nat := d * 1000000

/-- What is done to the outside, with its answer. -/
inductive Operation where
  | readFile (path : Path) (answer : Result String)
  | notify (method : String) (params : Value) (answer : Result Unit)
  | request (method : String) (params : Value) (answer : Result Value)
  | sleep (d : Duration)

/-- An operation, with the readings of the clock when it begins and when it ends. -/
structure Entry where
  op : Operation
  start : Nat
  stop : Nat

/-- What `wait_until_ready` sees of the outside: a host with a clock that only its operations
move on, and files. The state remembers what was done, so that answers and durations may depend
on all of it. -/
structure Environment (S : Type*) extends Host S where
  /-- `Instant::now`. -/
  now : S → Nat
  /-- `std::fs::read_to_string`. -/
  readFile : Path → S → Result String × S
  /-- `Connection::notify`. -/
  notify : String → Value → S → Result Unit × S
  /-- `serde_json::from_value::<Vec<DocumentSymbol>>`. -/
  symbolsFromValue : Value → Option (List DocumentSymbol)
  log : S → List Entry
  readFile_now : ∀ path s, now s ≤ now (readFile path s).2
  notify_now : ∀ method params s, now s ≤ now (notify method params s).2
  request_now : ∀ method params d s, now s ≤ now (request method params d s).2
  /-- A sleep lasts as long as it should, or longer. -/
  sleep_now : ∀ d s, now s + d.nanos ≤ now (sleep d s)
  readFile_log : ∀ path s, log (readFile path s).2 =
    log s ++ [⟨.readFile path (readFile path s).1, now s, now (readFile path s).2⟩]
  notify_log : ∀ method params s, log (notify method params s).2 = log s ++
    [⟨.notify method params (notify method params s).1, now s, now (notify method params s).2⟩]
  request_log : ∀ method params d s, log (request method params d s).2 = log s ++
    [⟨.request method params (request method params d s).1, now s,
      now (request method params d s).2⟩]
  sleep_log : ∀ d s, log (sleep d s) = log s ++ [⟨.sleep d, now s, now (sleep d s)⟩]

/-- Sample up to `max` items spread evenly across the list. -/
def evenStride {α : Type*} (items : List α) (max : Nat) : List α :=
  if items.isEmpty ∨ max = 0 then []
  else if items.length ≤ max then items
  -- the product is in range of `usize` as long as `(max - 1) * length < 2^64`
  else (List.range max).filterMap fun i => items[i * items.length / max]?

/-- Time left before the deadline, or `none` if it has already passed. -/
def remainingBudget (deadline now : Nat) : Option Nat :=
  if now < deadline then some (deadline - now) else none

/-- The pause between two rounds of polling. -/
def pollDelay : Duration := 1000

variable {S : Type*} (env : Environment S)

/-- `open`. -/
def openFile (path : Path) (languageId : String) (s : S) : Result Unit × S :=
  match env.readFile path s with
  | (.error e, s) => (.error e, s)
  | (.ok text, s) =>
    let uri := (pathToUri env.toHost path).serialization
    env.notify "textDocument/didOpen"
      (.object [("textDocument", .object [("uri", .string uri),
        ("languageId", .string languageId), ("version", .ofI64 1), ("text", .string text)])]) s

def documentSymbols (path : Path) (s : S) : Result (List DocumentSymbol) × S :=
  match env.request "textDocument/documentSymbol"
      (.object [("textDocument",
        .object [("uri", .string (pathToUri env.toHost path).serialization)])])
      requestTimeout s with
  | (.error e, s) => (.error e, s)
  | (.ok v, s) =>
    if v.isNull then (.ok [], s)
    -- the flat form of the answer counts as no symbols
    else (.ok ((env.symbolsFromValue v).getD []), s)

/-- What the first loop of `wait_until_ready` gathers. -/
structure Gathered where
  candidates : List NamedCallable
  filesAttempted : Nat
  filesFailed : Nat

/-- The first loop: open files and enumerate their symbols. -/
def gather (deadline : Nat) (languageId : String) (cfg : ReadinessConfig) :
    List Path → Gathered → S → Gathered × S
  | [], g, s => (g, s)
  | path :: paths, g, s =>
    if (remainingBudget deadline (env.now s)).isNone then (g, s)
    else
      let g := { g with filesAttempted := g.filesAttempted + 1 }
      match openFile env path languageId s with
      | (.error _, s) =>
        gather deadline languageId cfg paths { g with filesFailed := g.filesFailed + 1 } s
      | (.ok _, s) =>
        match documentSymbols env path s with
        | (.error _, s) =>
          gather deadline languageId cfg paths { g with filesFailed := g.filesFailed + 1 } s
        | (.ok syms, s) =>
          let found := collectNamedCallables env.toLibraries (pathToUri env.toHost path) syms []
          gather deadline languageId cfg paths
            { g with candidates := g.candidates ++ found.take cfg.perFile } s

/-- One round of polling; `true` where a candidate was answered with an item. -/
def pollCandidates (deadline : Nat) : List NamedCallable → S → Bool × S
  | [], s => (false, s)
  | c :: candidates, s =>
    if (remainingBudget deadline (env.now s)).isNone then (false, s)
    else
      let path := (env.toFilePath c.uri).getD ⟨""⟩
      match prepareCallHierarchy env.toHost path c.position s with
      | (.ok items, s) =>
        if items.isEmpty then pollCandidates deadline candidates s else (true, s)
      | (.error _, s) => pollCandidates deadline candidates s

theorem now_requestAttempts (method : String) (params : Value) (left : Nat) (s : S) :
    env.now s ≤ env.now (requestAttempts env.toHost method params left s).2 := by
  induction left generalizing s with
  | zero => exact env.request_now method params requestTimeout s
  | succ left ih =>
    have hreq := env.request_now method params requestTimeout s
    unfold requestAttempts
    split
    · rename_i s₁ heq
      rw [heq] at hreq
      have hsleep := env.sleep_now retryDelay s₁
      exact hreq.trans (((Nat.le_add_right _ _).trans hsleep).trans (ih _))
    · exact hreq

/-- A prepared hierarchy leaves the state of its request behind. -/
theorem prepareCallHierarchy_state (host : Host S) (path : Path) (pos : Position) (s : S) :
    ∃ params, (prepareCallHierarchy host path pos s).2 = (requestAttempts host
      "textDocument/prepareCallHierarchy" params (maxAttempts - 1) s).2 := by
  refine ⟨.object [("textDocument",
    .object [("uri", .string (pathToUri host path).serialization)]),
    ("position", positionToValue pos)], ?_⟩
  unfold prepareCallHierarchy requestRetryingContentModified
  split
  · rename_i heq
    rw [heq]
  · rename_i heq
    rw [heq]
    split_ifs
    · rfl
    · split <;> rfl

theorem now_pollCandidates (deadline : Nat) (candidates : List NamedCallable) (s : S) :
    env.now s ≤ env.now (pollCandidates env deadline candidates s).2 := by
  induction candidates generalizing s with
  | nil => exact Nat.le_refl _
  | cons c candidates ih =>
    unfold pollCandidates
    split_ifs
    · exact Nat.le_refl _
    · have h : env.now s ≤ env.now (prepareCallHierarchy env.toHost
          ((env.toFilePath c.uri).getD ⟨""⟩) c.position s).2 := by
        obtain ⟨params, hp⟩ := prepareCallHierarchy_state env.toHost _ c.position s
        rw [hp]
        exact now_requestAttempts env _ params _ s
      dsimp only
      split
      · rename_i heq
        rw [heq] at h
        split_ifs
        · exact h.trans (ih _)
        · exact h
      · rename_i heq
        rw [heq] at h
        exact h.trans (ih _)

/-- The second loop: rounds of polling until the deadline, with a pause behind each. -/
def pollRounds (deadline : Nat) (candidates : List NamedCallable) (s : S) : Bool × S :=
  if (remainingBudget deadline (env.now s)).isSome then
    match _h : pollCandidates env deadline candidates s with
    | (true, s') => (true, s')
    | (false, s') => pollRounds deadline candidates (env.sleep pollDelay s')
  else (false, s)
termination_by deadline - env.now s
-- the pause moves the clock on, and the budget was not used up before it
decreasing_by
  have hbudget : env.now s < deadline := by
    by_contra hn
    simp_all [remainingBudget]
  have hpoll := now_pollCandidates env deadline candidates s
  have hsleep := env.sleep_now pollDelay s'
  have hpos : 0 < Duration.nanos pollDelay := by decide
  rw [_h] at hpoll
  dsimp only at hpoll
  omega

/-- What follows the first loop: without candidates an error at once, else the rounds. -/
def pollGathered (deadline : Nat) (cfg : ReadinessConfig) (p : Gathered × S) : Result Unit × S :=
  if p.1.candidates.isEmpty then
    (.error (.noCandidates p.1.filesAttempted p.1.filesFailed), p.2)
  else
    match pollRounds env deadline p.1.candidates p.2 with
    | (true, s) => (.ok (), s)
    | (false, s) => (.error (.notReady cfg.timeout p.1.candidates.length), s)

def waitUntilReady (files : List Path) (languageId : String) (cfg : ReadinessConfig) (s : S) :
    Result Unit × S :=
  -- one deadline governs both loops
  let deadline := env.now s + cfg.timeout.nanos
  pollGathered env deadline cfg
    (gather env deadline languageId cfg (evenStride files cfg.maxFiles) ⟨[], 0, 0⟩ s)

/-- A round of the second loop, and what follows it. -/
theorem pollRounds_eq (deadline : Nat) (candidates : List NamedCallable) (s : S) :
    pollRounds env deadline candidates s =
      if deadline ≤ env.now s then (false, s)
      else if (pollCandidates env deadline candidates s).1 = true then
        (true, (pollCandidates env deadline candidates s).2)
      else pollRounds env deadline candidates
        (env.sleep pollDelay (pollCandidates env deadline candidates s).2) := by
  rw [pollRounds]
  unfold remainingBudget
  by_cases hd : deadline ≤ env.now s
  · rw [if_pos hd, if_neg (Nat.not_lt.mpr hd)]
    rfl
  · rw [if_neg hd, if_pos (show env.now s < deadline by omega)]
    dsimp only [Option.isSome_some]
    rw [if_pos rfl]
    split
    · rename_i heq
      rw [heq]
      rfl
    · rename_i heq
      rw [heq]
      rfl

/-- From one state to another these operations were done, one after the other, and no more. -/
structure Performs (s : S) (es : List Entry) (s' : S) : Prop where
  log : env.log s' = env.log s ++ es
  now : env.now s ≤ env.now s'
  within : ∀ e ∈ es, env.now s ≤ e.start ∧ e.start ≤ e.stop ∧ e.stop ≤ env.now s'
  ordered : es.Pairwise fun e e' => e.stop ≤ e'.start

namespace Performs

variable {env} {s s₁ s₂ : S} {es es' : List Entry}

theorem refl (s : S) : Performs env s [] s :=
  ⟨(List.append_nil _).symm, Nat.le_refl _, by simp, .nil⟩

theorem trans (h : Performs env s es s₁) (h' : Performs env s₁ es' s₂) :
    Performs env s (es ++ es') s₂ := by
  refine ⟨by rw [h'.log, h.log, List.append_assoc], h.now.trans h'.now, ?_, ?_⟩
  · intro e he
    rcases List.mem_append.mp he with he | he
    · obtain ⟨h₁, h₂, h₃⟩ := h.within e he
      exact ⟨h₁, h₂, h₃.trans h'.now⟩
    · obtain ⟨h₁, h₂, h₃⟩ := h'.within e he
      exact ⟨h.now.trans h₁, h₂, h₃⟩
  · refine List.pairwise_append.mpr ⟨h.ordered, h'.ordered, fun e he e' he' => ?_⟩
    exact (h.within e he).2.2.trans (h'.within e' he').1

/-- A single operation. -/
theorem single {op : Operation} (hl : env.log s₁ = env.log s ++ [⟨op, env.now s, env.now s₁⟩])
    (hn : env.now s ≤ env.now s₁) : Performs env s [⟨op, env.now s, env.now s₁⟩] s₁ :=
  ⟨hl, hn, by simpa using hn, List.pairwise_singleton _ _⟩

theorem request (method : String) (params : Value) (d : Duration) (s : S) :
    Performs env s [⟨.request method params (env.request method params d s).1, env.now s,
      env.now (env.request method params d s).2⟩] (env.request method params d s).2 :=
  single (env.request_log method params d s) (env.request_now method params d s)

theorem sleep (d : Duration) (s : S) :
    Performs env s [⟨.sleep d, env.now s, env.now (env.sleep d s)⟩] (env.sleep d s) :=
  single (env.sleep_log d s) ((Nat.le_add_right _ _).trans (env.sleep_now d s))

end Performs

end LspGraph
