import Mathlib.Data.Finset.Sort
import Mathlib.Data.String.Basic
import LspGraph.Cache
import LspGraph.ReadinessVerdict
import LspGraph.ServerProcess
import LspGraph.SessionEnd
import LspGraph.SourceFiles

/-! The whole program (`run` in `main.rs`): the checks before a server is started, the server's
start, the wait for its readiness, the session, and the server's end. -/
namespace LspGraph
open FiniteMaps Recording Runs

/-- A table of `servers.toml`, as it is parsed. -/
structure ServerTable where
  cmd : String
  extensions : List String
  readyTimeoutSecs : Option Nat
  concurrency : Option Nat

def defaultReadyTimeout : Nat := 300

def defaultConcurrency : Nat := 1

def ServerTable.config (t : ServerTable) : ServerConfig where
  cmd := t.cmd
  extensions := t.extensions
  readyTimeoutSecs := t.readyTimeoutSecs.getD defaultReadyTimeout
  concurrency := t.concurrency.getD defaultConcurrency

structure Config where
  servers : FMap String ServerConfig

/-- The names of the languages, in their order. -/
def Config.languages (cfg : Config) : List String := cfg.servers.keys.sort (· ≤ ·)

/-- What the program finds around it before it starts a server. -/
structure Surroundings where
  /-- The arguments behind the program's name. -/
  args : List String
  canonicalize : String → Except String Path
  /-- `LSPGRAPH_SERVERS_TOML`. -/
  serversToml : Option Path
  currentDir : Option Path
  xdgConfigHome : Option Path
  home : Option Path
  isFile : Path → Bool
  readToString : Path → Except String String
  /-- The TOML library, with the text of its error. -/
  parseToml : String → Except String (FMap String ServerTable)
  /-- The file system below a directory, and its paths. -/
  filesBelow : Path → FileSystem
  below : Path → RelPath → Path
  isTerminal : Bool
  /-- The `Debug` form of a string. -/
  debugStr : String → String

namespace Surroundings

variable (w : Surroundings)

def configPathIn (base : Path) : Path := (base.join "lspgraph").join "servers.toml"

def userConfigPath : Option Path :=
  (w.xdgConfigHome.or (w.home.map (·.join ".config"))).map configPathIn

/-- The search order, most specific first; what `override` names is not passed over. -/
def resolveServersToml (override : Option Path) (cwd : Path) (user : Option Path) :
    Except String Path :=
  match override with
  | some p =>
    if w.isFile p then .ok p
    else .error ("LSPGRAPH_SERVERS_TOML points at " ++ p.text ++ ", which is not a readable file")
  | none =>
    let tried := cwd :: user.toList
    match tried.find? w.isFile with
    | some p => .ok p
    | none => .error ("no servers.toml found. Looked in:\n" ++
        String.intercalate "\n" (tried.map fun p => "  " ++ p.text) ++
        "\n\nCreate one of those, or set LSPGRAPH_SERVERS_TOML. A minimal file looks like:\n\n" ++
        "  [python]\n  cmd = \"basedpyright-langserver --stdio\"\n  extensions = [\"py\"]")

/-- The file taken is the one that is named, or else the first of the others that is there. -/
theorem resolveServersToml_toOption (override : Option Path) (cwd : Path) (user : Option Path) :
    (w.resolveServersToml override cwd user).toOption =
      (match override with
        | some p => [p]
        | none => cwd :: user.toList).find? w.isFile := by
  unfold resolveServersToml
  cases override with
  | some p =>
    simp only [List.find?_cons, List.find?_nil]
    cases w.isFile p <;> rfl
  | none =>
    dsimp only
    cases (cwd :: user.toList).find? w.isFile <;> rfl

def findServersToml : Except String Path :=
  w.resolveServersToml w.serversToml
    ((w.currentDir.map (·.join "servers.toml")).getD ⟨"servers.toml"⟩) w.userConfigPath

def configFromToml (text : String) : Result Config :=
  match w.parseToml text with
  | .error e => .error (.config e)
  | .ok tables => .ok ⟨mapValues (fun _ t => t.config) tables⟩

/-- What the checks before the start lead to. -/
structure Launch where
  lang : String
  root : Path
  config : ServerConfig
  files : List Path

def usage : String := "usage: lspgraph <language> <root>"

/-- The checks, in their order; `none` while the search for files has not ended within `fuel`. -/
def launch (fuel : ℕ) : Option (Except String Launch) :=
  match w.args with
  | [] | [_] => some (.error usage)
  | lang :: dir :: _ =>
    match w.canonicalize dir with
    | .error e => some (.error e)
    | .ok root =>
      match w.findServersToml with
      | .error e => some (.error e)
      | .ok cfgPath =>
        match w.readToString cfgPath with
        | .error e => some (.error e)
        | .ok text =>
          match w.configFromToml text with
          | .error e => some (.error e.toString)
          | .ok cfg =>
            match cfg.servers.lookup lang with
            | none => some (.error ("no language named " ++ w.debugStr lang ++ " in " ++
                cfgPath.text ++ ". It defines: " ++ String.intercalate ", " cfg.languages))
            | some server =>
              ((w.filesBelow root).sourceFiles server.extensions fuel).map fun files =>
                if w.isTerminal then .ok ⟨lang, root, server, files.map (w.below root)⟩
                else .error ("lspgraph draws a full-screen interface and needs a terminal; " ++
                  "stdout is not one here (piped or redirected?)")

end Surroundings

variable {S : Type*}

/-- A run of the program that ends, from one state of the outside to another. -/
inductive ProgramRun (sys : System S) (w : Surroundings) : S → Exit → S → Prop where
  | refused (fuel : ℕ) (e : String) (s : S) : w.launch fuel = some (.error e) →
      ProgramRun sys w s ⟨1, some ("lspgraph: " ++ e)⟩ s
  | notStarted (fuel : ℕ) (l : Surroundings.Launch) (e : Error) (s s₁ : S) :
      w.launch fuel = some (.ok l) →
      LanguageServer.start sys l.lang l.config l.root s = (.error e, s₁) →
      ProgramRun sys w s ⟨1, some ("lspgraph: " ++ e.toString)⟩ s₁
  /-- The server is dropped. -/
  | notReady (fuel : ℕ) (l : Surroundings.Launch) (server : LanguageServer) (e : Error)
      (s s₁ s₂ : S) : w.launch fuel = some (.ok l) →
      LanguageServer.start sys l.lang l.config l.root s = (.ok server, s₁) →
      waitUntilReady sys.toEnvironment l.files l.lang
        (.fromServerConfig l.config.readyTimeoutSecs) s₁ = (.error e, s₂) →
      ProgramRun sys w s ⟨1, some ("lspgraph: " ++ e.toString)⟩ (server.drop sys s₂)
  /-- The worker has ended its loop; it shuts the engine's server down, and the interface, which
  has left its own loop, waits for that. `why` is the error where the terminal failed. -/
  | session (fuel : ℕ) (l : Surroundings.Launch) (server : LanguageServer) (s s₁ s₂ : S)
      (h : Session.History (CoreEngine S)) (t : Session (CoreEngine S)) (why : String) :
      w.launch fuel = some (.ok l) →
      LanguageServer.start sys l.lang l.config l.root s = (.ok server, s₁) →
      waitUntilReady sys.toEnvironment l.files l.lang
        (.fromServerConfig l.config.readyTimeoutSecs) s₁ = (.ok (), s₂) →
      Run (Steps (Session.step (coreEngine sys.toHost server.supportsWorkspaceSymbol)))
        (Session.start ⟨.new s₂, server.supportsWorkspaceSymbol⟩) h t →
      t.worker = .finished → t.loop = .left →
      ProgramRun sys w s
        (if .fail ∈ h.map Prod.snd then ⟨1, some ("lspgraph: " ++ why)⟩ else t.exit)
        (server.shutdown sys t.engine.engine.server)

def Act.isProcess : Act → Bool
  | .asked _ _ | .told _ => false
  | _ => true

theorem Act.Conversation.isProcess {search : Bool} {a : Act} (h : a.Conversation search) :
    a.isProcess = false := by
  cases a with
  | asked | told => rfl
  | _ => exact absurd h id

/-- What a whole run leaves in the record. -/
inductive Life : Exit → List Act → Prop where
  | refused (e : String) : Life ⟨1, some e⟩ []
  | notStarted (e : String) (name : String) (acts : List Act) (err : Error) :
      Started name acts (.error err) → Life ⟨1, some e⟩ acts
  | notReady (e : String) (child : Child) (name : String) (acts talk : List Act) (search : Bool) :
      Handshake name acts (.ok search) → (∀ a ∈ talk, a.Conversation search) →
      Life ⟨1, some e⟩ (.spawned (some child) :: acts ++ talk ++ [.killed, .reaped])
  | session (x : Exit) (child : Child) (name : String) (acts talk : List Act) (search : Bool)
      (last : Result Value) : Handshake name acts (.ok search) →
      (∀ a ∈ talk, a.Conversation search) →
      Life x (.spawned (some child) :: acts ++ talk ++
        [.asked "shutdown" last, .told "exit", .killed, .reaped])

/-- The wait for readiness is conversation. -/
theorem waitUntilReady_talk (sys : System S) (search : Bool) (files : List Path) (lang : String)
    (cfg : ReadinessConfig) (p : S × List Act) :
    Adds (Act.Conversation search) p
      (waitUntilReady sys.recorded.toEnvironment files lang cfg p).2 :=
  (recorded_keeps sys search).waitUntilReady (fun _ hm => .inl (List.mem_cons_of_mem _ hm)) rfl
    (.inl List.mem_cons_self) files lang cfg p

/-- So is whatever the worker does in a session. -/
theorem session_talk (sys : System S) (search : Bool) {p : S × List Act}
    {h : Session.History (CoreEngine (S × List Act))} {t : Session (CoreEngine (S × List Act))}
    (hr : Run (Steps (Session.step (coreEngine sys.recorded.toHost search)))
      (Session.start ⟨.new p, search⟩) h t) :
    Adds (Act.Conversation search) p t.engine.engine.server :=
  (recorded_keeps sys search).session (fun _ hm => .inl (List.mem_cons_of_mem _ hm))
    (fun hs => .inr ⟨hs, rfl⟩) hr

theorem life_of_run {sys : System S} {w : Surroundings} {p p' : S × List Act} {x : Exit}
    (hr : ProgramRun sys.recorded w p x p') : ∃ acts, p'.2 = p.2 ++ acts ∧ Life x acts := by
  cases hr with
  | refused fuel e => exact ⟨[], (List.append_nil _).symm, .refused _⟩
  | notStarted fuel l e _ _ _ hs =>
    obtain ⟨acts, hacts, hcase⟩ := start_case sys l.lang l.config l.root p
    rw [hs] at hacts hcase
    exact ⟨acts, hacts, .notStarted _ l.lang acts e hcase⟩
  | notReady fuel l server e _ p₁ p₂ _ hs hw =>
    obtain ⟨started, hstarted, hcase⟩ := start_case sys l.lang l.config l.root p
    rw [hs] at hstarted hcase
    cases hcase with
    | handedOver child acts root search hshake =>
      obtain ⟨talk, htalk, hconv⟩ := waitUntilReady_talk sys search l.files l.lang
        (.fromServerConfig l.config.readyTimeoutSecs) p₁
      rw [hw] at htalk
      refine ⟨_, ?_, .notReady _ child l.lang acts talk search hshake hconv⟩
      change (killAndReap sys.recorded (some child) p₂).2.2 = _
      rw [(killAndReap_recorded sys child p₂).2, htalk, hstarted]
      simp
  | session fuel l server _ p₁ p₂ h t why _ hs hw hrun hfin hleft =>
    obtain ⟨started, hstarted, hcase⟩ := start_case sys l.lang l.config l.root p
    rw [hs] at hstarted hcase
    cases hcase with
    | handedOver child acts root search hshake =>
      obtain ⟨talk, htalk, hconv⟩ := waitUntilReady_talk sys search l.files l.lang
        (.fromServerConfig l.config.readyTimeoutSecs) p₁
      rw [hw] at htalk
      obtain ⟨talk', htalk', hconv'⟩ := session_talk sys search hrun
      obtain ⟨last, hlast⟩ := shutdown_recorded sys ⟨l.lang, root, some child, search⟩ rfl
        t.engine.engine.server
      refine ⟨_, ?_, .session _ child l.lang acts (talk ++ talk') search last hshake
        (List.forall_mem_append.mpr ⟨hconv, hconv'⟩)⟩
      rw [hlast, htalk', htalk, hstarted]
      simp

/-- What was started is killed and reaped once, behind everything that was said to it. -/
theorem Life.reaped {x : Exit} {acts : List Act} (h : Life x acts) :
    acts = [] ∨ acts = [.spawned none] ∨
      ∃ child said, acts = .spawned (some child) :: said ++ [.killed, .reaped] ∧
        ∀ a ∈ said, a.isProcess = false := by
  have hsaid {name : String} {said : List Act} {r : Result Bool} (h : Handshake name said r) :
      ∀ a ∈ said, a.isProcess = false := by
    cases h <;> simp [Act.isProcess]
  cases h with
  | refused => exact .inl rfl
  | notStarted e name _ err hstart =>
    cases hstart with
    | notSpawned => exact .inr (.inl rfl)
    | dropped child said _ hshake => exact .inr (.inr ⟨child, said, rfl, hsaid hshake⟩)
  | notReady e child name said talk search hshake htalk =>
    refine .inr (.inr ⟨child, said ++ talk, by simp, ?_⟩)
    exact List.forall_mem_append.mpr ⟨hsaid hshake, fun a ha => (htalk a ha).isProcess⟩
  | session _ child name said talk search last hshake htalk =>
    refine .inr (.inr ⟨child, said ++ talk ++ [.asked "shutdown" last, .told "exit"], by simp, ?_⟩)
    refine List.forall_mem_append.mpr ⟨List.forall_mem_append.mpr ⟨hsaid hshake, ?_⟩, ?_⟩
    · exact fun a ha => (htalk a ha).isProcess
    · simp [Act.isProcess]

/-- A server that advertises both providers, lists `f` in every file and prepares it. -/
def willing : System (Nat × List Entry) :=
  { timed 0 fun method =>
      if method = "initialize" then
        (.ok (.object [("capabilities", .object [("callHierarchyProvider", .bool true),
          ("workspaceSymbolProvider", .bool true)])]), 0)
      else if method = "textDocument/documentSymbol" then (.ok fSymbols, 0)
      else (.ok (itemsAnswer [fItem]), 0) with
    spawn := fun _ _ _ s => (.ok ⟨true, true⟩, s)
    kill := fun s => (.ok (), s)
    wait := fun s => (.ok (), s)
    processId := 1 }

/-- A directory with one source file, and a configuration for it. -/
def oneFile : Surroundings where
  args := ["rust", "/"]
  canonicalize dir := .ok ⟨dir⟩
  serversToml := some ⟨"/servers.toml"⟩
  currentDir := none
  xdgConfigHome := none
  home := none
  isFile _ := true
  readToString _ := .ok ""
  parseToml _ := .ok (Finmap.singleton "rust" ⟨"rust-analyzer", ["rs"], none, none⟩)
  filesBelow _ :=
    { root := .dir 0
      dirs := collect [(0, [⟨strBytes "a.rs", .file 0⟩])]
      nodup_names := by
        intro d es h
        obtain ⟨-, rfl⟩ := Prod.mk.inj (List.mem_singleton.mp (mem_of_lookup_collect h))
        decide }
  below _ _ := ⟨"/a.rs"⟩
  isTerminal := true
  debugStr text := text

theorem oneFile_launch :
    oneFile.launch 3 =
      some (.ok ⟨"rust", ⟨"/"⟩, ⟨"rust-analyzer", ["rs"], 300, 1⟩, [⟨"/a.rs"⟩]⟩) := by
  have hfiles : (oneFile.filesBelow ⟨"/"⟩).sourceFiles ["rs"] 3 = some [[strBytes "a.rs"]] := by
    have hwalk : (oneFile.filesBelow ⟨"/"⟩).walk ["rs"] 3 ⟨[[]], []⟩ =
        some [[strBytes "a.rs"]] := by decide
    unfold FileSystem.sourceFiles
    rw [hwalk, Option.map_some, List.mergeSort_of_pairwise (by decide)]
  have hlaunch : oneFile.launch 3 =
      ((oneFile.filesBelow ⟨"/"⟩).sourceFiles ["rs"] 3).map fun files =>
        .ok ⟨"rust", ⟨"/"⟩, ⟨"rust-analyzer", ["rs"], 300, 1⟩, files.map fun _ => ⟨"/a.rs"⟩⟩ := rfl
  rw [hlaunch, hfiles]
  rfl

/-- The program is started, shows its interface and is quit. -/
theorem willing_run : ∃ s' acts, ProgramRun willing.recorded oneFile ((0, []), [])
    ⟨0, none⟩ (s', acts) := by
  let s₁ := (LanguageServer.start willing.recorded "rust" ⟨"rust-analyzer", ["rs"], 300, 1⟩ ⟨"/"⟩
    ((0, []), [])).2
  let s₂ := (waitUntilReady willing.recorded.toEnvironment [⟨"/a.rs"⟩] "rust"
    (.fromServerConfig 300) s₁).2
  have hstart : LanguageServer.start willing.recorded "rust" ⟨"rust-analyzer", ["rs"], 300, 1⟩ ⟨"/"⟩
      ((0, []), []) = (.ok ⟨"rust", ⟨"/"⟩, some ⟨true, true⟩, true⟩, s₁) := rfl
  have hready : waitUntilReady willing.recorded.toEnvironment [⟨"/a.rs"⟩] "rust"
      (.fromServerConfig 300) s₁ = (.ok (), s₂) := by
    refine Prod.ext ?_ rfl
    unfold waitUntilReady pollGathered
    rw [if_neg (by decide), pollRounds_eq, if_neg (by decide), if_pos (by decide)]
  have hrun := run_of_exec (Session.step (coreEngine willing.recorded.toHost true))
    (Session.start ⟨.new s₂, true⟩)
    [.announce, .event, .drained, .key ⟨.char 'c', true⟩, .take, .serve, .finish] rfl
  have hlife := ProgramRun.session (w := oneFile) 3 _ _ _ _ _ _ _ "" oneFile_launch hstart hready
    hrun rfl rfl
  exact ⟨_, _, hlife⟩

end LspGraph
