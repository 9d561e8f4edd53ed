import LspGraph.EngineExploration
import LspGraph.Program

/-! The crawl (`examples/crawl.rs`): the first candidates of a repository are seeded and expanded,
and what became of them is counted. -/
namespace LspGraph
open FiniteMaps Recording

variable {S : Type*}

/-- The callables of the files, each of which is opened and asked for its symbols. -/
def crawlCandidates (env : Environment S) (lang : String) :
    List Path → List NamedCallable → S → List NamedCallable × S
  | [], candidates, s => (candidates, s)
  | f :: files, candidates, s =>
    -- `.ok()`: a file that cannot be opened is asked about all the same
    match documentSymbols env f (openFile env f lang s).2 with
    | (.ok syms, s) =>
      let found := collectNamedCallables env.toLibraries (pathToUri env.toHost f) syms candidates
      crawlCandidates env lang files found s
    | (.error _, s) => crawlCandidates env lang files candidates s

/-- The two counters of the crawl. -/
structure Tally where
  resolved : Nat
  unresolved : Nat

/-- Seed the candidates one after the other and expand what resolves; the first error ends it. -/
def crawlSymbols (host : Host S) : List NamedCallable → Tally → Engine S → Result Tally × Engine S
  | [], n, e => (.ok n, e)
  | c :: cs, n, e =>
    match e.seed host c with
    | (.error err, e) => (.error err, e)
    | (.ok none, e) => crawlSymbols host cs { n with unresolved := n.unresolved + 1 } e
    | (.ok (some id), e) =>
      match e.expand host id with
      | (.error err, e) => (.error err, e)
      | (.ok _, e) => crawlSymbols host cs { n with resolved := n.resolved + 1 } e

/-- `matches!(state, Some(NodeState::Unresolved(_)))`. -/
def matchesUnresolved : Option NodeState → Bool
  | some (.unresolved _) => true
  | _ => false

theorem matchesUnresolved_iff (st : Option NodeState) :
    matchesUnresolved st = true ↔ ∃ reason, st = some (.unresolved reason) := by
  rcases st with _ | _ | _ | reason <;> simp [matchesUnresolved]

/-- The nodes that are marked as unresolved. -/
def Engine.unresolvedNodes (e : Engine S) : Finset NodeId :=
  e.graph.nodes.keys.filter fun k => matchesUnresolved (e.graph.stateOf k) = true

/-- What the crawl prints, without the times. -/
structure CrawlSummary where
  files : Nat
  candidates : Nat
  tally : Tally
  /-- The unresolved nodes of the first file. -/
  leaves : Nat

/-- How many candidates are looked at. -/
def crawlLimit : Nat := 120

/-- How a crawl ends. A finished one has shut its engine down. -/
inductive CrawlEnd (S : Type*) where
  | failed (e : Error)
  /-- `files[0]` is out of bounds. -/
  | panicked
  | done (summary : CrawlSummary) (engine : Engine S)

/-- `main`, from where the files are found. The server is dropped wherever it is not shut down. -/
def crawl (sys : System S) (lang : String) (cfg : ServerConfig) (root : Path) (files : List Path)
    (s : S) : CrawlEnd S × S :=
  match LanguageServer.start sys lang cfg root s with
  | (.error e, s) => (.failed e, s)
  | (.ok server, s) =>
    match waitUntilReady sys.toEnvironment files lang
        (.fromServerConfig cfg.readyTimeoutSecs) s with
    | (.error e, s) => (.failed e, server.drop sys s)
    | (.ok _, s) =>
      let (candidates, s) := crawlCandidates sys.toEnvironment lang files [] s
      match crawlSymbols sys.toHost (candidates.take crawlLimit) ⟨0, 0⟩ (.new s) with
      | (.error e, engine) => (.failed e, server.drop sys engine.server)
      | (.ok tally, engine) =>
        match files with
        | [] => (.panicked, server.drop sys engine.server)
        | file :: _ =>
          let inFile := engine.graph.nodesInFile (pathToUri sys.toHost file).serialization
          let leaves := inFile.filter fun id =>
            matchesUnresolved (engine.graph.stateOf id) = true
          (.done ⟨files.length, candidates.length, tally, leaves.card⟩ engine,
            server.shutdown sys engine.server)

namespace Engine

variable {host : Host S} {e : Engine S}

theorem mem_unresolvedNodes (k : NodeId) :
    k ∈ e.unresolvedNodes ↔ ∃ reason, e.graph.stateOf k = some (.unresolved reason) := by
  rw [unresolvedNodes, Finset.mem_filter, matchesUnresolved_iff, Finmap.mem_keys,
    CallGraph.mem_nodes_iff_stateOf]
  exact and_iff_right_of_imp fun ⟨reason, hst⟩ => ⟨.unresolved reason, hst⟩

/-- A seed marks at most the symbol that it does not resolve. -/
theorem unresolvedNodes_seed (host : Host S) (e : Engine S) (cand : NamedCallable) :
    (e.seed host cand).2.unresolvedNodes ⊆ e.unresolvedNodes ∨
      (e.seed host cand).1 = .ok none ∧
        (e.seed host cand).2.unresolvedNodes ⊆ insert (unresolvedId cand) e.unresolvedNodes := by
  have hc := seed_case host e cand
  generalize e.seed host cand = r, e.seedAnswer host cand = items at hc
  cases hc with
  | notAFile => exact .inl (Finset.Subset.refl _)
  | failed err s => exact .inl (Finset.Subset.refl _)
  | unresolved reason s =>
    refine .inr ⟨rfl, fun k hk => ?_⟩
    obtain ⟨reason', hst⟩ := (mem_unresolvedNodes k).mp hk
    change (e.record (unresolvedNode cand reason)).graph.stateOf k = _ at hst
    rw [record_stateOf] at hst
    split_ifs at hst with hid
    · exact Finset.mem_insert.mpr (.inl hid)
    · exact Finset.mem_insert_of_mem ((mem_unresolvedNodes k).mpr ⟨reason', hst⟩)
  | resolved item s =>
    refine .inl fun k hk => ?_
    obtain ⟨reason, hst⟩ := (mem_unresolvedNodes k).mp hk
    rw [interned_state_iff host _ [item] k _ (by simp)] at hst
    exact (mem_unresolvedNodes k).mpr ⟨reason, hst⟩

/-- An expansion marks nothing. -/
theorem unresolvedNodes_expand (host : Host S) (e : Engine S) (id : NodeId) :
    (e.expand host id).2.unresolvedNodes ⊆ e.unresolvedNodes := by
  have hc := expand_case host e id
  generalize e.expand host id = r, e.expandAnswer host id = items at hc
  cases hc with
  | memo => exact Finset.Subset.refl _
  | noItem => exact Finset.Subset.refl _
  | failed item err s => exact Finset.Subset.refl _
  | asked item incoming outgoing s₁ s₂ =>
    intro k hk
    obtain ⟨reason, hst⟩ := (mem_unresolvedNodes k).mp hk
    let e₁ : Engine S := { e with server := s₂, expansions := e.expansions + 1 }
    change ((e₁.interned host (incoming ++ outgoing)).graph.recordExpansion id _).stateOf k = _
      at hst
    rw [CallGraph.stateOf_recordExpansion] at hst
    split_ifs at hst with hid
    · obtain ⟨st, -, hst⟩ := Option.map_eq_some_iff.mp hst
      cases hst
    · rw [interned_state_iff host e₁ _ k _ (by simp)] at hst
      exact (mem_unresolvedNodes k).mpr ⟨reason, hst⟩

/-- The counters of a crawl against the engine it was done with. -/
structure Accounts (e : Engine S) (n : Tally) : Prop where
  inv : e.Inv
  counted : e.expansions = e.expandedNodes.card
  resolved : e.expansions ≤ n.resolved
  unresolved : e.unresolvedNodes.card ≤ n.unresolved

theorem accounts_new (s : S) : (new s).Accounts ⟨0, 0⟩ :=
  ⟨inv_new s, rfl, Nat.le_refl 0, Nat.le_refl 0⟩

/-- A candidate that does not resolve. -/
theorem Accounts.seed_none {n : Tally} (h : e.Accounts n) {cand : NamedCallable}
    {e' : Engine S} (hs : e.seed host cand = (.ok none, e')) :
    e'.Accounts { n with unresolved := n.unresolved + 1 } := by
  obtain rfl : (e.seed host cand).2 = e' := congrArg Prod.snd hs
  refine ⟨h.inv.seed host cand, ?_, ?_, ?_⟩
  · rw [expansions_seed, expandedNodes_seed, h.counted]
  · rw [expansions_seed]
    exact h.resolved
  · rcases unresolvedNodes_seed host e cand with hsub | ⟨-, hsub⟩
    · exact (Finset.card_le_card hsub).trans (h.unresolved.trans (Nat.le_succ _))
    · calc (e.seed host cand).2.unresolvedNodes.card
          ≤ (insert (unresolvedId cand) e.unresolvedNodes).card := Finset.card_le_card hsub
        _ ≤ e.unresolvedNodes.card + 1 := Finset.card_insert_le _ _
        _ ≤ n.unresolved + 1 := Nat.succ_le_succ h.unresolved

/-- A candidate that resolves, and the expansion of its node. -/
theorem Accounts.seed_some {n : Tally} (h : e.Accounts n) {cand : NamedCallable} {id : NodeId}
    {e' e'' : Engine S} {exp : Expansion} (hs : e.seed host cand = (.ok (some id), e'))
    (hx : e'.expand host id = (.ok exp, e'')) :
    e''.Accounts { n with resolved := n.resolved + 1 } := by
  have hseed : (e.seed host cand).2 = e' := congrArg Prod.snd hs
  have hinv : e'.Inv := hseed ▸ h.inv.seed host cand
  have hcounted : e'.expansions = e'.expandedNodes.card := by
    rw [← hseed, expansions_seed, expandedNodes_seed, h.counted]
  have hexp : e'.expansions ≤ n.resolved := by
    rw [← hseed, expansions_seed]
    exact h.resolved
  have hmarked : e'.unresolvedNodes ⊆ e.unresolvedNodes := by
    rcases unresolvedNodes_seed host e cand with hsub | ⟨hnone, -⟩
    · exact hseed ▸ hsub
    · rw [hs] at hnone
      cases hnone
  obtain rfl : (e'.expand host id).2 = e'' := congrArg Prod.snd hx
  have hsub := (unresolvedNodes_expand host e' id).trans hmarked
  refine ⟨hinv.expand host id, ?_, ?_, (Finset.card_le_card hsub).trans h.unresolved⟩
  · have hstep := hinv.expansions_step host (.expand id)
    change (e'.expand host id).2.expansions + _ = _ + (e'.expand host id).2.expandedNodes.card + 0
      at hstep
    omega
  · change (e'.expand host id).2.expansions ≤ n.resolved + 1
    cases hinv.opening host id with
    | none _ _ hsame => omega
    | opens exp _ _ _ hone => omega

/-- A crawl that comes to its end has counted every candidate. -/
theorem accounts_crawlSymbols (cs : List NamedCallable) {n n' : Tally} {e' : Engine S}
    (h : e.Accounts n) (hc : crawlSymbols host cs n e = (.ok n', e')) :
    e'.Accounts n' ∧ n'.resolved + n'.unresolved = n.resolved + n.unresolved + cs.length := by
  induction cs generalizing n e with
  | nil =>
    obtain ⟨⟨⟩, rfl⟩ := Prod.mk.inj hc
    exact ⟨h, rfl⟩
  | cons c cs ih =>
    rw [crawlSymbols] at hc
    rw [List.length_cons]
    split at hc
    · cases hc
    · rename_i e₁ hs
      obtain ⟨ha, hn⟩ := ih (h.seed_none hs) hc
      dsimp only at hn
      exact ⟨ha, by omega⟩
    · rename_i id e₁ hs
      split at hc
      · cases hc
      · rename_i exp e₂ hx
        obtain ⟨ha, hn⟩ := ih (h.seed_some hs hx) hc
        dsimp only at hn
        exact ⟨ha, by omega⟩

end Engine

theorem Host.Keeps.crawlSymbols {host : Host S} {Asks : String → Prop} {R : S → S → Prop}
    (h : host.Keeps Asks R) (hm : ∀ method ∈ callMethods, Asks method) (cs : List NamedCallable)
    (n : Tally) (e : Engine S) : R e.server (crawlSymbols host cs n e).2.server := by
  induction cs generalizing n e with
  | nil => exact h.refl _
  | cons c cs ih =>
    have hseed := h.seed hm e c
    unfold LspGraph.crawlSymbols
    generalize e.seed host c = p at hseed ⊢
    obtain ⟨err | _ | id, e₁⟩ := p
    · exact hseed
    · exact h.trans hseed (ih _ e₁)
    · have hexpand := h.trans hseed (h.expand hm e₁ id)
      dsimp only
      generalize e₁.expand host id = q at hexpand ⊢
      obtain ⟨err | exp, e₂⟩ := q
      · exact hexpand
      · exact h.trans hexpand (ih _ e₂)

theorem Environment.Keeps.crawlCandidates {env : Environment S} {Asks Tells : String → Prop}
    {R : S → S → Prop} (h : env.Keeps Asks Tells R) (ht : Tells "textDocument/didOpen")
    (hd : Asks "textDocument/documentSymbol") (lang : String) (files : List Path)
    (candidates : List NamedCallable) (s : S) :
    R s (crawlCandidates env lang files candidates s).2 := by
  induction files generalizing candidates s with
  | nil => exact h.refl s
  | cons f files ih =>
    have hopen := h.openFile ht f lang s
    have hsyms := h.trans hopen (h.documentSymbols hd f (LspGraph.openFile env f lang s).2)
    unfold LspGraph.crawlCandidates
    generalize LspGraph.documentSymbols env f _ = q at hsyms ⊢
    obtain ⟨err | syms, s₁⟩ := q
    · exact h.trans hsyms (ih _ s₁)
    · exact h.trans hsyms (ih _ s₁)

/-- Whether it ends well or not, a crawl leaves the record of a program's run. -/
theorem crawl_life (sys : System S) (lang : String) (cfg : ServerConfig) (root : Path)
    (files : List Path) (p : S × List Act) :
    ∃ x acts, (crawl sys.recorded lang cfg root files p).2.2 = p.2 ++ acts ∧ acts ≠ [] ∧
      Life x acts := by
  obtain ⟨started, hstarted, hcase⟩ := start_case sys lang cfg root p
  unfold crawl
  generalize LanguageServer.start sys.recorded lang cfg root p = q at hstarted hcase ⊢
  obtain ⟨r, p₁⟩ := q
  cases hcase with
  | notSpawned err =>
    exact ⟨_, _, hstarted, by simp, .notStarted "" lang _ err (.notSpawned err)⟩
  | dropped child acts err hshake =>
    exact ⟨_, _, hstarted, by simp, .notStarted "" lang _ err (.dropped child acts err hshake)⟩
  | handedOver child acts root search hshake =>
    -- from here on the server is dropped or shut down
    let server : LanguageServer := ⟨lang, root, some child, search⟩
    have hdropped {q : S × List Act} {talk : List Act} (hq : q.2 = p₁.2 ++ talk)
        (hconv : ∀ a ∈ talk, a.Conversation search) :
        ∃ x acts, (server.drop sys.recorded q).2 = p.2 ++ acts ∧ acts ≠ [] ∧ Life x acts := by
      refine ⟨_, _, ?_, by simp, .notReady "" child lang acts talk search hshake hconv⟩
      change (killAndReap sys.recorded (some child) q).2.2 = _
      rw [(killAndReap_recorded sys child q).2, hq, hstarted]
      simp
    obtain ⟨talk, htalk, hconv⟩ := waitUntilReady_talk sys search files lang
      (.fromServerConfig cfg.readyTimeoutSecs) p₁
    dsimp only
    generalize waitUntilReady sys.recorded.toEnvironment files lang _ p₁ = q at htalk ⊢
    obtain ⟨err | u, p₂⟩ := q
    · exact hdropped htalk hconv
    have hkeeps := recorded_keeps sys search
    have hasks : ∀ method ∈ callMethods, method ∈ "textDocument/documentSymbol" :: callMethods ∨
        search = true ∧ method = "workspace/symbol" := fun _ hm => .inl (List.mem_cons_of_mem _ hm)
    have hcands := hkeeps.crawlCandidates rfl (.inl List.mem_cons_self) lang files [] p₂
    dsimp only
    generalize crawlCandidates sys.recorded.toEnvironment lang files [] p₂ = q at hcands ⊢
    obtain ⟨candidates, p₃⟩ := q
    have hsymbols := hkeeps.crawlSymbols hasks (candidates.take crawlLimit) ⟨0, 0⟩ (.new p₃)
    have hready : Adds (Act.Conversation search) p₁ p₂ := ⟨talk, htalk, hconv⟩
    have hall := hready.trans (hcands.trans hsymbols)
    dsimp only
    generalize crawlSymbols sys.recorded.toHost _ _ _ = q at hall ⊢
    obtain ⟨talk, htalk, hconv⟩ := hall
    obtain ⟨err | tally, engine⟩ := q
    · exact hdropped htalk hconv
    cases files with
    | nil => exact hdropped htalk hconv
    | cons file files =>
      obtain ⟨last, hlast⟩ := shutdown_recorded sys server rfl engine.server
      refine ⟨_, _, ?_, by simp, .session ⟨0, none⟩ child lang acts talk search last hshake hconv⟩
      change (server.shutdown sys.recorded engine.server).2 = _
      rw [hlast, htalk, hstarted]
      simp

/-- Without files the server is never ready. -/
theorem waitUntilReady_nil (env : Environment S) (lang : String) (cfg : ReadinessConfig) (s : S) :
    waitUntilReady env [] lang cfg s = (.error (.noCandidates 0 0), s) := rfl

/-- A crawl that gets as far as its summary had files to look at, and counted what it did. -/
theorem crawl_end (sys : System S) (lang : String) (cfg : ServerConfig) (root : Path)
    (files : List Path) (s : S) :
    (∃ e, (crawl sys lang cfg root files s).1 = .failed e) ∨
      ∃ summary engine, (crawl sys lang cfg root files s).1 = .done summary engine ∧
        engine.Accounts summary.tally ∧
        summary.tally.resolved + summary.tally.unresolved = min crawlLimit summary.candidates ∧
        summary.leaves ≤ engine.unresolvedNodes.card := by
  unfold crawl
  generalize LanguageServer.start sys lang cfg root s = q
  obtain ⟨err | server, s₁⟩ := q
  · exact .inl ⟨err, rfl⟩
  cases files with
  | nil =>
    dsimp only
    rw [waitUntilReady_nil]
    exact .inl ⟨_, rfl⟩
  | cons file files =>
    dsimp only
    generalize waitUntilReady sys.toEnvironment (file :: files) lang _ s₁ = q
    obtain ⟨err | u, s₂⟩ := q
    · exact .inl ⟨err, rfl⟩
    dsimp only
    generalize crawlCandidates sys.toEnvironment lang (file :: files) [] s₂ = q
    obtain ⟨candidates, s₃⟩ := q
    dsimp only
    have hcount (tally : Tally) (engine : Engine S)
        (hc : crawlSymbols sys.toHost (candidates.take crawlLimit) ⟨0, 0⟩ (.new s₃) =
          (.ok tally, engine)) :=
      Engine.accounts_crawlSymbols _ (Engine.accounts_new s₃) hc
    generalize crawlSymbols sys.toHost _ _ _ = q at hcount ⊢
    obtain ⟨err | tally, engine⟩ := q
    · exact .inl ⟨err, rfl⟩
    obtain ⟨haccounts, hall⟩ := hcount tally engine rfl
    refine .inr ⟨_, _, rfl, haccounts, ?_, ?_⟩
    · rw [List.length_take] at hall
      exact hall.trans (Nat.zero_add _)
    · refine Finset.card_le_card fun k hk => ?_
      rw [Finset.mem_filter, matchesUnresolved_iff] at hk
      exact (Engine.mem_unresolvedNodes k).mpr hk.2

/-- The counts of a crawl add up, whatever the server answers: every one of the candidates looked
at is counted once; no node was asked about twice, and no more than the candidates that resolved;
no more nodes are marked as unresolved than candidates did not resolve. It does not panic on an
empty list of files, and however it ends, a server that it started is killed and reaped once. -/
theorem crawl_adds_up (sys : System S) (lang : String) (cfg : ServerConfig) (root : Path)
    (files : List Path) (s : S) :
    (crawl sys lang cfg root files s).1 ≠ .panicked ∧
    (∀ summary engine, (crawl sys lang cfg root files s).1 = .done summary engine →
      summary.tally.resolved + summary.tally.unresolved = min crawlLimit summary.candidates ∧
      engine.expansions = engine.expandedNodes.card ∧
      engine.expansions ≤ summary.tally.resolved ∧
      summary.leaves ≤ engine.unresolvedNodes.card ∧
      engine.unresolvedNodes.card ≤ summary.tally.unresolved) ∧
    ∀ acts, (crawl sys.recorded lang cfg root files (s, [])).2.2 = acts →
      acts = [.spawned none] ∨ ∃ child said, acts = .spawned (some child) :: said ++
        [.killed, .reaped] ∧ ∀ a ∈ said, a.isProcess = false := by
  refine ⟨?_, ?_, ?_⟩
  · intro hpanic
    rcases crawl_end sys lang cfg root files s with ⟨e, he⟩ | ⟨summary, engine, he, -⟩
    · rw [he] at hpanic
      cases hpanic
    · rw [he] at hpanic
      cases hpanic
  · intro summary engine hdone
    rcases crawl_end sys lang cfg root files s with ⟨e, he⟩ | ⟨_, _, he, haccounts, hall, hleaves⟩
    · rw [he] at hdone
      cases hdone
    · obtain ⟨rfl, rfl⟩ := CrawlEnd.done.inj (he.symm.trans hdone)
      exact ⟨hall, haccounts.counted, haccounts.resolved, hleaves, haccounts.unresolved⟩
  · rintro acts rfl
    obtain ⟨x, acts, hacts, hne, hlife⟩ := crawl_life sys lang cfg root files (s, [])
    rw [hacts, List.nil_append]
    exact hlife.reaped.resolve_left hne

/-- A crawl of one file with one function. -/
theorem crawl_adds_up_willing : ∃ summary engine,
    (crawl willing "rust" ⟨"rust-analyzer", ["rs"], 300, 1⟩ ⟨"/"⟩ [⟨"/a.rs"⟩] (0, [])).1 =
        .done summary engine ∧ summary.tally = ⟨1, 0⟩ ∧
      1 + 0 = min crawlLimit summary.candidates ∧
      engine.expansions = engine.expandedNodes.card := by
  let s₁ := (LanguageServer.start willing "rust" ⟨"rust-analyzer", ["rs"], 300, 1⟩ ⟨"/"⟩ (0, [])).2
  let s₂ := (waitUntilReady willing.toEnvironment [⟨"/a.rs"⟩] "rust" (.fromServerConfig 300) s₁).2
  have hstart : LanguageServer.start willing "rust" ⟨"rust-analyzer", ["rs"], 300, 1⟩ ⟨"/"⟩
      (0, []) = (.ok ⟨"rust", ⟨"/"⟩, some ⟨true, true⟩, true⟩, s₁) := rfl
  have hready : waitUntilReady willing.toEnvironment [⟨"/a.rs"⟩] "rust" (.fromServerConfig 300) s₁ =
      (.ok (), s₂) := by
    refine Prod.ext ?_ rfl
    unfold waitUntilReady pollGathered
    rw [if_neg (by decide), pollRounds_eq, if_neg (by decide), if_pos (by decide)]
  have hdone : ∃ summary engine,
      (crawl willing "rust" ⟨"rust-analyzer", ["rs"], 300, 1⟩ ⟨"/"⟩ [⟨"/a.rs"⟩] (0, [])).1 =
        .done summary engine ∧ summary.tally = ⟨1, 0⟩ := by
    unfold crawl
    rw [hstart]
    dsimp only
    rw [hready]
    exact ⟨_, _, rfl, rfl⟩
  obtain ⟨summary, engine, hdone, htally⟩ := hdone
  obtain ⟨hcounted, hexpansions, -⟩ := (crawl_adds_up willing "rust" _ _ _ _).2.1 _ _ hdone
  rw [htally] at hcounted
  exact ⟨summary, engine, hdone, htally, hcounted, hexpansions⟩

end LspGraph
