import LspGraph.MainLoop
import LspGraph.Readiness

/-! What the program does to the outside: a relation that is kept by the operations it uses is kept
by every call that is made of them, up to whole sessions. -/
namespace LspGraph
open Runs

variable {S : Type*}

/-- A relation between an earlier and a later state of the host that sleeping keeps, and asking by
the methods in `Asks`. -/
structure Host.Keeps (host : Host S) (Asks : String → Prop) (R : S → S → Prop) : Prop where
  refl : ∀ s, R s s
  trans : ∀ {s t u}, R s t → R t u → R s u
  request : ∀ {method}, Asks method → ∀ params d s, R s (host.request method params d s).2
  sleep : ∀ d s, R s (host.sleep d s)

/-- The same, for notifications by the methods in `Tells` and the reading of files. -/
structure Environment.Keeps (env : Environment S) (Asks Tells : String → Prop)
    (R : S → S → Prop) : Prop extends Host.Keeps env.toHost Asks R where
  readFile : ∀ path s, R s (env.readFile path s).2
  notify : ∀ {method}, Tells method → ∀ params s, R s (env.notify method params s).2

/-- The methods by which the engine asks about calls. -/
def callMethods : List String :=
  ["textDocument/prepareCallHierarchy", "callHierarchy/incomingCalls",
    "callHierarchy/outgoingCalls"]

theorem internAll_server (host : Host S) (e : Engine S) (items : List CallHierarchyItem) :
    (Engine.internAll host e items).2.server = e.server := by
  induction items generalizing e with
  | nil => rfl
  | cons item items ih => exact ih _

namespace Host.Keeps

variable {host : Host S} {Asks : String → Prop} {R : S → S → Prop}

theorem requestAttempts (h : host.Keeps Asks R) {method : String} (hm : Asks method)
    (params : Value) (left : Nat) (s : S) :
    R s (requestAttempts host method params left s).2 := by
  induction left generalizing s with
  | zero => exact h.request hm params requestTimeout s
  | succ left ih =>
    have hreq := h.request hm params requestTimeout s
    unfold LspGraph.requestAttempts
    split
    · rename_i s₁ heq
      rw [heq] at hreq
      exact h.trans (h.trans hreq (h.sleep retryDelay s₁)) (ih _)
    · exact hreq

theorem prepareCallHierarchy (h : host.Keeps Asks R) (hm : ∀ method ∈ callMethods, Asks method)
    (path : Path) (pos : Position) (s : S) :
    R s (prepareCallHierarchy host path pos s).2 := by
  obtain ⟨params, hp⟩ := prepareCallHierarchy_state host path pos s
  rw [hp]
  exact h.requestAttempts (hm _ (by decide)) params _ s

theorem callsOf (h : host.Keeps Asks R) {method : String} (hm : Asks method) (field : String)
    (item : CallHierarchyItem) (s : S) : R s (callsOf host method field item s).2 := by
  have hreq := h.requestAttempts hm (.object [("item", host.itemToValue item)]) (maxAttempts - 1) s
  unfold LspGraph.callsOf requestRetryingContentModified
  split
  · rename_i heq
    rw [heq] at hreq
    exact hreq
  · rename_i heq
    rw [heq] at hreq
    exact hreq

theorem seed (h : host.Keeps Asks R) (hm : ∀ method ∈ callMethods, Asks method) (e : Engine S)
    (cand : NamedCallable) : R e.server (e.seed host cand).2.server := by
  unfold Engine.seed
  cases host.toFilePath cand.uri with
  | none => exact h.refl _
  | some path =>
    have hp := h.prepareCallHierarchy hm path cand.position e.server
    dsimp only
    generalize LspGraph.prepareCallHierarchy host path cand.position e.server = p at hp ⊢
    obtain ⟨err | items, s⟩ := p
    · cases err <;> exact hp
    · cases items <;> exact hp

theorem expand (h : host.Keeps Asks R) (hm : ∀ method ∈ callMethods, Asks method) (e : Engine S)
    (id : NodeId) : R e.server (e.expand host id).2.server := by
  unfold Engine.expand
  split_ifs
  · exact h.refl _
  cases e.items.lookup id with
  | none => exact h.refl _
  | some item =>
    have h₁ := h.callsOf (hm "callHierarchy/incomingCalls" (by decide)) "from" item e.server
    change R e.server (incomingCalls host item e.server).2 at h₁
    dsimp only
    generalize incomingCalls host item e.server = p at h₁ ⊢
    obtain ⟨err | incoming, s₁⟩ := p
    · exact h₁
    have h₂ := h.callsOf (hm "callHierarchy/outgoingCalls" (by decide)) "to" item s₁
    change R s₁ (outgoingCalls host item s₁).2 at h₂
    dsimp only
    generalize outgoingCalls host item s₁ = q at h₂ ⊢
    obtain ⟨err | outgoing, s₂⟩ := q
    · exact h.trans h₁ h₂
    -- recording the answers asks nothing
    · change R e.server
        (Engine.internAll host (Engine.internAll host _ incoming).2 outgoing).2.server
      rw [internAll_server, internAll_server]
      exact h.trans h₁ h₂

theorem workspaceSymbols (h : host.Keeps Asks R) {supported : Bool}
    (hm : supported = true → Asks "workspace/symbol") (query : String) (s : S) :
    R s (workspaceSymbols host supported query s).2 := by
  unfold LspGraph.workspaceSymbols
  split_ifs with hs
  · have hreq := h.request (hm hs) (.object [("query", .string query)]) requestTimeout s
    split
    · rename_i heq
      rw [heq] at hreq
      exact hreq
    · rename_i heq
      rw [heq] at hreq
      exact hreq
  -- a server that cannot search is not asked
  · exact h.refl s

theorem serveRequest (h : host.Keeps Asks R) (hm : ∀ method ∈ callMethods, Asks method)
    {supported : Bool} (hw : supported = true → Asks "workspace/symbol") (c : CoreEngine S)
    (r : Request) : R c.engine.server
      (serveRequest (coreEngine host supported) c r).2.2.engine.server := by
  cases r with
  | search query => exact h.workspaceSymbols hw query c.engine.server
  | seed m => exact h.seed hm c.engine (.ofMatch m)
  | expand id => exact h.expand hm c.engine id
  | restart => exact h.refl _
  | shutdown => exact h.refl _

/-- One step of a session: only the worker touches the host, and only to serve a request. -/
theorem step (h : host.Keeps Asks R) (hm : ∀ method ∈ callMethods, Asks method)
    {supported : Bool} (hw : supported = true → Asks "workspace/symbol")
    {s t : Session (CoreEngine S)} {a : SessionAction}
    (hst : s.step (coreEngine host supported) a = some t) :
    R s.engine.engine.server t.engine.engine.server := by
  have hc := Session.step_case hst
  cases hc with
  | serve r => exact h.serveRequest hm hw s.engine r
  | _ => exact h.refl _

/-- Over a whole session. -/
theorem session (h : host.Keeps Asks R) (hm : ∀ method ∈ callMethods, Asks method)
    {supported : Bool} (hw : supported = true → Asks "workspace/symbol")
    {s t : Session (CoreEngine S)} {hist : Session.History (CoreEngine S)}
    (hr : Run (Steps (Session.step (coreEngine host supported))) s hist t) :
    R s.engine.engine.server t.engine.engine.server := by
  refine hr.invariant (fun t => R s.engine.engine.server t.engine.engine.server) (h.refl _) ?_
  exact fun u a v hu hst => h.trans hu (h.step hm hw hst)

end Host.Keeps

namespace Environment.Keeps

variable {env : Environment S} {Asks Tells : String → Prop} {R : S → S → Prop}

theorem openFile (h : env.Keeps Asks Tells R) (ht : Tells "textDocument/didOpen") (path : Path)
    (languageId : String) (s : S) : R s (openFile env path languageId s).2 := by
  have hread := h.readFile path s
  unfold LspGraph.openFile
  split
  · rename_i heq
    rw [heq] at hread
    exact hread
  · rename_i heq
    rw [heq] at hread
    exact h.trans hread (h.notify ht _ _)

theorem documentSymbols (h : env.Keeps Asks Tells R)
    (hd : Asks "textDocument/documentSymbol") (path : Path) (s : S) :
    R s (documentSymbols env path s).2 := by
  have hreq := h.request hd (.object [("textDocument",
    .object [("uri", .string (pathToUri env.toHost path).serialization)])]) requestTimeout s
  unfold LspGraph.documentSymbols
  split
  · rename_i heq
    rw [heq] at hreq
    exact hreq
  · rename_i heq
    rw [heq] at hreq
    split_ifs <;> exact hreq

theorem gather (h : env.Keeps Asks Tells R) (ht : Tells "textDocument/didOpen")
    (hd : Asks "textDocument/documentSymbol") (deadline : Nat) (languageId : String)
    (cfg : ReadinessConfig) (paths : List Path) (g : Gathered) (s : S) :
    R s (gather env deadline languageId cfg paths g s).2 := by
  induction paths generalizing g s with
  | nil => exact h.refl s
  | cons path paths ih =>
    have hopen := h.openFile ht path languageId s
    unfold LspGraph.gather
    split_ifs
    · exact h.refl s
    dsimp only
    generalize LspGraph.openFile env path languageId s = p at hopen ⊢
    obtain ⟨err | u, s₁⟩ := p
    · exact h.trans hopen (ih _ s₁)
    have hsyms := h.trans hopen (h.documentSymbols hd path s₁)
    dsimp only
    generalize LspGraph.documentSymbols env path s₁ = q at hsyms ⊢
    obtain ⟨err | syms, s₂⟩ := q
    · exact h.trans hsyms (ih _ s₂)
    · exact h.trans hsyms (ih _ s₂)

theorem pollCandidates (h : env.Keeps Asks Tells R) (hm : ∀ method ∈ callMethods, Asks method)
    (deadline : Nat) (candidates : List NamedCallable) (s : S) :
    R s (pollCandidates env deadline candidates s).2 := by
  induction candidates generalizing s with
  | nil => exact h.refl s
  | cons c candidates ih =>
    have hp := h.prepareCallHierarchy hm ((env.toFilePath c.uri).getD ⟨""⟩) c.position s
    unfold LspGraph.pollCandidates
    split_ifs
    · exact h.refl s
    dsimp only
    generalize LspGraph.prepareCallHierarchy env.toHost _ c.position s = p at hp ⊢
    obtain ⟨err | items, s₁⟩ := p
    · exact h.trans hp (ih s₁)
    · dsimp only
      split_ifs
      · exact h.trans hp (ih s₁)
      · exact hp

/-- By induction on the time left: a round of polling takes some of it. -/
theorem pollRounds (h : env.Keeps Asks Tells R) (hm : ∀ method ∈ callMethods, Asks method)
    (deadline : Nat) (candidates : List NamedCallable) (s : S) :
    R s (pollRounds env deadline candidates s).2 := by
  induction hn : deadline - env.now s using Nat.strong_induction_on generalizing s with
  | _ n ih =>
    have hround := h.pollCandidates hm deadline candidates s
    have hnow := now_pollCandidates env deadline candidates s
    rw [pollRounds_eq]
    split_ifs with hdead hfound
    · exact h.refl s
    · exact hround
    · have hsleep := env.sleep_now pollDelay (LspGraph.pollCandidates env deadline candidates s).2
      have hpos : 0 < Duration.nanos pollDelay := by decide
      refine h.trans (h.trans hround (h.sleep pollDelay _)) (ih _ ?_ _ rfl)
      omega

theorem waitUntilReady (h : env.Keeps Asks Tells R) (hm : ∀ method ∈ callMethods, Asks method)
    (ht : Tells "textDocument/didOpen") (hd : Asks "textDocument/documentSymbol")
    (files : List Path) (languageId : String) (cfg : ReadinessConfig) (s : S) :
    R s (waitUntilReady env files languageId cfg s).2 := by
  have hg := h.gather ht hd (env.now s + cfg.timeout.nanos) languageId cfg
    (evenStride files cfg.maxFiles) ⟨[], 0, 0⟩ s
  unfold LspGraph.waitUntilReady pollGathered
  dsimp only
  generalize LspGraph.gather env _ languageId cfg _ _ s = p at hg ⊢
  split_ifs
  · exact hg
  · have hrounds := h.trans hg (h.pollRounds hm (env.now s + cfg.timeout.nanos) p.1.candidates p.2)
    generalize LspGraph.pollRounds env _ p.1.candidates p.2 = q at hrounds ⊢
    obtain ⟨found, s₁⟩ := q
    cases found <;> exact hrounds

end Environment.Keeps

end LspGraph
