import LspGraph.EngineExploration
import LspGraph.HostUse
import LspGraph.ReadinessDeadline

/-! What a history of the engine costs the server: how often it is asked, and in which way the
requests that it turns down are repeated. -/
namespace LspGraph
open Runs

variable {S : Type*}

/-- A request and its repetitions: each but the last is turned down because the content was
modified, and followed by a pause. -/
inductive Repeats (method : String) (params : Value) : Nat → List Entry → Result Value → Prop where
  | last (answer : Result Value) (start stop : Nat) :
      Repeats method params 1 [⟨.request method params answer, start, stop⟩] answer
  | again (m : String) (start stop start' stop' : Nat) {n : Nat} {es : List Entry}
      {answer : Result Value} : Repeats method params n es answer →
      Repeats method params (n + 1) (⟨.request method params (.error (.contentModified m)), start,
        stop⟩ :: ⟨.sleep retryDelay, start', stop'⟩ :: es) answer

theorem Repeats.requests {method : String} {params : Value} {n : Nat} {es : List Entry}
    {answer : Result Value} (h : Repeats method params n es answer) :
    es.countP (·.op.isRequest) = n := by
  induction h with
  | last => rfl
  | again m start stop start' stop' _ ih =>
    rw [List.countP_cons_of_pos (by rfl), List.countP_cons_of_neg (by simp [Operation.isRequest]),
      ih]

/-- One question of the engine: asked at most three times, and given up only after three. -/
def Question (es : List Entry) : Prop :=
  ∃ method params n answer, method ∈ callMethods ∧ Repeats method params n es answer ∧
    n ≤ maxAttempts ∧ ∀ m, answer = .error (.contentModified m) → n = maxAttempts

/-- A stretch made of this many questions, one after the other. -/
inductive Questions : Nat → List Entry → Prop where
  | nil : Questions 0 []
  | cons {k : Nat} {es es' : List Entry} : Question es → Questions k es' →
      Questions (k + 1) (es ++ es')

namespace Questions

variable {k k' : Nat} {es es' : List Entry}

theorem single (h : Question es) : Questions 1 es := List.append_nil es ▸ cons h nil

theorem append (h : Questions k es) (h' : Questions k' es') :
    Questions (k + k') (es ++ es') := by
  induction h with
  | nil => rwa [Nat.zero_add]
  | cons hq _ ih =>
    rw [List.append_assoc, Nat.succ_add]
    exact cons hq ih

theorem requests_le (h : Questions k es) : es.countP (·.op.isRequest) ≤ maxAttempts * k := by
  induction h with
  | nil => exact Nat.le_refl 0
  | cons hq _ ih =>
    obtain ⟨method, params, n, answer, -, hr, hn, -⟩ := hq
    rw [List.countP_append, hr.requests, Nat.mul_succ]
    omega

end Questions

variable (env : Environment S)

theorem repeats_requestAttempts (method : String) (params : Value) (left : Nat) (s : S) :
    ∃ n es, Performs env s es (requestAttempts env.toHost method params left s).2 ∧
      Repeats method params n es (requestAttempts env.toHost method params left s).1 ∧
      n ≤ left + 1 ∧ ∀ m, (requestAttempts env.toHost method params left s).1 =
        .error (.contentModified m) → n = left + 1 := by
  induction left generalizing s with
  | zero =>
    exact ⟨1, _, .request method params requestTimeout s, .last _ _ _, Nat.le_refl 1,
      fun _ _ => rfl⟩
  | succ left ih =>
    have hreq : Performs env s _ _ := .request method params requestTimeout s
    unfold requestAttempts
    split
    · -- turned down: the attempts that are left follow the pause
      rename_i m s₁ heq
      obtain ⟨n, es, hes, hrep, hle, hall⟩ := ih (env.sleep retryDelay s₁)
      rw [heq] at hreq
      exact ⟨n + 1, _, hreq.trans ((Performs.sleep retryDelay s₁).trans hes),
        hrep.again m _ _ _ _, Nat.succ_le_succ hle, fun m' hm => congrArg (· + 1) (hall m' hm)⟩
    · rename_i hne
      refine ⟨1, _, hreq, .last _ _ _, by omega, fun m hm => ?_⟩
      exact (hne m _ (Prod.ext hm rfl)).elim

/-- The request behind a question, and what is done while it is asked. -/
theorem question_of_request {method : String} (hm : method ∈ callMethods) (params : Value) (s : S) :
    ∃ es, Performs env s es (requestRetryingContentModified env.toHost method params s).2 ∧
      Question es := by
  obtain ⟨n, es, hes, hrep, hle, hall⟩ :=
    repeats_requestAttempts env method params (maxAttempts - 1) s
  exact ⟨es, hes, method, params, n, _, hm, hrep, hle, hall⟩

theorem question_prepare (path : Path) (pos : Position) (s : S) :
    ∃ es, Performs env s es (prepareCallHierarchy env.toHost path pos s).2 ∧ Question es := by
  obtain ⟨params, hp⟩ := prepareCallHierarchy_state env.toHost path pos s
  rw [hp]
  exact question_of_request env (by decide) params s

theorem question_callsOf {method : String} (hm : method ∈ callMethods) (field : String)
    (item : CallHierarchyItem) (s : S) :
    ∃ es, Performs env s es (callsOf env.toHost method field item s).2 ∧ Question es := by
  have hstate : (callsOf env.toHost method field item s).2 = (requestRetryingContentModified
      env.toHost method (.object [("item", env.itemToValue item)]) s).2 := by
    unfold callsOf
    split
    · rename_i heq
      rw [heq]
    · rename_i heq
      rw [heq]
  rw [hstate]
  exact question_of_request env hm _ s

def EngineOp.isSeed : EngineOp → Bool
  | .seed _ => true
  | _ => false

namespace Engine

variable {env} {e : Engine S}

/-- A seed asks at most one question. -/
theorem questions_seed (env : Environment S) (e : Engine S) (cand : NamedCallable) :
    ∃ k es, Performs env e.server es (e.seed env.toHost cand).2.server ∧ Questions k es ∧
      k ≤ 1 := by
  unfold seed
  cases env.toFilePath cand.uri with
  | none => exact ⟨0, [], .refl _, .nil, Nat.zero_le 1⟩
  | some path =>
    obtain ⟨es, hes, hq⟩ := question_prepare env path cand.position e.server
    refine ⟨1, es, ?_, .single hq, Nat.le_refl 1⟩
    dsimp only
    generalize prepareCallHierarchy env.toHost path cand.position e.server = p at hes ⊢
    obtain ⟨err | items, s⟩ := p
    · cases err <;> exact hes
    · cases items <;> exact hes

variable (env) in
/-- Whether an operation is an expansion that fails. -/
def fails (e : Engine S) : EngineOp → Bool
  | .expand id => (e.expand env.toHost id).1.toOption.isNone
  | _ => false

/-- An expansion asks two questions if it is performed, at most two if it fails, and none if it is
answered from the memo. -/
theorem questions_expand (env : Environment S) (e : Engine S) (id : NodeId) :
    ∃ k es, Performs env e.server es (e.expand env.toHost id).2.server ∧ Questions k es ∧
      k + 2 * e.expansions ≤ 2 * (e.expand env.toHost id).2.expansions +
        2 * (e.fails env (.expand id)).toNat := by
  have hfails : e.fails env (.expand id) = (e.expand env.toHost id).1.toOption.isNone := rfl
  rw [hfails]
  generalize hr : e.expand env.toHost id = r
  unfold expand at hr
  split_ifs at hr with hx
  · obtain rfl := hr
    exact ⟨0, [], .refl _, .nil, by dsimp only; omega⟩
  cases hi : e.items.lookup id with
  | none =>
    rw [hi] at hr
    obtain rfl := hr
    exact ⟨0, [], .refl _, .nil, by dsimp only; omega⟩
  | some item =>
    obtain ⟨es₁, hes₁, hq₁⟩ :=
      question_callsOf env (by decide : "callHierarchy/incomingCalls" ∈ callMethods) "from" item
        e.server
    change Performs env e.server es₁ (incomingCalls env.toHost item e.server).2 at hes₁
    rw [hi] at hr
    dsimp only at hr
    generalize incomingCalls env.toHost item e.server = p at hes₁ hr
    obtain ⟨err | incoming, s₁⟩ := p
    · obtain rfl := hr
      refine ⟨1, es₁, hes₁, .single hq₁, ?_⟩
      change 1 + 2 * e.expansions ≤ 2 * e.expansions + 2
      omega
    obtain ⟨es₂, hes₂, hq₂⟩ :=
      question_callsOf env (by decide : "callHierarchy/outgoingCalls" ∈ callMethods) "to" item s₁
    change Performs env s₁ es₂ (outgoingCalls env.toHost item s₁).2 at hes₂
    have hboth : Questions 2 (es₁ ++ es₂) := .cons hq₁ (.single hq₂)
    dsimp only at hr
    generalize outgoingCalls env.toHost item s₁ = q at hes₂ hr
    obtain ⟨err | outgoing, s₂⟩ := q
    · obtain rfl := hr
      refine ⟨2, _, hes₁.trans hes₂, hboth, ?_⟩
      change 2 + 2 * e.expansions ≤ 2 * e.expansions + 2
      omega
    · -- interning the answers asks nothing, and counts no expansion
      obtain rfl := hr
      let e₁ : Engine S := { e with server := s₂, expansions := e.expansions + 1 }
      let e₂ := interned env.toHost (interned env.toHost e₁ incoming) outgoing
      have hserver : e₂.server = s₂ := by
        rw [show e₂.server = (interned env.toHost e₁ incoming).server from internAll_server _ _ _]
        exact internAll_server _ _ _
      have hexpansions : e₂.expansions = e.expansions + 1 := by
        rw [show e₂.expansions = _ from interned_expansions outgoing]
        exact interned_expansions (e := e₁) incoming
      refine ⟨2, _, ?_, hboth, ?_⟩
      · change Performs env e.server _ e₂.server
        rw [hserver]
        exact hes₁.trans hes₂
      · change 2 + 2 * e.expansions ≤ 2 * e₂.expansions + 0
        rw [hexpansions]
        omega

variable (env) in
/-- What one operation costs: a question for a seed, two for an expansion performed or failed. -/
theorem questions_apply (e : Engine S) (op : EngineOp) :
    ∃ k es, Performs env e.server es (e.apply env.toHost op).2.server ∧ Questions k es ∧
      k + 2 * e.expansions ≤ op.isSeed.toNat + 2 * (e.apply env.toHost op).2.expansions +
        2 * (e.fails env op).toNat := by
  cases op with
  | seed cand =>
    obtain ⟨k, es, hes, hq, hk⟩ := questions_seed env e cand
    refine ⟨k, es, hes, hq, ?_⟩
    change k + _ ≤ 1 + 2 * (e.seed env.toHost cand).2.expansions + 0
    rw [expansions_seed]
    omega
  | expand id =>
    obtain ⟨k, es, hes, hq, hk⟩ := questions_expand env e id
    refine ⟨k, es, hes, hq, ?_⟩
    change _ ≤ 0 + 2 * (e.expand env.toHost id).2.expansions + _
    omega
  | invalidateFile uri =>
    refine ⟨0, [], .refl _, .nil, ?_⟩
    change 0 + 2 * e.expansions ≤ 0 + 2 * e.expansions + 0
    omega

/-- The engine does not ask more than it must: over any history, whatever the server answers and
whatever is invalidated, it asks one question for a seed and two for an expansion that is performed
or fails, none for what is in the memo; and a question is one request, repeated after a pause and at
most twice, and only where the server says that its content was modified. -/
theorem requests_counted (env : Environment S) {s : S} {h : List (Engine S × EngineOp)}
    {e : Engine S} (hr : Run (EngineStep env.toHost) (new s) h e) :
    ∃ k es, env.log e.server = env.log s ++ es ∧ Questions k es ∧
      k ≤ (h.countP fun p => p.2.isSeed) +
        2 * (e.expansions + h.countP fun p => p.1.fails env p.2) ∧
      es.countP (·.op.isRequest) ≤ maxAttempts * k := by
  have hcost : ∃ k es, Performs env s es e.server ∧ Questions k es ∧
      k ≤ (h.countP fun p => p.2.isSeed) +
        2 * (e.expansions + h.countP fun p => p.1.fails env p.2) := by
    refine hr.induct (fun h e => ∃ k es, Performs env s es e.server ∧ Questions k es ∧
      k ≤ (h.countP fun p => p.2.isSeed) +
        2 * (e.expansions + h.countP fun p => p.1.fails env p.2)) ?_ ?_
    · exact ⟨0, [], .refl s, .nil, Nat.zero_le _⟩
    · rintro h e op e' - ⟨k, es, hes, hq, hk⟩ rfl
      obtain ⟨k', es', hes', hq', hk'⟩ := questions_apply env e op
      refine ⟨k + k', _, hes.trans hes', hq.append hq', ?_⟩
      rw [List.countP_append, List.countP_append, List.countP_singleton, List.countP_singleton]
      -- the questions of the step are paid for by what it adds to the three counts
      dsimp only
      generalize op.isSeed = seed at hk' ⊢
      generalize e.fails env op = fails at hk' ⊢
      cases seed <;> cases fails <;> simp at hk' ⊢ <;> omega
  obtain ⟨k, es, hes, hq, hk⟩ := hcost
  exact ⟨k, es, hes.log, hq, hk, hq.requests_le⟩

/-- A server that is busy is asked three times for the one symbol that is seeded. -/
theorem requests_counted_busy :
    ∃ h e k es, Run (EngineStep busyServer.toHost) (new (0, [])) h e ∧
      h.map Prod.snd = [.seed fSymbol] ∧ busyServer.log e.server = es ∧
      es.countP (·.op.isRequest) = 3 ∧ Questions k es ∧ k ≤ 1 := by
  have hr := (Run.start (EngineStep busyServer.toHost) (new (0, []))).snoc
    (a := .seed fSymbol) rfl
  obtain ⟨k, es, hlog, hq, hk, -⟩ := requests_counted busyServer hr
  refine ⟨_, _, k, es, hr, rfl, hlog, ?_, hq, hk⟩
  have hes : busyServer.log (((new (0, [])).apply busyServer.toHost (.seed fSymbol)).2).server =
      es := hlog
  rw [← hes]
  decide

end Engine

end LspGraph
