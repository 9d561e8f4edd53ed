import LspGraph.Readiness
import LspGraph.SampleHost

/-! The deadline of `wait_until_ready`: the budget is looked at before each file and each candidate,
but a file is opened before its symbols are asked for, and a request that is retried waits. -/
namespace LspGraph

def Operation.isRequest : Operation → Bool
  | .request _ _ _ => true
  | _ => false

variable {S : Type*} {env : Environment S} {D : Nat} {s s₁ : S} {es es' : List Entry}

/-- No request is issued at or past the deadline. -/
def Timely (D : Nat) (e : Entry) : Prop := e.op.isRequest = true → e.start < D

instance (D : Nat) (e : Entry) : Decidable (Timely D e) := inferInstanceAs (Decidable (_ → _))

/-- The condition on an operation: the opening of a file that succeeds, and the pause before a
request is repeated, end before the deadline. -/
def Prompt (D : Nat) (e : Entry) : Prop :=
  match e.op with
  | .notify _ _ (.ok _) => e.stop < D
  | .sleep d => d = retryDelay → e.stop < D
  | _ => True

/-- A sleep that begins at or past the deadline. -/
def LateSleep (D : Nat) (e : Entry) : Prop := (∃ d, e.op = .sleep d) ∧ D ≤ e.start

/-- What is done past the deadline: behind an operation that ends there no request is made, and a
sleep that begins there is the one-second pause and the last operation. -/
structure WindsDown (D : Nat) (es : List Entry) : Prop where
  requests : ∀ before e after, es = before ++ e :: after → D ≤ e.stop →
    ∀ e' ∈ after, e'.op.isRequest = false
  sleeps : ∀ before e after, es = before ++ e :: after → LateSleep D e →
    e.op = .sleep pollDelay ∧ after = []

/-- A stretch in which every request is timely exactly if every operation is prompt, and in which
the only pauses are those between the attempts of a request. -/
structure Checked (env : Environment S) (D : Nat) (s : S) (es : List Entry) (s' : S) : Prop where
  performs : Performs env s es s'
  timely_iff : (∀ e ∈ es, Timely D e) ↔ ∀ e ∈ es, Prompt D e
  pauses : ∀ e ∈ es, ∀ d, e.op = .sleep d → d = retryDelay

namespace Checked

theorem refl (D : Nat) (s : S) : Checked env D s [] s :=
  ⟨.refl s, by simp, by simp⟩

theorem trans {s₂ : S} (h : Checked env D s es s₁) (h' : Checked env D s₁ es' s₂) :
    Checked env D s (es ++ es') s₂ := by
  refine ⟨h.performs.trans h'.performs, ?_, ?_⟩
  · rw [List.forall_mem_append, List.forall_mem_append, h.timely_iff, h'.timely_iff]
  · exact List.forall_mem_append.mpr ⟨h.pauses, h'.pauses⟩

/-- Where every operation is prompt no sleep begins past the deadline. -/
theorem not_lateSleep (h : Checked env D s es s₁) (hp : ∀ e ∈ es, Prompt D e) :
    ∀ e ∈ es, ¬LateSleep D e := by
  rintro e he ⟨⟨d, hd⟩, hlate⟩
  have hprompt := hp e he
  unfold Prompt at hprompt
  rw [hd] at hprompt
  have hstop := hprompt (h.pauses e he d hd)
  have horder := (h.performs.within e he).2.1
  omega

end Checked

/-- The attempts of a request: the first is issued at once, each other one behind a pause. -/
theorem attempts_checked (env : Environment S) (D : Nat) (method : String) (params : Value)
    (left : Nat) (s : S) :
    ∃ es, Performs env s es (requestAttempts env.toHost method params left s).2 ∧
      ((∀ e ∈ es, Timely D e) ↔ env.now s < D ∧ ∀ e ∈ es, Prompt D e) ∧
      ∀ e ∈ es, ∀ d, e.op = .sleep d → d = retryDelay := by
  have hone (s : S) : (∀ e ∈ [(⟨.request method params
        (env.request method params requestTimeout s).1, env.now s,
        env.now (env.request method params requestTimeout s).2⟩ : Entry)], Timely D e) ↔
      env.now s < D := by
    simp [Timely, Operation.isRequest]
  induction left generalizing s with
  | zero =>
    refine ⟨_, .request method params requestTimeout s, ?_, by simp⟩
    rw [hone]
    simp [Prompt]
  | succ left ih =>
    have hreq : Performs env s _ _ := .request method params requestTimeout s
    unfold requestAttempts
    split
    · -- `ContentModified`: this attempt, the pause, and the attempts left
      rename_i m s₁ heq
      obtain ⟨es, hes, hiff, hpauses⟩ := ih (env.sleep retryDelay s₁)
      rw [heq] at hreq
      refine ⟨_, (hreq.trans (.sleep retryDelay s₁)).trans hes, ?_, ?_⟩
      · have h := hone s
        rw [heq] at h
        rw [List.forall_mem_append, List.forall_mem_append, h, hiff]
        simp [Timely, Prompt, Operation.isRequest]
      · simpa using hpauses
    · refine ⟨_, hreq, ?_, by simp⟩
      rw [hone]
      simp [Prompt]

theorem prepare_checked (path : Path) (pos : Position) (hs : env.now s < D) :
    ∃ es, Checked env D s es (prepareCallHierarchy env.toHost path pos s).2 := by
  obtain ⟨params, hp⟩ := prepareCallHierarchy_state env.toHost path pos s
  obtain ⟨es, hes, hiff, hpauses⟩ := attempts_checked env D
    "textDocument/prepareCallHierarchy" params (maxAttempts - 1) s
  rw [hp]
  exact ⟨es, hes, hiff.trans (and_iff_right hs), hpauses⟩

/-- Opening a file makes no request; if it succeeds, it is prompt when it ends in time. -/
theorem open_performs (env : Environment S) (D : Nat) (path : Path) (languageId : String) (s : S) :
    ∃ es, Performs env s es (openFile env path languageId s).2 ∧
      (∀ e ∈ es, e.op.isRequest = false ∧ ∀ d, e.op ≠ .sleep d) ∧
      ((∀ e ∈ es, Prompt D e) ↔ ((openFile env path languageId s).1 = .ok () →
        env.now (openFile env path languageId s).2 < D)) := by
  have hread : Performs env s _ _ :=
    .single (env.readFile_log path s) (env.readFile_now path s)
  unfold openFile
  split
  · rename_i e s₁ heq
    rw [heq] at hread
    exact ⟨_, hread, by simp [Operation.isRequest], by simp [Prompt]⟩
  · rename_i text s₁ heq
    rw [heq] at hread
    dsimp only
    generalize (Value.object _ : Value) = params
    have hnotify : Performs env s₁ _ _ :=
      .single (env.notify_log "textDocument/didOpen" params s₁)
        (env.notify_now "textDocument/didOpen" params s₁)
    refine ⟨_, hread.trans hnotify, by simp [Operation.isRequest], ?_⟩
    cases (env.notify "textDocument/didOpen" params s₁).1 <;> simp [Prompt]

theorem documentSymbols_state (env : Environment S) (path : Path) (s : S) :
    ∃ params, (documentSymbols env path s).2 =
      (env.request "textDocument/documentSymbol" params requestTimeout s).2 := by
  refine ⟨.object [("textDocument",
    .object [("uri", .string (pathToUri env.toHost path).serialization)])], ?_⟩
  unfold documentSymbols
  split
  · rename_i heq
    rw [heq]
  · rename_i heq
    rw [heq]
    split_ifs <;> rfl

/-- The symbols of a file are asked for when it is open, however long that took. -/
theorem file_checked {path : Path} {languageId : String}
    (ho : openFile env path languageId s = (.ok (), s₁)) :
    ∃ es, Checked env D s es (documentSymbols env path s₁).2 := by
  obtain ⟨es, hes, hquiet, hprompt⟩ := open_performs env D path languageId s
  obtain ⟨params, hp⟩ := documentSymbols_state env path s₁
  have hreq : Performs env s₁ _ _ :=
    .request "textDocument/documentSymbol" params requestTimeout s₁
  rw [ho] at hes hprompt
  rw [hp]
  refine ⟨_, hes.trans hreq, ?_, ?_⟩
  · have htimely : ∀ e ∈ es, Timely D e := fun e he hr => by simp [(hquiet e he).1] at hr
    rw [List.forall_mem_append, List.forall_mem_append, hprompt]
    simp only [iff_true_intro htimely]
    simp [Timely, Prompt, Operation.isRequest]
  · refine List.forall_mem_append.mpr ⟨fun e he d hd => ?_, by simp⟩
    exact absurd hd ((hquiet e he).2 d)

theorem openFailed_checked {path : Path} {languageId : String} {err : Error}
    (ho : openFile env path languageId s = (.error err, s₁)) :
    ∃ es, Checked env D s es s₁ := by
  obtain ⟨es, hes, hquiet, hprompt⟩ := open_performs env D path languageId s
  rw [ho] at hes hprompt
  refine ⟨es, hes, ?_, fun e he d hd => absurd hd ((hquiet e he).2 d)⟩
  have htimely : ∀ e ∈ es, Timely D e := fun e he hr => by simp [(hquiet e he).1] at hr
  rw [hprompt]
  exact iff_of_true htimely fun h => by cases h

theorem budget_left (h : ¬(remainingBudget D (env.now s)).isNone = true) : env.now s < D := by
  by_contra hn
  simp [remainingBudget, hn] at h

/-- One turn of the first loop: what it gathers from a file, and where it leads. -/
inductive GatherTurn (env : Environment S) (languageId : String) (cfg : ReadinessConfig)
    (path : Path) (g : Gathered) (s : S) : Gathered → S → Prop where
  | notOpened {e : Error} {s₁ : S} : openFile env path languageId s = (.error e, s₁) →
      GatherTurn env languageId cfg path g s
        ⟨g.candidates, g.filesAttempted + 1, g.filesFailed + 1⟩ s₁
  | notListed {e : Error} {s₁ s₂ : S} : openFile env path languageId s = (.ok (), s₁) →
      documentSymbols env path s₁ = (.error e, s₂) →
      GatherTurn env languageId cfg path g s
        ⟨g.candidates, g.filesAttempted + 1, g.filesFailed + 1⟩ s₂
  | listed {syms : List DocumentSymbol} {s₁ s₂ : S} :
      openFile env path languageId s = (.ok (), s₁) →
      documentSymbols env path s₁ = (.ok syms, s₂) →
      GatherTurn env languageId cfg path g s
        ⟨g.candidates ++ (collectNamedCallables env.toLibraries (pathToUri env.toHost path) syms
          []).take cfg.perFile, g.filesAttempted + 1, g.filesFailed⟩ s₂

/-- The loop ends at the deadline, or takes a turn for the first path. -/
theorem gather_cons (env : Environment S) (D : Nat) (languageId : String) (cfg : ReadinessConfig)
    (path : Path) (paths : List Path) (g : Gathered) (s : S) :
    gather env D languageId cfg (path :: paths) g s = (g, s) ∨
      ∃ g' s', env.now s < D ∧ GatherTurn env languageId cfg path g s g' s' ∧
        gather env D languageId cfg (path :: paths) g s =
          gather env D languageId cfg paths g' s' := by
  rw [gather]
  split_ifs with hb
  · exact Or.inl rfl
  · have hs := budget_left hb
    apply Or.inr
    dsimp only
    split
    · next ho => exact ⟨_, _, hs, .notOpened ho, rfl⟩
    · next ho =>
      split
      · next hl => exact ⟨_, _, hs, .notListed ho hl, rfl⟩
      · next hl => exact ⟨_, _, hs, .listed ho hl, rfl⟩

theorem turn_checked {languageId : String} {cfg : ReadinessConfig} {path : Path} {g g' : Gathered}
    (h : GatherTurn env languageId cfg path g s g' s₁) : ∃ es, Checked env D s es s₁ := by
  cases h with
  | notOpened ho => exact openFailed_checked ho
  | notListed ho hl =>
    obtain ⟨es, hes⟩ := file_checked (D := D) ho
    rw [hl] at hes
    exact ⟨es, hes⟩
  | listed ho hl =>
    obtain ⟨es, hes⟩ := file_checked (D := D) ho
    rw [hl] at hes
    exact ⟨es, hes⟩

theorem gather_checked (env : Environment S) (D : Nat) (languageId : String) (cfg : ReadinessConfig)
    (paths : List Path) (g : Gathered) (s : S) :
    ∃ es, Checked env D s es (gather env D languageId cfg paths g s).2 := by
  induction paths generalizing g s with
  | nil => exact ⟨[], .refl D s⟩
  | cons path paths ih =>
    rcases gather_cons env D languageId cfg path paths g s with heq | ⟨g', s', -, hturn, heq⟩
    · rw [heq]
      exact ⟨[], .refl D s⟩
    · rw [heq]
      obtain ⟨es, hes⟩ := turn_checked (D := D) hturn
      obtain ⟨es', hes'⟩ := ih g' s'
      exact ⟨_, hes.trans hes'⟩

/-- In a round of polling the budget is looked at before each candidate. -/
theorem pollCandidates_checked (env : Environment S) (D : Nat) (candidates : List NamedCallable)
    (s : S) :
    ∃ es, Checked env D s es (pollCandidates env D candidates s).2 := by
  induction candidates generalizing s with
  | nil => exact ⟨[], .refl D s⟩
  | cons c candidates ih =>
    unfold pollCandidates
    split_ifs with hb
    · exact ⟨[], .refl D s⟩
    · dsimp only
      obtain ⟨es, hes⟩ := prepare_checked ((env.toFilePath c.uri).getD ⟨""⟩) c.position
        (budget_left hb)
      split
      · rename_i hp
        rw [hp] at hes
        split_ifs
        · obtain ⟨es', hes'⟩ := ih _
          exact ⟨_, hes.trans hes'⟩
        · exact ⟨es, hes⟩
      · rename_i hp
        rw [hp] at hes
        obtain ⟨es', hes'⟩ := ih _
        exact ⟨_, hes.trans hes'⟩

/-- The last sleep: nothing is done behind a sleep that begins past the deadline. -/
structure LastSleep (D : Nat) (es : List Entry) : Prop where
  last : es.Pairwise fun e _ => ¬LateSleep D e
  pause : ∀ e ∈ es, LateSleep D e → e.op = .sleep pollDelay

theorem LastSleep.append (h : ∀ e ∈ es, ¬LateSleep D e) (h' : LastSleep D es') :
    LastSleep D (es ++ es') := by
  constructor
  · refine List.pairwise_append.mpr ⟨?_, h'.last, fun e he _ _ => h e he⟩
    exact List.pairwise_of_forall_mem_list fun e he _ _ => h e he
  · intro e he hl
    rcases List.mem_append.mp he with he | he
    · exact absurd hl (h e he)
    · exact h'.pause e he hl

/-- The rounds of polling. Past the deadline there is no further round. -/
theorem pollRounds_checked (env : Environment S) (D : Nat) (candidates : List NamedCallable)
    (s : S) :
    ∃ es, Performs env s es (pollRounds env D candidates s).2 ∧
      ((∀ e ∈ es, Timely D e) ↔ ∀ e ∈ es, Prompt D e) ∧
      ((∀ e ∈ es, Prompt D e) → LastSleep D es) ∧ (D ≤ env.now s → es = []) := by
  -- by strong induction on the time left, which every pause shortens
  induction hn : D - env.now s using Nat.strongRecOn generalizing s with
  | ind n ih =>
    subst hn
    rw [pollRounds_eq]
    have hnil : LastSleep D [] := ⟨.nil, by simp⟩
    split_ifs with hd hready
    · exact ⟨[], .refl s, by simp, fun _ => hnil, fun _ => rfl⟩
    · obtain ⟨es, hes⟩ := pollCandidates_checked env D candidates s
      refine ⟨es, hes.performs, hes.timely_iff, fun hp => ?_, fun h => absurd h hd⟩
      have happ := LastSleep.append (hes.not_lateSleep hp) hnil
      rwa [List.append_nil] at happ
    · -- the round, the pause and the rounds behind it
      obtain ⟨es, hes⟩ := pollCandidates_checked env D candidates s
      generalize (pollCandidates env D candidates s).2 = s₁ at hes ⊢
      have hpause : Performs env s₁ _ _ := .sleep pollDelay s₁
      have hsleep := env.sleep_now pollDelay s₁
      have hpos : 0 < Duration.nanos pollDelay := by decide
      have hnow := hes.performs.now
      obtain ⟨es', hes', hiff, hlast, hover⟩ := ih _ (by omega) (env.sleep pollDelay s₁) rfl
      refine ⟨_, hes.performs.trans (hpause.trans hes'), ?_, ?_, fun h => absurd h hd⟩
      · have hdelay : pollDelay ≠ retryDelay := by decide
        rw [List.forall_mem_append, List.forall_mem_append, List.forall_mem_append,
          List.forall_mem_append, hes.timely_iff, hiff]
        simp [Timely, Prompt, Operation.isRequest, hdelay]
      · intro hp
        obtain ⟨hp₁, hp₂⟩ := List.forall_mem_append.mp hp
        obtain ⟨-, hp₃⟩ := List.forall_mem_append.mp hp₂
        refine LastSleep.append (hes.not_lateSleep hp₁) ?_
        -- a pause that ends past the deadline is the last operation, another one began in time
        by_cases hlate : D ≤ env.now (env.sleep pollDelay s₁)
        · rw [hover hlate]
          exact ⟨List.pairwise_singleton _ _, by simp⟩
        · refine LastSleep.append ?_ (hlast hp₃)
          simp only [List.mem_singleton, forall_eq, LateSleep, not_and]
          omega

/-- With timely requests one after the other, and no sleep behind a late one, the run winds
down. -/
theorem windsDown_of_timely {s' : S} (h : Performs env s es s') (ht : ∀ e ∈ es, Timely D e)
    (hl : LastSleep D es) : WindsDown D es := by
  constructor
  · rintro before e after rfl hstop e' he'
    have hord := (List.pairwise_cons.mp (List.pairwise_append.mp h.ordered).2.1).1 e' he'
    have htime := ht e' (List.mem_append_right _ (List.mem_cons_of_mem e he'))
    cases hr : e'.op.isRequest with
    | false => rfl
    | true =>
      have hlt := htime hr
      omega
  · rintro before e after rfl hlate
    refine ⟨hl.pause e (by simp) hlate, ?_⟩
    cases after with
    | nil => rfl
    | cons e' after =>
      have hno := (List.pairwise_cons.mp (List.pairwise_append.mp hl.last).2.1).1 e' (by simp)
      exact absurd hlate hno

theorem pollGathered_state (env : Environment S) (D : Nat) (cfg : ReadinessConfig)
    (p : Gathered × S) : (pollGathered env D cfg p).2 =
      if p.1.candidates.isEmpty then p.2 else (pollRounds env D p.1.candidates p.2).2 := by
  unfold pollGathered
  split_ifs
  · rfl
  · split
    · rename_i heq
      rw [heq]
    · rename_i heq
      rw [heq]

/-- Exactly when readiness respects its deadline: no request is issued at or past it if and only
if every file that is opened is open before it, and every pause before a repeated request ends
before it; and then the request in flight and the one-second pause are all that can remain. -/
theorem readiness_respects_deadline_iff (env : Environment S) (files : List Path)
    (languageId : String) (cfg : ReadinessConfig) (s : S) :
    ∃ es, env.log (waitUntilReady env files languageId cfg s).2 = env.log s ++ es ∧
      ((∀ e ∈ es, Prompt (env.now s + cfg.timeout.nanos) e) ↔
        ∀ e ∈ es, Timely (env.now s + cfg.timeout.nanos) e) ∧
      ((∀ e ∈ es, Prompt (env.now s + cfg.timeout.nanos) e) →
        WindsDown (env.now s + cfg.timeout.nanos) es) := by
  unfold waitUntilReady
  rw [pollGathered_state]
  generalize env.now s + cfg.timeout.nanos = D
  obtain ⟨es, hes⟩ :=
    gather_checked env D languageId cfg (evenStride files cfg.maxFiles) ⟨[], 0, 0⟩ s
  generalize gather env D languageId cfg (evenStride files cfg.maxFiles) ⟨[], 0, 0⟩ s = p at hes ⊢
  split_ifs
  · refine ⟨es, hes.performs.log, hes.timely_iff.symm, fun hp => ?_⟩
    have hlast := LastSleep.append (hes.not_lateSleep hp) ⟨.nil, by simp⟩
    rw [List.append_nil] at hlast
    exact windsDown_of_timely hes.performs (hes.timely_iff.mpr hp) hlast
  · obtain ⟨es', hes', hiff, hlast, -⟩ := pollRounds_checked env D p.1.candidates p.2
    have hperf := hes.performs.trans hes'
    have hboth : (∀ e ∈ es ++ es', Prompt D e) ↔ ∀ e ∈ es ++ es', Timely D e := by
      rw [List.forall_mem_append, List.forall_mem_append, hes.timely_iff, hiff]
    refine ⟨es ++ es', hperf.log, hboth, fun hp => ?_⟩
    obtain ⟨hp₁, hp₂⟩ := List.forall_mem_append.mp hp
    exact windsDown_of_timely hperf (hboth.mp hp)
      (LastSleep.append (hes.not_lateSleep hp₁) (hlast hp₂))

/-- The symbols of a file with one function, as a server lists them. -/
def fSymbols : Value := .array [.object [("name", .string "f"), ("kind", .ofI64 12),
  ("range", encodeRange fItem.range), ("selectionRange", encodeRange fItem.selectionRange)]]

/-- An environment with a clock, in which a file takes `reading` to read and a request is answered
by its method, after a while. -/
def timed (reading : Duration) (answer : String → Result Value × Duration) :
    Environment (Nat × List Entry) :=
  { sampleLibraries with
    request := fun method params _ p =>
      ((answer method).1, p.1 + (answer method).2.nanos,
        p.2 ++ [⟨.request method params (answer method).1, p.1, p.1 + (answer method).2.nanos⟩])
    sleep := fun d p => (p.1 + d.nanos, p.2 ++ [⟨.sleep d, p.1, p.1 + d.nanos⟩])
    now := fun p => p.1
    readFile := fun path p =>
      (.ok "fn f() \x7b\x7d", p.1 + reading.nanos,
        p.2 ++ [⟨.readFile path (.ok "fn f() \x7b\x7d"), p.1, p.1 + reading.nanos⟩])
    notify := fun method params p =>
      (.ok (), p.1, p.2 ++ [⟨.notify method params (.ok ()), p.1, p.1⟩])
    symbolsFromValue := fun _ => some [.mk "f" .FUNCTION fItem.selectionRange none]
    log := fun p => p.2
    readFile_now := fun _ p => Nat.le_add_right p.1 reading.nanos
    notify_now := fun _ _ p => Nat.le_refl p.1
    request_now := fun method _ _ p => Nat.le_add_right p.1 (answer method).2.nanos
    sleep_now := fun d p => Nat.le_refl (p.1 + d.nanos)
    readFile_log := fun _ _ => rfl
    notify_log := fun _ _ _ => rfl
    request_log := fun _ _ _ _ => rfl
    sleep_log := fun _ _ => rfl }

/-- A file that takes two seconds to read, on a server that knows no symbols. -/
def slowFile : Environment (Nat × List Entry) := timed 2000 fun _ => (.ok .null, 10)

/-- A server that is busy: it lists the symbols of a file at once, and answers what is asked about
them with `ContentModified`, after nine tenths of a second. -/
def busyServer : Environment (Nat × List Entry) := timed 0 fun method =>
  if method = "textDocument/documentSymbol" then (.ok fSymbols, 0)
  else (.error (.contentModified method), 900)

/-- One second to get ready. -/
def oneSecond : ReadinessConfig := { ReadinessConfig.default with timeout := 1000 }

/-- Past the deadline of one second the symbols of the slow file are asked for, and the busy
server is asked again. -/
theorem requests_past_the_deadline :
    (∃ e ∈ slowFile.log (waitUntilReady slowFile [⟨"/a.rs"⟩] "rust" oneSecond (0, [])).2,
      ¬Timely (slowFile.now (0, []) + oneSecond.timeout.nanos) e) ∧
    ∃ e ∈ busyServer.log (waitUntilReady busyServer [⟨"/a.rs"⟩] "rust" oneSecond (0, [])).2,
      ¬Timely (busyServer.now (0, []) + oneSecond.timeout.nanos) e := by
  constructor
  · decide
  · -- one round, in which the first candidate is asked three times
    unfold waitUntilReady
    rw [pollGathered_state, if_neg (by decide), pollRounds_eq, if_neg (by decide),
      if_neg (by decide), pollRounds_eq, if_pos (by decide)]
    decide

end LspGraph
