import LspGraph.ReadinessDeadline
import LspGraph.ReadinessSampling

/-! The verdict of `wait_until_ready`, compared with what was done: the files that were attempted
and the candidates that were polled, up to the deadline. -/
namespace LspGraph

variable {S : Type*} (env : Environment S) (D : Nat)

/-- What became of a sampled file: its symbols, or `none` where one of the two steps failed. -/
abbrev Attempt := Path × Option (List DocumentSymbol)

/-- What a file contributes to the candidates. -/
def contribution (perFile : Nat) (a : Attempt) : List NamedCallable :=
  (a.2.elim [] fun syms =>
    collectNamedCallables env.toLibraries (pathToUri env.toHost a.1) syms []).take perFile

/-- A file, opened and then asked for its symbols. -/
inductive Attempted (languageId : String) : S → Attempt → S → Prop where
  | notOpened {path : Path} {s s₁ : S} {e : Error} :
      openFile env path languageId s = (.error e, s₁) → Attempted languageId s (path, none) s₁
  | notListed {path : Path} {s s₁ s₂ : S} {e : Error} :
      openFile env path languageId s = (.ok (), s₁) →
      documentSymbols env path s₁ = (.error e, s₂) → Attempted languageId s (path, none) s₂
  | listed {path : Path} {s s₁ s₂ : S} {syms : List DocumentSymbol} :
      openFile env path languageId s = (.ok (), s₁) →
      documentSymbols env path s₁ = (.ok syms, s₂) →
      Attempted languageId s (path, some syms) s₂

/-- Files attempted one after the other, each before the deadline. -/
inductive Attempts (languageId : String) : S → List Attempt → S → Prop where
  | nil (s : S) : Attempts languageId s [] s
  | cons {s s₁ s₂ : S} {a : Attempt} {as : List Attempt} : env.now s < D →
      Attempted env languageId s a s₁ → Attempts languageId s₁ as s₂ →
      Attempts languageId s (a :: as) s₂

/-- The poll of a candidate. -/
def ask (c : NamedCallable) (s : S) : Result (List CallHierarchyItem) × S :=
  prepareCallHierarchy env.toHost ((env.toFilePath c.uri).getD ⟨""⟩) c.position s

/-- A candidate and the answer to its poll. -/
abbrev Poll := NamedCallable × Result (List CallHierarchyItem)

/-- At least one item. -/
def hasItem : Result (List CallHierarchyItem) → Bool
  | .ok items => !items.isEmpty
  | .error _ => false

/-- Candidates polled one after the other, each before the deadline, with pauses in between. -/
inductive Polls : S → List Poll → S → Prop where
  | nil (s : S) : Polls s [] s
  | poll {s s₁ : S} (c : NamedCallable) {ps : List Poll} : env.now s < D →
      Polls (ask env c s).2 ps s₁ → Polls s ((c, (ask env c s).1) :: ps) s₁
  | pause {s s₁ : S} {ps : List Poll} : Polls (env.sleep pollDelay s) ps s₁ → Polls s ps s₁

/-- Whether the first turn of every candidate comes before the deadline, unless one of those
before it is answered with an item. -/
def TurnsInTime : List NamedCallable → S → Prop
  | [], _ => True
  | c :: cs, s =>
    env.now s < D ∧ (hasItem (ask env c s).1 = false → TurnsInTime cs (ask env c s).2)

/-- A run of polls that stops where a candidate is answered with an item. -/
def StopsAtItem (ps : List Poll) (s' : S) : Prop :=
  ∃ c s, ps.getLast? = some (c, (ask env c s).1) ∧ hasItem (ask env c s).1 = true ∧
    (ask env c s).2 = s'

/-- What the verdict says of the files and of the answers: it is ready where the last poll brings
an item, the first one to do so; it counts the candidates, none of which was answered with an
item; and it counts the files, those that failed, and no callable among the others. -/
structure Truthful (files : List Path) (cfg : ReadinessConfig) (attempts : List Attempt)
    (polls : List Poll) (verdict : Result Unit × S) : Prop where
  ok_iff : verdict.1 = .ok () ↔ ∃ p ∈ polls, hasItem p.2 = true
  ok_at_once : ∀ p ∈ polls.dropLast, hasItem p.2 = false
  ok_stops : verdict.1 = .ok () → StopsAtItem env polls verdict.2
  notReady : ∀ t n, verdict.1 = .error (.notReady t n) →
    n = (attempts.flatMap (contribution env cfg.perFile)).length ∧
    n ≤ cfg.maxFiles * cfg.perFile ∧ ∀ p ∈ polls, hasItem p.2 = false
  noCandidates : ∀ a f, verdict.1 = .error (.noCandidates a f) →
    a = attempts.length ∧ a ≤ min files.length cfg.maxFiles ∧
    f = attempts.countP (fun a => a.2.isNone) ∧
    ∀ a ∈ attempts, contribution env cfg.perFile a = []
  others : ∀ e, verdict.1 = .error e →
    (∃ t n, e = .notReady t n) ∨ ∃ a f, e = .noCandidates a f

variable {env D} {s s₁ s₂ : S} {ps ps' : List Poll}

theorem Polls.append (h : Polls env D s ps s₁) (h' : Polls env D s₁ ps' s₂) :
    Polls env D s (ps ++ ps') s₂ := by
  induction h with
  | nil => exact h'
  | poll c hd _ ih => exact .poll c hd (ih h')
  | pause _ ih => exact .pause (ih h')

/-- A round of polling: its polls are of the first candidates, in order, and all but the last
are without an item. -/
structure Round (env : Environment S) (D : Nat) (candidates : List NamedCallable) (s : S)
    (ps : List Poll) (found : Bool) (s' : S) : Prop where
  polls : Polls env D s ps s'
  order : ps.map Prod.fst <+: candidates
  found_iff : found = true ↔ ∃ p ∈ ps, hasItem p.2 = true
  init : ∀ p ∈ ps.dropLast, hasItem p.2 = false
  stops : found = true → StopsAtItem env ps s'
  inTime_iff : TurnsInTime env D candidates s ↔ found = true ∨ ps.map Prod.fst = candidates
  late : found = false → ps.map Prod.fst ≠ candidates → D ≤ env.now s'

theorem pollCandidates_cons (c : NamedCallable) (candidates : List NamedCallable) (s : S) :
    pollCandidates env D (c :: candidates) s =
      if D ≤ env.now s then (false, s)
      else if hasItem (ask env c s).1 = true then (true, (ask env c s).2)
      else pollCandidates env D candidates (ask env c s).2 := by
  rw [pollCandidates]
  unfold remainingBudget ask
  by_cases hd : D ≤ env.now s
  · rw [if_pos hd, if_neg (Nat.not_lt.mpr hd)]
    rfl
  · rw [if_neg hd, if_pos (show env.now s < D by omega)]
    dsimp only [Option.isNone_some]
    rw [if_neg (by decide)]
    rcases prepareCallHierarchy env.toHost ((env.toFilePath c.uri).getD ⟨""⟩) c.position s with
      ⟨r, s'⟩
    rcases r with e | items
    · rfl
    · cases items <;> rfl

variable (env D) in
theorem pollCandidates_round (candidates : List NamedCallable) (s : S) :
    ∃ ps, Round env D candidates s ps (pollCandidates env D candidates s).1
      (pollCandidates env D candidates s).2 := by
  induction candidates generalizing s with
  | nil =>
    exact ⟨[], .nil s, List.prefix_refl _, by simp [pollCandidates], by simp,
      by simp [pollCandidates], by simp [TurnsInTime], by simp⟩
  | cons c candidates ih =>
    rw [pollCandidates_cons]
    split_ifs with hd hitem
    · -- the deadline cuts the round off
      refine ⟨[], .nil s, List.nil_prefix, by simp, by simp, by simp, ?_, fun _ _ => hd⟩
      exact iff_of_false (fun h => absurd h.1 (Nat.not_lt.mpr hd)) (by simp)
    · -- an item ends the round
      refine ⟨[(c, (ask env c s).1)], .poll c (Nat.not_le.mp hd) (.nil _), ?_, by simp [hitem],
        by simp, fun _ => ⟨c, s, rfl, hitem, rfl⟩, ?_, by simp⟩
      · exact List.cons_prefix_cons.mpr ⟨rfl, List.nil_prefix⟩
      · exact iff_of_true ⟨Nat.not_le.mp hd, fun h => by simp [hitem] at h⟩ (.inl rfl)
    · -- no item: the rest of the round goes on from the state behind this poll
      have hno : hasItem (ask env c s).1 = false := Bool.eq_false_iff.mpr hitem
      obtain ⟨ps, hr⟩ := ih (ask env c s).2
      refine ⟨(c, (ask env c s).1) :: ps, .poll c (Nat.not_le.mp hd) hr.polls, ?_, ?_, ?_, ?_, ?_,
        ?_⟩
      · exact List.cons_prefix_cons.mpr ⟨rfl, hr.order⟩
      · rw [hr.found_iff]
        simp [hno]
      · cases ps with
        | nil => simp
        | cons p ps => simpa [hno] using hr.init
      · intro hf
        obtain ⟨c', s', hlast, hstop⟩ := hr.stops hf
        refine ⟨c', s', ?_, hstop⟩
        rw [List.getLast?_cons, hlast]
        rfl
      · have hturns : TurnsInTime env D (c :: candidates) s ↔
            TurnsInTime env D candidates (ask env c s).2 :=
          ⟨fun h => h.2 hno, fun h => ⟨Nat.not_le.mp hd, fun _ => h⟩⟩
        rw [hturns, hr.inTime_iff, List.map_cons, List.cons_inj_right]
      · intro hf hne
        refine hr.late hf fun heq => hne ?_
        rw [List.map_cons, heq]

/-- All rounds: the polls are of the candidates, those of the first round before all others. -/
structure Rounds (env : Environment S) (D : Nat) (candidates : List NamedCallable) (s : S)
    (ps : List Poll) (found : Bool) (s' : S) : Prop where
  polls : Polls env D s ps s'
  mem : ∀ p ∈ ps, p.1 ∈ candidates
  found_iff : found = true ↔ ∃ p ∈ ps, hasItem p.2 = true
  init : ∀ p ∈ ps.dropLast, hasItem p.2 = false
  stops : found = true → StopsAtItem env ps s'
  inTime_iff : TurnsInTime env D candidates s ↔ found = true ∨ candidates <+: ps.map Prod.fst
  late : D ≤ env.now s → ps = [] ∧ found = false

theorem Round.rounds {candidates : List NamedCallable} {found : Bool}
    (h : Round env D candidates s ps found s₁) (hs : env.now s < D) (hf : found = true) :
    Rounds env D candidates s ps found s₁ := by
  refine ⟨h.polls, fun p hp => h.order.subset (List.mem_map_of_mem hp), h.found_iff, h.init,
    h.stops, ?_, fun hd => absurd hs (Nat.not_lt.mpr hd)⟩
  exact iff_of_true (h.inTime_iff.mpr (.inl hf)) (.inl hf)

/-- A round without an item, the pause, and the rounds behind it. -/
theorem Round.append {candidates : List NamedCallable} {found : Bool}
    (h : Round env D candidates s ps false s₁)
    (h' : Rounds env D candidates (env.sleep pollDelay s₁) ps' found s₂) (hs : env.now s < D) :
    Rounds env D candidates s (ps ++ ps') found s₂ := by
  have hnone : ∀ p ∈ ps, hasItem p.2 = false := by
    intro p hp
    by_contra hitem
    exact absurd (h.found_iff.mpr ⟨p, hp, Bool.eq_true_of_not_eq_false hitem⟩) (by simp)
  -- a round that is cut off is the last one
  have hcut (hne : ps.map Prod.fst ≠ candidates) : ps' = [] ∧ found = false := by
    apply h'.late
    have hsleep := env.sleep_now pollDelay s₁
    have hover := h.late rfl hne
    omega
  refine ⟨h.polls.append (.pause h'.polls), ?_, ?_, ?_, ?_, ?_,
    fun hd => absurd hs (Nat.not_lt.mpr hd)⟩
  · intro p hp
    rcases List.mem_append.mp hp with hp | hp
    · exact h.order.subset (List.mem_map_of_mem hp)
    · exact h'.mem p hp
  · rw [h'.found_iff]
    constructor
    · exact fun ⟨p, hp, hitem⟩ => ⟨p, List.mem_append_right _ hp, hitem⟩
    · rintro ⟨p, hp, hitem⟩
      rcases List.mem_append.mp hp with hp | hp
      · rw [hnone p hp] at hitem
        cases hitem
      · exact ⟨p, hp, hitem⟩
  · -- the last poll of all is that of the later rounds, if they have one
    intro p hp
    rcases List.eq_nil_or_concat ps' with rfl | ⟨init, last, rfl⟩
    · rw [List.append_nil] at hp
      exact hnone p (List.dropLast_subset _ hp)
    · rw [List.concat_eq_append, ← List.append_assoc, List.dropLast_concat] at hp
      rcases List.mem_append.mp hp with hp | hp
      · exact hnone p hp
      · exact h'.init p (by simpa using hp)
  · intro hf
    obtain ⟨c, s', hlast, hstop⟩ := h'.stops hf
    refine ⟨c, s', ?_, hstop⟩
    rw [List.getLast?_append, hlast]
    rfl
  · rw [h.inTime_iff, List.map_append]
    constructor
    · rintro (hf | heq)
      · cases hf
      · exact .inr (heq ▸ List.prefix_append _ _)
    · intro hor
      by_contra hne
      obtain ⟨rfl, rfl⟩ := hcut fun heq => hne (.inr heq)
      rcases hor with hf | hpre
      · cases hf
      · rw [List.map_nil, List.append_nil] at hpre
        exact hne (.inr (h.order.eq_of_length_le hpre.length_le))

variable (env D) in
theorem pollRounds_rounds (candidates : List NamedCallable) (s : S) :
    ∃ ps, Rounds env D candidates s ps (pollRounds env D candidates s).1
      (pollRounds env D candidates s).2 := by
  -- by strong induction on the time left, which every pause shortens
  induction hn : D - env.now s using Nat.strongRecOn generalizing s with
  | ind n ih =>
    subst hn
    rw [pollRounds_eq]
    obtain ⟨ps, hr⟩ := pollCandidates_round env D candidates s
    have hnow := now_pollCandidates env D candidates s
    generalize (pollCandidates env D candidates s).1 = found,
      (pollCandidates env D candidates s).2 = s₁ at hr hnow ⊢
    split_ifs with hd hfound
    · -- out of time before the first turn
      refine ⟨[], .nil s, by simp, by simp, by simp, by simp, ?_, fun _ => ⟨rfl, rfl⟩⟩
      cases candidates with
      | nil => simp [TurnsInTime]
      | cons c cs =>
        exact iff_of_false (fun h => absurd h.1 (Nat.not_lt.mpr hd)) (by simp)
    · subst hfound
      exact ⟨ps, hr.rounds (Nat.not_le.mp hd) rfl⟩
    · obtain rfl := Bool.eq_false_iff.mpr hfound
      have hsleep := env.sleep_now pollDelay s₁
      have hpos : 0 < Duration.nanos pollDelay := by decide
      obtain ⟨ps', hr'⟩ := ih _ (by omega) (env.sleep pollDelay s₁) rfl
      exact ⟨ps ++ ps', hr.append hr' (Nat.not_le.mp hd)⟩

/-- A turn of the first loop is an attempt, and gathers what the attempt contributes. -/
theorem attempted_of_turn {languageId : String} {cfg : ReadinessConfig} {path : Path}
    {g g' : Gathered} (h : GatherTurn env languageId cfg path g s g' s₁) :
    ∃ a, a.1 = path ∧ Attempted env languageId s a s₁ ∧
      g' = ⟨g.candidates ++ contribution env cfg.perFile a, g.filesAttempted + 1,
        g.filesFailed + [a].countP fun a => a.2.isNone⟩ := by
  cases h with
  | notOpened ho => exact ⟨(path, none), rfl, .notOpened ho, by simp [contribution]⟩
  | notListed ho hl => exact ⟨(path, none), rfl, .notListed ho hl, by simp [contribution]⟩
  | listed ho hl => exact ⟨(path, some _), rfl, .listed ho hl, by simp [contribution]⟩

/-- What the first loop gathers, and what it counts. -/
theorem gather_attempts (env : Environment S) (D : Nat) (languageId : String)
    (cfg : ReadinessConfig) (paths : List Path) (g : Gathered) (s : S) :
    ∃ as, Attempts env D languageId s as (gather env D languageId cfg paths g s).2 ∧
      as.map Prod.fst <+: paths ∧
      (gather env D languageId cfg paths g s).1 =
        ⟨g.candidates ++ as.flatMap (contribution env cfg.perFile),
          g.filesAttempted + as.length, g.filesFailed + as.countP fun a => a.2.isNone⟩ := by
  induction paths generalizing g s with
  | nil => exact ⟨[], .nil s, List.prefix_refl _, by simp [gather]⟩
  | cons path paths ih =>
    rcases gather_cons env D languageId cfg path paths g s with heq | ⟨g', s', hs, hturn, heq⟩
    · rw [heq]
      exact ⟨[], .nil s, List.nil_prefix, by simp⟩
    · rw [heq]
      obtain ⟨a, rfl, ha, rfl⟩ := attempted_of_turn hturn
      obtain ⟨as, has, hpre, hsum⟩ := ih _ s'
      refine ⟨a :: as, .cons hs ha has, List.cons_prefix_cons.mpr ⟨rfl, hpre⟩, ?_⟩
      rw [hsum, List.flatMap_cons, List.append_assoc, Nat.add_assoc, Nat.add_assoc,
        ← List.countP_append]
      simp [Nat.add_comm 1]

theorem length_contribution_le (perFile : Nat) (as : List Attempt) :
    (as.flatMap (contribution env perFile)).length ≤ as.length * perFile := by
  induction as with
  | nil => simp
  | cons a as ih =>
    have htake : (contribution env perFile a).length ≤ perFile := List.length_take_le _ _
    rw [List.flatMap_cons, List.length_append, List.length_cons, Nat.succ_mul]
    omega

variable (env D) in
/-- The second loop, behind any gathering: what the verdict says, and whether all were polled. -/
theorem pollGathered_verdict {files : List Path} {cfg : ReadinessConfig}
    (attempts : List Attempt) (s : S) (hfiles : attempts.length ≤ min files.length cfg.maxFiles) :
    ∃ polls, ∀ verdict, verdict = pollGathered env D cfg
        (⟨attempts.flatMap (contribution env cfg.perFile), attempts.length,
          attempts.countP fun a => a.2.isNone⟩, s) →
      Polls env D s polls verdict.2 ∧
      (∀ p ∈ polls, p.1 ∈ attempts.flatMap (contribution env cfg.perFile)) ∧
      Truthful env files cfg attempts polls verdict ∧
      ((∀ t n, verdict.1 = .error (.notReady t n) →
          attempts.flatMap (contribution env cfg.perFile) <+: polls.map Prod.fst) ↔
        TurnsInTime env D (attempts.flatMap (contribution env cfg.perFile)) s) := by
  have hbound : (attempts.flatMap (contribution env cfg.perFile)).length ≤
      cfg.maxFiles * cfg.perFile := by
    calc (attempts.flatMap (contribution env cfg.perFile)).length
      _ ≤ attempts.length * cfg.perFile := length_contribution_le cfg.perFile attempts
      _ ≤ cfg.maxFiles * cfg.perFile :=
          Nat.mul_le_mul_right _ (hfiles.trans (Nat.min_le_right _ _))
  have hnothing (h : attempts.flatMap (contribution env cfg.perFile) = []) :
      ∀ a ∈ attempts, contribution env cfg.perFile a = [] := List.flatMap_eq_nil_iff.mp h
  generalize hc : attempts.flatMap (contribution env cfg.perFile) = candidates at hbound hnothing ⊢
  unfold pollGathered
  dsimp only
  split_ifs with hempty
  · -- nothing to poll: the counts of the first loop are all there is to say
    have hempty := List.isEmpty_iff.mp hempty
    refine ⟨[], ?_⟩
    rintro _ rfl
    refine ⟨.nil s, by simp, ⟨by simp, by simp, by simp, by simp, ?_, fun e he => ?_⟩, ?_⟩
    · intro a f h
      obtain ⟨rfl, rfl⟩ := Error.noCandidates.inj (Except.error.inj h)
      exact ⟨rfl, hfiles, rfl, hnothing hempty⟩
    · exact .inr ⟨_, _, (Except.error.inj he).symm⟩
    · rw [hempty]
      exact iff_of_true (by simp) trivial
  · obtain ⟨ps, hr⟩ := pollRounds_rounds env D candidates s
    rw [hr.inTime_iff]
    refine ⟨ps, ?_⟩
    generalize pollRounds env D candidates s = r at hr ⊢
    obtain ⟨found, s₂⟩ := r
    cases found with
    | true =>
      -- ready: the counts are not reported
      rintro _ rfl
      refine ⟨hr.polls, hr.mem, ?_, iff_of_true (by simp) (.inl rfl)⟩
      exact ⟨iff_of_true rfl (hr.found_iff.mp rfl), hr.init, fun _ => hr.stops rfl, by simp,
        by simp, by simp⟩
    | false =>
      -- the deadline: every poll there was brought nothing
      rintro _ rfl
      have hnone : ¬∃ p ∈ ps, hasItem p.2 = true := fun h => by simpa using hr.found_iff.mpr h
      refine ⟨hr.polls, hr.mem, ⟨iff_of_false (by simp) hnone, hr.init, by simp, ?_, by simp,
        fun e he => ?_⟩, ?_⟩
      · intro t n h
        obtain ⟨-, rfl⟩ := Error.notReady.inj (Except.error.inj h)
        refine ⟨by rw [hc], hbound, fun p hp => ?_⟩
        exact Bool.eq_false_iff.mpr fun hitem => hnone ⟨p, hp, hitem⟩
      · exact .inl ⟨_, _, (Except.error.inj he).symm⟩
      · constructor
        · exact fun h => .inr (h _ _ rfl)
        · exact fun h _ _ _ => h.resolve_left (by simp)

/-- One file that takes two seconds to read, on a server that lists its function at once. -/
def slowlyRead : Environment (Nat × List Entry) := timed 2000 fun _ => (.ok fSymbols, 0)

def Entry.isPoll (e : Entry) : Bool :=
  match e.op with
  | .request method _ _ => method == "textDocument/prepareCallHierarchy"
  | _ => false

end LspGraph
