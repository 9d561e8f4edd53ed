import LspGraph.SessionAnswers

/-! The search box and the list of matches: what the list answers. -/
namespace LspGraph
open Runs

/-- Only an answered search fills the list of matches. -/
theorem EventCase.matchList {a a' : App} {ev : Event} {reqs : List Request}
    (he : EventCase a ev reqs a') :
    (∃ ms, ev = .matched ms ∧ a'.query = a.query ∧ a'.matchList = ms) ∨
      a'.query = a.query ∧ a'.matchList = a.matchList ∧ a'.searched = a.searched := by
  cases he with
  | matched ms => exact .inl ⟨ms, rfl, rfl, rfl⟩
  | _ => exact .inr ⟨rfl, rfl, rfl⟩

/-- A key clears the list, or leaves both the query and the list. -/
theorem KeyCase.matchList {a a' : App} {reqs : List Request} (hk : KeyCase a reqs a') :
    a'.searched = false ∧ a'.matchList = [] ∨
      a'.query = a.query ∧ a'.matchList = a.matchList ∧ a'.searched = a.searched := by
  cases hk with
  | edited query => exact .inl ⟨rfl, rfl⟩
  | searchOpened => exact .inl ⟨rfl, rfl⟩
  | _ => exact .inr ⟨rfl, rfl, rfl⟩

/-- A key seeds nothing but a match that is in the list. -/
theorem KeyCase.mem_matchList {a a' : App} {reqs : List Request} (hk : KeyCase a reqs a')
    {m : SymbolMatch} (hm : .seed m ∈ reqs) : m ∈ a.matchList := by
  cases hk with
  | chosen m' hm' =>
    obtain ⟨rfl⟩ := Request.seed.inj (List.mem_singleton.mp hm)
    exact hm'
  | _ => simp at hm

namespace Session

variable {σ : Type*} {ops : EngineOps σ} {s : Session σ} {engine : σ} {h : History σ}

/-- The search request that the event at the head of the channel answers, if it brings matches,
asked for what is in the box at that moment. -/
def answersTheBox (s : Session σ) : SessionAction → Bool
  | .event =>
    match s.events.queue.head? with
    | some (.matched _) =>
      s.requests.sent[s.events.received - 1]? = some (.search s.app.query)
    | _ => true
  | _ => true

/-- The worker has served a search for the query, and the engine found these matches. -/
def FoundFor (ops : EngineOps σ) (h : History σ) (query : String) (ms : List SymbolMatch) :
    Prop :=
  ∃ s₁, (s₁, .serve) ∈ h ∧ s₁.worker = .serving (.search query) ∧
    (ops.search query s₁.engine).1 = .ok ms

/-- What is in the list was found for what is in the box. -/
def BoxAndListAgree (ops : EngineOps σ) (h : History σ) (s : Session σ) : Prop :=
  s.app.searched = true ∨ s.app.matchList ≠ [] → FoundFor ops h s.app.query s.app.matchList

theorem agree_step {a : SessionAction} {t : Session σ}
    (hr : Run (Steps (step ops)) (start engine) h s)
    (hag : s.BoxAndListAgree ops h) (hg : s.answersTheBox a = true)
    (hst : StepCase ops s a t) : t.BoxAndListAgree ops (h ++ [(s, a)]) := by
  have hmore (query : String) (ms : List SymbolMatch) (hf : FoundFor ops h query ms) :
      FoundFor ops (h ++ [(s, a)]) query ms := by
    obtain ⟨s₁, hm, hf⟩ := hf
    exact ⟨s₁, List.mem_append_left _ hm, hf⟩
  have hsame (hq : t.app.query = s.app.query) (hl : t.app.matchList = s.app.matchList)
      (hse : t.app.searched = s.app.searched) : t.BoxAndListAgree ops (h ++ [(s, a)]) := by
    unfold BoxAndListAgree
    rw [hq, hl, hse]
    exact fun ht => hmore _ _ (hag ht)
  cases hst with
  | event ev c reqs app hl hc he =>
    rcases he.matchList with ⟨ms, rfl, hq, hms⟩ | ⟨hq, hl, hse⟩
    · intro _
      rw [hq, hms]
      obtain ⟨b, hb⟩ | ⟨i, s₁, r, hi, hm, hw, hgr, hev⟩ := received_of_run hr hc
      · cases hb
      -- by the guard the served request is the search for the query in the box
      have hr' : s.requests.sent[i]? = some (.search s.app.query) := by
        unfold answersTheBox at hg
        rw [Channel.queue_receive hc, hi] at hg
        exact of_decide_eq_true hg
      obtain rfl := Option.some.inj (hgr.symm.trans hr')
      refine ⟨s₁, List.mem_append_left _ hm, hw, ?_⟩
      have hev := List.mem_singleton.mp hev
      cases hres : (ops.search s.app.query s₁.engine).1 with
      | ok found =>
        rw [hres] at hev
        rw [Event.matched.inj hev]
      | error e =>
        rw [hres] at hev
        cases hev
    · exact hsame hq hl hse
  | key a reqs app tail loop ha hk =>
    rcases hk.matchList with ⟨hse, hl⟩ | ⟨hq, hl, hse⟩
    · rintro (ht | ht)
      · exact absurd (hse.symm.trans ht) (by simp)
      · exact absurd hl ht
    · exact hsame hq hl hse
  | _ => exact hsame rfl rfl rfl

/-- In a run in which every answer to a search is received while its query is still in the box,
the list is what the engine found for the box, and so is every match that a key seeds. -/
theorem box_and_list_agree (hr : Run (Steps (step ops)) (start engine) h s)
    (hg : ∀ p ∈ h, p.1.answersTheBox p.2 = true) :
    (s.app.searched = true ∨ s.app.matchList ≠ [] →
      FoundFor ops h s.app.query s.app.matchList) ∧
    ∀ k m, .seed m ∈ (handleKey s.app k).1 →
      ∃ ms, m ∈ ms ∧ FoundFor ops h s.app.query ms := by
  have hag : s.BoxAndListAgree ops h := by
    refine hr.guarded (fun h s => s.BoxAndListAgree ops h)
      (fun s a => s.answersTheBox a = true) ?_ ?_ hg
    · rintro (ht | ht)
      · cases ht
      · exact absurd rfl ht
    · exact fun h s a t hr hag hg hst => agree_step hr hag hg (step_case hst)
  refine ⟨hag, fun k m hm => ?_⟩
  have hm := (handleKey_case s.app k).mem_matchList hm
  exact ⟨_, hm, hag (.inr (List.ne_nil_of_mem hm))⟩

theorem not_foundFor {query : String}
    (hn : ∀ p ∈ h, p.1.worker ≠ .serving (.search query)) (ms : List SymbolMatch) :
    ¬FoundFor ops h query ms := by
  rintro ⟨s₁, hm, hw, -⟩
  exact hn _ hm hw

/-- The box is edited between the search and its answer. -/
def editBeforeAnswer : List SessionAction :=
  [.announce, .event, .drained, .key ⟨.char 'a', false⟩, .drained, .key ⟨.enter, false⟩,
    .drained, .key ⟨.char 'b', false⟩, .take, .serve, .event]

/-- The match found for `a` is listed behind `ab`, for which nothing was ever searched, and the
next Enter seeds it. -/
theorem late_answer_fills_the_list :
    ∃ h s, Run (Steps (step (stub [stubMatch]))) (start ()) h s ∧
      h.map Prod.snd = editBeforeAnswer ∧ s.app.query = "ab" ∧ s.app.searched = true ∧
      s.app.matchList = [stubMatch] ∧ .seed stubMatch ∈ (handleKey s.app ⟨.enter, false⟩).1 ∧
      ∀ ms, ¬FoundFor (stub [stubMatch]) h s.app.query ms := by
  have hr := run_of_exec (step (stub [stubMatch])) (start ()) editBeforeAnswer rfl
  exact ⟨_, _, hr, rfl, rfl, rfl, rfl, by decide, not_foundFor (by decide)⟩

/-- The box is edited, searched and answered. -/
def searchAfterEdit : List SessionAction :=
  [.announce, .event, .drained, .key ⟨.char 'a', false⟩, .drained, .key ⟨.char 'b', false⟩,
    .drained, .key ⟨.enter, false⟩, .take, .serve, .event]

theorem box_and_list_agree_after_edit :
    ∃ h s, Run (Steps (step (stub [stubMatch]))) (start ()) h s ∧
      h.map Prod.snd = searchAfterEdit ∧ s.app.matchList = [stubMatch] ∧
      FoundFor (stub [stubMatch]) h "ab" [stubMatch] := by
  have hr := run_of_exec (step (stub [stubMatch])) (start ()) searchAfterEdit rfl
  refine ⟨_, _, hr, rfl, rfl, ?_⟩
  exact (box_and_list_agree hr (by decide)).1 (.inl rfl)

end Session

end LspGraph
