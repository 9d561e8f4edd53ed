import LspGraph.ReadinessVerdict
import LspGraph.Recording
import LspGraph.SymbolEnumeration

/-! The documents of `wait_until_ready`: which files are read and opened, and that the server is
asked about nothing else. -/
namespace LspGraph
open Recording Spacing

variable {S : Type*} {env : Environment S} {D : Nat} {s s₁ s₂ : S} {es es' : List Entry}

/-- What `params.textDocument.uri` names. -/
def documentOf (params : Value) : Option String :=
  ((params.get "textDocument").bind (·.get "uri")).bind (·.asStr)

namespace Entry

def reads (e : Entry) : Option Path :=
  match e.op with
  | .readFile path _ => some path
  | _ => none

/-- The document that the server was told to open. -/
def opens (e : Entry) : Option String :=
  match e.op with
  | .notify method params (.ok ()) =>
    if method = "textDocument/didOpen" then documentOf params else none
  | _ => none

/-- The document that a request is about. -/
def asks (e : Entry) : Option String :=
  match e.op with
  | .request _ params _ => documentOf params
  | _ => none

end Entry

/-- The document of a file. -/
def documentUri (env : Environment S) (path : Path) : String :=
  (pathToUri env.toHost path).serialization

/-- A stretch that reads these files and opens these documents, and in which every request is
about a document that was there before or opened earlier in the stretch. -/
structure DocumentUse (there : String → Prop) (es : List Entry) (read : List Path)
    (opened : List String) : Prop where
  provided : Provided Entry.opens Entry.asks there es
  named : ∀ e ∈ es, e.op.isRequest = true → e.asks.isSome = true
  reads : es.filterMap Entry.reads = read
  opens : es.filterMap Entry.opens = opened

namespace DocumentUse

variable {there : String → Prop} {read read' : List Path} {opened opened' : List String}

theorem nil (there : String → Prop) : DocumentUse there [] [] [] := ⟨trivial, by simp, rfl, rfl⟩

theorem append (h : DocumentUse there es read opened)
    (h' : DocumentUse (fun uri => there uri ∨ uri ∈ opened) es' read' opened') :
    DocumentUse there (es ++ es') (read ++ read') (opened ++ opened') := by
  obtain ⟨hprovided, hnamed, rfl, rfl⟩ := h
  obtain ⟨hprovided', hnamed', rfl, rfl⟩ := h'
  exact ⟨hprovided.append hprovided', List.forall_mem_append.mpr ⟨hnamed, hnamed'⟩,
    List.filterMap_append, List.filterMap_append⟩

theorem mono {there' : String → Prop} (h : DocumentUse there es read opened)
    (ht : ∀ uri, there uri → there' uri) : DocumentUse there' es read opened :=
  ⟨h.provided.mono ht, h.named, h.reads, h.opens⟩

/-- A request about a document that is there. -/
theorem request {method : String} {params : Value} {answer : Result Value} {start stop : Nat}
    {uri : String} (hp : documentOf params = some uri) (ht : there uri) :
    DocumentUse there [⟨.request method params answer, start, stop⟩] [] [] := by
  refine ⟨⟨fun b hb => ?_, trivial⟩, ?_, rfl, rfl⟩
  · obtain rfl : uri = b := Option.some.inj (hp.symm.trans hb)
    exact ht
  · simp [Entry.asks, hp]

theorem sleep {d : Duration} {start stop : Nat} :
    DocumentUse there [⟨.sleep d, start, stop⟩] [] [] :=
  ⟨⟨by simp [Entry.asks], trivial⟩, by simp [Operation.isRequest], rfl, rfl⟩

end DocumentUse

/-- The attempts of a request are all about its document. -/
theorem attempts_use {there : String → Prop} {params : Value} {uri : String}
    (hp : documentOf params = some uri) (ht : there uri) (method : String) (left : Nat) (s : S) :
    ∃ es, Performs env s es (requestAttempts env.toHost method params left s).2 ∧
      DocumentUse there es [] [] := by
  induction left generalizing s with
  | zero => exact ⟨_, .request method params requestTimeout s, .request hp ht⟩
  | succ left ih =>
    have hreq : Performs env s _ _ := .request method params requestTimeout s
    unfold requestAttempts
    split
    · rename_i m s₁ heq
      obtain ⟨es, hes, huse⟩ := ih (env.sleep retryDelay s₁)
      rw [heq] at hreq
      refine ⟨_, hreq.trans ((Performs.sleep retryDelay s₁).trans hes), ?_⟩
      exact (DocumentUse.request hp ht).append (DocumentUse.sleep.append (huse.mono fun _ h =>
        .inl (.inl h)))
    · exact ⟨_, hreq, .request hp ht⟩

/-- A poll is about the document of the path it is made with. -/
theorem ask_use {there : String → Prop} (c : NamedCallable) (s : S)
    (ht : there (documentUri env ((env.toFilePath c.uri).getD ⟨""⟩))) :
    ∃ es, Performs env s es (ask env c s).2 ∧ DocumentUse there es [] [] := by
  have hstate (path : Path) : (prepareCallHierarchy env.toHost path c.position s).2 =
      (requestAttempts env.toHost "textDocument/prepareCallHierarchy"
        (.object [("textDocument", .object [("uri", .string (documentUri env path))]),
          ("position", positionToValue c.position)]) (maxAttempts - 1) s).2 := by
    unfold prepareCallHierarchy requestRetryingContentModified documentUri
    split
    · rename_i heq
      rw [heq]
    · rename_i heq
      rw [heq]
      split_ifs
      · rfl
      · split <;> rfl
  unfold ask
  rw [hstate]
  exact attempts_use rfl ht _ _ s

theorem polls_use (there : String → Prop) {ps : List Poll} (h : Polls env D s ps s₁)
    (ht : ∀ p ∈ ps, there (documentUri env ((env.toFilePath p.1.uri).getD ⟨""⟩))) :
    ∃ es, Performs env s es s₁ ∧ DocumentUse there es [] [] := by
  induction h with
  | nil s => exact ⟨[], .refl s, .nil there⟩
  | @poll s s₁ c ps _ _ ih =>
    obtain ⟨es, hes, huse⟩ := ask_use c s (ht _ List.mem_cons_self)
    obtain ⟨es', hes', huse'⟩ := ih fun p hp => ht p (List.mem_cons_of_mem _ hp)
    exact ⟨_, hes.trans hes', huse.append (huse'.mono fun _ => .inl)⟩
  | @pause s s₁ ps _ ih =>
    obtain ⟨es, hes, huse⟩ := ih ht
    refine ⟨_, (Performs.sleep pollDelay s).trans hes, ?_⟩
    exact DocumentUse.sleep.append (huse.mono fun _ => .inl)

/-- Opening a file reads it, and opens its document where that succeeds. -/
theorem open_use (there : String → Prop) (path : Path) (languageId : String) (s : S) :
    ∃ es, Performs env s es (openFile env path languageId s).2 ∧
      DocumentUse there es [path]
        (if (openFile env path languageId s).1 = .ok () then [documentUri env path] else []) := by
  have hread : Performs env s _ _ := .single (env.readFile_log path s) (env.readFile_now path s)
  have huse (answer : Result String) (start stop : Nat) :
      DocumentUse there [⟨.readFile path answer, start, stop⟩] [path] [] :=
    ⟨⟨by simp [Entry.asks], trivial⟩, by simp [Operation.isRequest], rfl, rfl⟩
  unfold openFile
  split
  · rename_i e s₁ heq
    rw [heq] at hread
    exact ⟨_, hread, huse _ _ _⟩
  · rename_i text s₁ heq
    rw [heq] at hread
    let params : Value := .object [("textDocument", .object
      [("uri", .string (documentUri env path)), ("languageId", .string languageId),
        ("version", .ofI64 1), ("text", .string text)])]
    have hnotify : Performs env s₁ _ _ :=
      .single (env.notify_log "textDocument/didOpen" params s₁)
        (env.notify_now "textDocument/didOpen" params s₁)
    refine ⟨_, hread.trans hnotify, ?_⟩
    change DocumentUse there _ _ (if (env.notify "textDocument/didOpen" params s₁).1 = .ok () then
      [documentUri env path] else [])
    generalize env.notify "textDocument/didOpen" params s₁ = told
    obtain ⟨_ | ⟨⟩, s₂⟩ := told
    · exact (huse _ _ _).append
        ⟨⟨by simp [Entry.asks], trivial⟩, by simp [Operation.isRequest], rfl, rfl⟩
    · exact (huse _ _ _).append
        ⟨⟨by simp [Entry.asks], trivial⟩, by simp [Operation.isRequest], rfl, rfl⟩

/-- The symbols are asked for about the document of the file. -/
theorem documentSymbols_use (there : String → Prop) (path : Path) (s : S)
    (ht : there (documentUri env path)) :
    ∃ es, Performs env s es (documentSymbols env path s).2 ∧ DocumentUse there es [] [] := by
  let params : Value :=
    .object [("textDocument", .object [("uri", .string (documentUri env path))])]
  have hstate : (documentSymbols env path s).2 =
      (env.request "textDocument/documentSymbol" params requestTimeout s).2 := by
    change (documentSymbols env path s).2 = (env.request "textDocument/documentSymbol"
      (.object [("textDocument",
        .object [("uri", .string (pathToUri env.toHost path).serialization)])])
      requestTimeout s).2
    unfold documentSymbols
    split
    · rename_i heq
      rw [heq]
    · rename_i heq
      rw [heq]
      split_ifs <;> rfl
  rw [hstate]
  have hp : documentOf params = some (documentUri env path) := rfl
  exact ⟨_, .request "textDocument/documentSymbol" params requestTimeout s, .request hp ht⟩

theorem attempted_use (there : String → Prop) {languageId : String} {a : Attempt}
    (h : Attempted env languageId s a s₁) :
    ∃ es opened, Performs env s es s₁ ∧ DocumentUse there es [a.1] opened ∧
      opened.Sublist [documentUri env a.1] ∧
      (a.2.isSome = true → documentUri env a.1 ∈ opened) := by
  -- a file that was opened is asked about
  have hfile {path : Path} {s s₁ : S} (ho : openFile env path languageId s = (.ok (), s₁)) :
      ∃ es, Performs env s es (documentSymbols env path s₁).2 ∧
        DocumentUse there es [path] [documentUri env path] := by
    obtain ⟨es, hes, huse⟩ := open_use there path languageId s
    rw [ho, if_pos rfl] at huse
    rw [ho] at hes
    have hopened : there (documentUri env path) ∨ documentUri env path ∈ [documentUri env path] :=
      .inr List.mem_cons_self
    obtain ⟨es', hes', huse'⟩ := documentSymbols_use
      (fun uri => there uri ∨ uri ∈ [documentUri env path]) path s₁ hopened
    exact ⟨_, hes.trans hes', huse.append huse'⟩
  cases h with
  | @notOpened path s s₁ e ho =>
    obtain ⟨es, hes, huse⟩ := open_use there path languageId s
    rw [ho, if_neg (by simp)] at huse
    rw [ho] at hes
    exact ⟨es, [], hes, huse, List.nil_sublist _, by simp⟩
  | @notListed path s s₁ s₂ e ho hl =>
    obtain ⟨es, hes, huse⟩ := hfile ho
    rw [hl] at hes
    exact ⟨es, _, hes, huse, List.Sublist.refl _, by simp⟩
  | @listed path s s₁ s₂ syms ho hl =>
    obtain ⟨es, hes, huse⟩ := hfile ho
    rw [hl] at hes
    exact ⟨es, _, hes, huse, List.Sublist.refl _, by simp⟩

theorem attempts_of_files_use (there : String → Prop) {languageId : String} {as : List Attempt}
    (h : Attempts env D languageId s as s₁) :
    ∃ es opened, Performs env s es s₁ ∧ DocumentUse there es (as.map Prod.fst) opened ∧
      opened.Sublist (as.map fun a => documentUri env a.1) ∧
      ∀ a ∈ as, a.2.isSome = true → documentUri env a.1 ∈ opened := by
  induction h generalizing there with
  | nil s => exact ⟨[], [], .refl s, .nil there, List.nil_sublist _, by simp⟩
  | @cons s s₁ s₂ a as _ ha _ ih =>
    obtain ⟨es, opened, hes, huse, hsub, hopen⟩ := attempted_use there ha
    obtain ⟨es', opened', hes', huse', hsub', hopen'⟩ :=
      ih fun uri => there uri ∨ uri ∈ opened
    refine ⟨_, _, hes.trans hes', huse.append huse', hsub.append hsub', ?_⟩
    intro b hb hsome
    rcases List.mem_cons.mp hb with rfl | hb
    · exact List.mem_append_left _ (hopen hsome)
    · exact List.mem_append_right _ (hopen' b hb hsome)

/-- A candidate comes from a file whose symbols were listed. -/
theorem uri_of_mem_contribution {perFile : Nat} {a : Attempt} {c : NamedCallable}
    (hc : c ∈ contribution env perFile a) :
    a.2.isSome = true ∧ c.uri = pathToUri env.toHost a.1 := by
  obtain ⟨path, _ | syms⟩ := a
  · simp [contribution] at hc
  · obtain ⟨l, -, happend⟩ :=
      collectNamedCallables_eq env.toLibraries (pathToUri env.toHost path) syms
    have hmem := List.mem_of_mem_take hc
    rw [Option.elim_some, happend, List.nil_append] at hmem
    obtain ⟨sym, -, rfl⟩ := List.mem_map.mp hmem
    exact ⟨rfl, rfl⟩

/-- The sample keeps the order of the list, and takes nothing twice. -/
theorem evenStride_sublist {α : Type*} (items : List α) (max : Nat) :
    (evenStride items max).Sublist items := by
  let indices : List (Fin items.length) :=
    (picks items.length max).pmap Fin.mk fun _ => lt_of_mem_picks
  have hincreasing : indices.Pairwise (· < ·) :=
    (picks_pairwise items.length max).pmap _ fun _ _ _ _ hij => hij
  have htaken : (evenStride items max).map some = (indices.map (items[·])).map some := by
    rw [evenStride_eq_picks]
    apply List.ext_getElem
    · simp [indices]
    · intro i hi hi'
      simp [indices]
  rw [List.map_injective_iff.mpr (Option.some_injective α) htaken]
  exact List.map_getElem_sublist hincreasing

end LspGraph
