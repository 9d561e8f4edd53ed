import LspGraph.SampleHost

/-! The names of named callables: `is_named_callable` accepts exactly a small grammar. -/
namespace LspGraph

def quotes : List Char := "\"'`".toList

/-- What is taken for granted of the two character classes: an alphabetic character is
alphanumeric, and no alphanumeric one is white space or has a meaning of its own in a name. -/
structure CharacterClasses (lib : Libraries) : Prop where
  alphanumeric : ∀ c, lib.isAlphabetic c = true → lib.isAlphanumeric c = true
  notWhitespace : ∀ c, lib.isAlphanumeric c = true → RustText.isWhitespace c = false
  notMark : ∀ c ∈ quotes ++ ['.', '(', ')', '*', '_', '$'], lib.isAlphanumeric c = false

section Grammar

variable (lib : Libraries)

/-- `(alphabetic | '_' | '$') { alphanumeric | '_' | '$' }`. -/
inductive Ident : List Char → Prop where
  | mk {first : Char} {chars : List Char} :
      (lib.isAlphabetic first = true ∨ first = '_' ∨ first = '$') →
      (∀ c ∈ chars, lib.isAlphanumeric c = true ∨ c = '_' ∨ c = '$') → Ident (first :: chars)

/-- `Ident { '.' Ident }`. -/
inductive DottedPath : List Char → Prop where
  | single {s : List Char} : Ident lib s → DottedPath s
  | dotted {s path : List Char} : Ident lib s → DottedPath path →
      DottedPath (s ++ '.' :: path)

/-- `Path | '(' ['*'] Ident ')' '.' Path`. -/
inductive Name : List Char → Prop where
  | path {s : List Char} : DottedPath lib s → Name s
  | receiver {r path : List Char} : Ident lib r → DottedPath lib path →
      Name ('(' :: (r ++ ')' :: '.' :: path))
  | pointer {r path : List Char} : Ident lib r → DottedPath lib path →
      Name ('(' :: '*' :: (r ++ ')' :: '.' :: path))

end Grammar

/-- No white space, no quote and no parenthesis. -/
def Ordinary (c : Char) : Prop :=
  RustText.isWhitespace c = false ∧ c ∉ quotes ∧ c ≠ '(' ∧ c ≠ ')'

/-- What the names are free of: white space, quotes, empty segments, and parentheses other than
one leading pair. -/
structure CleanName (s : List Char) : Prop where
  noWhitespace : ∀ c ∈ s, RustText.isWhitespace c = false
  noQuote : ∀ c ∈ s, c ∉ quotes
  noEmptySegment : [] ∉ splitDots s
  parentheses : ('(' ∉ s ∧ ')' ∉ s) ∨ ∃ inside rest, s = '(' :: (inside ++ ')' :: rest) ∧
    '(' ∉ inside ++ rest ∧ ')' ∉ inside ++ rest

theorem splitDots_of_notMem {s : List Char} (h : '.' ∉ s) : splitDots s = [s] := by
  induction s with
  | nil => rfl
  | cons c s ih =>
    obtain ⟨hc, hs⟩ := not_or.mp (fun hm => h (List.mem_cons.mpr hm))
    rw [splitDots, if_neg (Ne.symm hc), ih hs]

theorem splitDots_append {s : List Char} (t : List Char) (h : '.' ∉ s) :
    splitDots (s ++ '.' :: t) = s :: splitDots t := by
  induction s with
  | nil => rfl
  | cons c s ih =>
    obtain ⟨hc, hs⟩ := not_or.mp (fun hm => h (List.mem_cons.mpr hm))
    rw [List.cons_append, splitDots, if_neg (Ne.symm hc), ih hs]

variable {lib : Libraries}

theorem isPlainIdentifier_iff (s : List Char) : isPlainIdentifier lib s = true ↔ Ident lib s := by
  cases s with
  | nil => exact iff_of_false (by simp [isPlainIdentifier]) (by rintro ⟨⟩)
  | cons first chars =>
    simp only [isPlainIdentifier, Bool.and_eq_true, Bool.or_eq_true, beq_iff_eq,
      List.all_eq_true, or_assoc]
    exact ⟨fun h => .mk h.1 h.2, fun ⟨h₁, h₂⟩ => ⟨h₁, h₂⟩⟩

namespace CharacterClasses

variable (hc : CharacterClasses lib)
include hc

theorem ident_chars {s : List Char} (h : Ident lib s) :
    ∀ c ∈ s, lib.isAlphanumeric c = true ∨ c = '_' ∨ c = '$' := by
  obtain ⟨hfirst, hchars⟩ := h
  intro c hm
  rcases List.mem_cons.mp hm with rfl | hm
  · exact hfirst.imp_left (hc.alphanumeric _)
  · exact hchars c hm

/-- A character with a meaning of its own, the two apart that begin names, is in no identifier. -/
theorem notMem_ident {s : List Char} (h : Ident lib s) {c : Char}
    (hm : c ∈ quotes ++ ['.', '(', ')', '*']) : c ∉ s := by
  intro hs
  -- only an alphanumeric character could be in both, and no mark is one
  have hmark : c ∈ quotes ++ ['.', '(', ')', '*', '_', '$'] := by
    revert hm
    simp only [List.mem_append, List.mem_cons, List.not_mem_nil, or_false]
    tauto
  rcases hc.ident_chars h c hs with ha | rfl | rfl
  · rw [hc.notMark c hmark] at ha
    cases ha
  · exact absurd hm (by decide)
  · exact absurd hm (by decide)

theorem ordinary_ident {s : List Char} (h : Ident lib s) : ∀ c ∈ s, Ordinary c := by
  intro c hs
  have hno (d : Char) (hd : d ∈ quotes ++ ['.', '(', ')', '*']) : c ≠ d :=
    fun heq => hc.notMem_ident h hd (heq ▸ hs)
  refine ⟨?_, fun hq => hno c (List.mem_append_left _ hq) rfl, hno '(' (by decide),
    hno ')' (by decide)⟩
  rcases hc.ident_chars h c hs with ha | rfl | rfl
  · exact hc.notWhitespace c ha
  · decide
  · decide

omit hc in
theorem dottedPath_ne_nil {s : List Char} (h : DottedPath lib s) : s ≠ [] := by
  cases h with
  | single hs =>
    cases hs
    exact List.cons_ne_nil _ _
  | dotted => simp

/-- The segments between the dots are identifiers exactly where the text is a path. -/
theorem all_splitDots_iff (s : List Char) :
    (splitDots s).all (isPlainIdentifier lib) = true ↔ DottedPath lib s := by
  constructor
  · -- by induction on the length: the text behind the first dot is shorter
    induction hn : s.length using Nat.strongRecOn generalizing s with
    | ind n ih =>
      subst hn
      intro h
      cases hs : RustText.splitOnce '.' s with
      | none =>
        have hdot := (RustText.splitOnce_eq_none_iff '.' s).mp hs
        rw [splitDots_of_notMem hdot] at h
        exact .single ((isPlainIdentifier_iff s).mp (by simpa using h))
      | some p =>
        obtain ⟨rfl, hdot⟩ := (RustText.splitOnce_eq_some_iff '.' s p.1 p.2).mp hs
        rw [splitDots_append p.2 hdot, List.all_cons, Bool.and_eq_true] at h
        refine .dotted ((isPlainIdentifier_iff _).mp h.1) (ih _ ?_ _ rfl h.2)
        rw [List.length_append, List.length_cons]
        omega
  · intro h
    induction h with
    | single hs =>
      rw [splitDots_of_notMem (hc.notMem_ident hs (by decide))]
      simpa using (isPlainIdentifier_iff _).mpr hs
    | dotted hs _ ih =>
      rw [splitDots_append _ (hc.notMem_ident hs (by decide)), List.all_cons, Bool.and_eq_true]
      exact ⟨(isPlainIdentifier_iff _).mpr hs, ih⟩

/-- A path does not begin like a receiver. -/
theorem not_dottedPath_paren (s : List Char) : ¬DottedPath lib ('(' :: s) := by
  have hident (t : List Char) (h : Ident lib t) : '(' ∉ t := hc.notMem_ident h (by decide)
  -- the first segment of a path is never empty, so that the parenthesis would be in it
  intro h
  generalize he : '(' :: s = t at h
  cases h with
  | single ht => exact hident t ht (he ▸ List.mem_cons_self)
  | @dotted u path hu =>
    cases u with
    | nil => cases hu
    | cons c u =>
      obtain ⟨rfl, -⟩ := List.cons.inj he
      exact hident _ hu List.mem_cons_self

theorem stripReceiver_plain {r : List Char} (hr : Ident lib r) (path : List Char) :
    stripReceiver lib ('(' :: (r ++ ')' :: '.' :: path)) = some path := by
  have hplain := (isPlainIdentifier_iff r).mpr hr
  rw [stripReceiver, RustText.splitOnce_append ')' r _ (hc.notMem_ident hr (by decide))]
  dsimp only
  split
  · -- an identifier does not begin with a star
    exact absurd List.mem_cons_self (hc.notMem_ident hr (by decide))
  · rw [if_pos hplain]
    rfl

theorem stripReceiver_star {r : List Char} (hr : Ident lib r) (path : List Char) :
    stripReceiver lib ('(' :: '*' :: (r ++ ')' :: '.' :: path)) = some path := by
  have hplain := (isPlainIdentifier_iff r).mpr hr
  have hstar : ')' ∉ '*' :: r := by
    rw [List.mem_cons, not_or]
    exact ⟨by decide, hc.notMem_ident hr (by decide)⟩
  rw [stripReceiver, ← List.cons_append, RustText.splitOnce_append ')' _ _ hstar]
  exact if_pos hplain

omit hc in
/-- What is stripped is a receiver, if anything is left behind it. -/
theorem receiver_of_stripReceiver {after path : List Char}
    (h : stripReceiver lib ('(' :: after) = some path) (hne : path ≠ []) :
    ∃ r, Ident lib r ∧
      (after = r ++ ')' :: '.' :: path ∨ after = '*' :: (r ++ ')' :: '.' :: path)) := by
  rw [stripReceiver] at h
  cases hs : RustText.splitOnce ')' after with
  | none =>
    rw [hs] at h
    cases h
  | some p =>
    obtain ⟨inside, rest⟩ := p
    obtain ⟨rfl, -⟩ := (RustText.splitOnce_eq_some_iff ')' after inside rest).mp hs
    rw [hs] at h
    dsimp only at h
    split_ifs at h with hplain
    -- behind the parenthesis only a dot continues the name
    have hrest : rest = '.' :: path := by
      revert h
      split
      · exact fun h => by rw [Option.some.inj h]
      · exact fun h => absurd (Option.some.inj h).symm hne
    rw [hrest]
    revert hplain
    split
    · rename_i r
      exact fun hplain => ⟨r, (isPlainIdentifier_iff r).mp hplain, .inr rfl⟩
    · exact fun hplain => ⟨inside, (isPlainIdentifier_iff inside).mp hplain, .inl rfl⟩

theorem stripReceiver_iff (s : List Char) :
    (∃ path, stripReceiver lib s = some path ∧ DottedPath lib path) ↔ Name lib s := by
  constructor
  · rintro ⟨path, hs, hp⟩
    -- a receiver begins with the parenthesis; without one nothing is stripped
    by_cases hparen : ∃ after, s = '(' :: after
    · obtain ⟨after, rfl⟩ := hparen
      obtain ⟨r, hr, rfl | rfl⟩ := receiver_of_stripReceiver hs (dottedPath_ne_nil hp)
      · exact .receiver hr hp
      · exact .pointer hr hp
    · unfold stripReceiver at hs
      split at hs
      · exact absurd ⟨_, rfl⟩ hparen
      · obtain rfl := Option.some.inj hs
        exact .path hp
  · intro h
    cases h with
    | path hp =>
      refine ⟨s, ?_, hp⟩
      unfold stripReceiver
      split
      · exact absurd hp (hc.not_dottedPath_paren _)
      · rfl
    | receiver hr hp => exact ⟨_, hc.stripReceiver_plain hr _, hp⟩
    | pointer hr hp => exact ⟨_, hc.stripReceiver_star hr _, hp⟩

theorem isNamedCallable_eq_true_iff (name : String) (kind : SymbolKind) :
    isNamedCallable lib name kind = true ↔
      (kind = .FUNCTION ∨ kind = .METHOD) ∧ Name lib name.toList := by
  rw [← hc.stripReceiver_iff]
  unfold isNamedCallable
  split_ifs with hk
  · exact iff_of_false (by simp) (by tauto)
  · have hkind : kind = .FUNCTION ∨ kind = .METHOD := by tauto
    rw [and_iff_right hkind]
    split
    · rename_i hs
      rw [hs]
      simp
    · rename_i rest hs
      rw [hs]
      simp only [Bool.and_eq_true, decide_eq_true_eq, hc.all_splitDots_iff, Option.some.injEq,
        exists_eq_left']
      exact and_iff_right_of_imp dottedPath_ne_nil

theorem ordinary_path {s : List Char} (h : DottedPath lib s) : ∀ c ∈ s, Ordinary c := by
  induction h with
  | single hs => exact hc.ordinary_ident hs
  | dotted hs _ ih =>
    intro c hm
    rcases List.mem_append.mp hm with hm | hm
    · exact hc.ordinary_ident hs c hm
    · rcases List.mem_cons.mp hm with rfl | hm
      · exact ⟨by decide, by decide, by decide, by decide⟩
      · exact ih c hm

theorem nil_notMem_splitDots {s : List Char} (h : DottedPath lib s) : [] ∉ splitDots s := by
  intro hm
  have hall := List.all_eq_true.mp ((hc.all_splitDots_iff s).mpr h) _ hm
  simp [isPlainIdentifier] at hall

theorem clean_receiver {inside path : List Char} (hin : ∀ c ∈ inside, Ordinary c)
    (hdot : '.' ∉ inside) (hp : DottedPath lib path) :
    CleanName ('(' :: (inside ++ ')' :: '.' :: path)) := by
  have hpath := hc.ordinary_path hp
  -- a property of the inside, of the path and of the three marks between is one of the name
  have hall (P : Char → Prop) (hmarks : P '(' ∧ P ')' ∧ P '.')
      (hi : ∀ c ∈ inside, P c) (hr : ∀ c ∈ path, P c) :
      ∀ c ∈ '(' :: (inside ++ ')' :: '.' :: path), P c := by
    simp only [List.mem_cons, List.mem_append]
    rintro c (rfl | hm | rfl | rfl | hm)
    · exact hmarks.1
    · exact hi c hm
    · exact hmarks.2.1
    · exact hmarks.2.2
    · exact hr c hm
  refine ⟨?_, ?_, ?_, .inr ⟨inside, '.' :: path, rfl, ?_, ?_⟩⟩
  · exact hall _ (by decide) (fun c hm => (hin c hm).1) fun c hm => (hpath c hm).1
  · exact hall _ (by decide) (fun c hm => (hin c hm).2.1) fun c hm => (hpath c hm).2.1
  · -- the receiver is the first segment, up to the dot behind it
    have hsplit : '(' :: (inside ++ ')' :: '.' :: path) =
        ('(' :: (inside ++ [')'])) ++ '.' :: path := by simp
    rw [hsplit, splitDots_append path (by simp [hdot]), List.mem_cons, not_or]
    exact ⟨(List.cons_ne_nil _ _).symm, hc.nil_notMem_splitDots hp⟩
  · simp only [List.mem_append, List.mem_cons]
    rintro (hm | h | hm)
    · exact (hin _ hm).2.2.1 rfl
    · exact absurd h (by decide)
    · exact (hpath _ hm).2.2.1 rfl
  · simp only [List.mem_append, List.mem_cons]
    rintro (hm | h | hm)
    · exact (hin _ hm).2.2.2 rfl
    · exact absurd h (by decide)
    · exact (hpath _ hm).2.2.2 rfl

theorem clean_name {s : List Char} (h : Name lib s) : CleanName s := by
  cases h with
  | path hp =>
    have hs := hc.ordinary_path hp
    exact ⟨fun c hm => (hs c hm).1, fun c hm => (hs c hm).2.1, hc.nil_notMem_splitDots hp,
      .inl ⟨fun hm => (hs _ hm).2.2.1 rfl, fun hm => (hs _ hm).2.2.2 rfl⟩⟩
  | receiver hr hp =>
    exact hc.clean_receiver (hc.ordinary_ident hr) (hc.notMem_ident hr (by decide)) hp
  | @pointer r path hr hp =>
    have hstar : ∀ c ∈ '*' :: r, Ordinary c :=
      List.forall_mem_cons.mpr ⟨⟨by decide, by decide, by decide, by decide⟩, hc.ordinary_ident hr⟩
    have hdot : '.' ∉ '*' :: r := by
      rw [List.mem_cons, not_or]
      exact ⟨by decide, hc.notMem_ident hr (by decide)⟩
    exact hc.clean_receiver hstar hdot hp

end CharacterClasses

/-- `is_named_callable` accepts exactly its grammar, and nothing that the grammar accepts looks
like a synthesized name. -/
theorem isNamedCallable_iff_name (hc : CharacterClasses lib) (name : String) (kind : SymbolKind) :
    (isNamedCallable lib name kind = true ↔
      (kind = .FUNCTION ∨ kind = .METHOD) ∧ Name lib name.toList) ∧
    (isNamedCallable lib name kind = true → CleanName name.toList) := by
  have hiff := hc.isNamedCallable_eq_true_iff name kind
  exact ⟨hiff, fun h => hc.clean_name (hiff.mp h).2⟩

theorem sampleLibraries_classes : CharacterClasses sampleLibraries := by
  have hbounds (c : Char) (h : c.isAlphanum = true) : (48 ≤ c.toNat ∧ c.toNat ≤ 57) ∨
      (65 ≤ c.toNat ∧ c.toNat ≤ 90) ∨ (97 ≤ c.toNat ∧ c.toNat ≤ 122) := by
    rcases Bool.or_eq_true_iff.mp h with h | hd
    · rcases Bool.or_eq_true_iff.mp h with hu | hl
      · exact .inr (.inl (of_decide_eq_true hu))
      · obtain ⟨hge, hle⟩ := Bool.and_eq_true_iff.mp hl
        exact .inr (.inr ⟨of_decide_eq_true hge, of_decide_eq_true hle⟩)
    · exact .inl (RustText.isDigit_toNat c hd)
  have hmarks : ((quotes ++ ['.', '(', ')', '*', '_', '$']).all fun c => !c.isAlphanum) = true := by
    decide
  refine ⟨?_, ?_, fun c hc => (Bool.not_eq_true' _).mp (List.all_eq_true.mp hmarks c hc)⟩
  · intro c h
    change (c.isAlpha || c.isDigit) = true
    rw [show c.isAlpha = true from h, Bool.true_or]
  · intro c h
    have hb := hbounds c h
    simp only [RustText.isWhitespace, Bool.or_eq_false_iff, Bool.and_eq_false_iff,
      decide_eq_false_iff_not, beq_eq_false_iff_ne]
    omega

/-- A method as `documentSymbol` of gopls names it. -/
theorem isNamedCallable_pointer_receiver :
    isNamedCallable sampleLibraries "(*counter).bump" .METHOD = true ∧
      CleanName "(*counter).bump".toList := by
  have h := isNamedCallable_iff_name sampleLibraries_classes "(*counter).bump" .METHOD
  exact ⟨by decide, h.2 (by decide)⟩

end LspGraph
