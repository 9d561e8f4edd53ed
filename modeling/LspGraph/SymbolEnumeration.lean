import LspGraph.Forests
import LspGraph.ReadinessVerdict
import LspGraph.SampleHost

/-! The named callables of a file in the order in which `collect_named_callables` meets its
symbols. -/
namespace LspGraph
open Forest

namespace DocumentSymbol

def name : DocumentSymbol → String
  | .mk name _ _ _ => name

def kind : DocumentSymbol → SymbolKind
  | .mk _ kind _ _ => kind

def selectionRange : DocumentSymbol → Range
  | .mk _ _ selectionRange _ => selectionRange

/-- The children, none where the field is missing. -/
def childSymbols : DocumentSymbol → List DocumentSymbol
  | .mk _ _ _ children => children.getD []

end DocumentSymbol

variable (lib : Libraries) (uri : Url)

def NamedCallable.ofSymbol (s : DocumentSymbol) : NamedCallable :=
  ⟨s.name, uri, s.selectionRange.start⟩

/-- The named callables among the symbols. -/
def namedCallables (symbols : List DocumentSymbol) : List NamedCallable :=
  (symbols.filter fun s => isNamedCallable lib s.name s.kind).map (NamedCallable.ofSymbol uri)

theorem namedCallables_append (l l' : List DocumentSymbol) :
    namedCallables lib uri (l ++ l') = namedCallables lib uri l ++ namedCallables lib uri l' := by
  simp only [namedCallables, List.filter_append, List.map_append]

theorem namedCallables_cons (s : DocumentSymbol) (l : List DocumentSymbol) :
    namedCallables lib uri (s :: l) =
      namedCallables lib uri [s] ++ namedCallables lib uri l :=
  namedCallables_append lib uri [s] l

/-- A symbol itself is appended before its children, whether it is kept or not. -/
theorem collectSymbol_eq (s : DocumentSymbol) (out : List NamedCallable) :
    collectSymbol lib uri s out =
      collectNamedCallables lib uri s.childSymbols (out ++ namedCallables lib uri [s]) := by
  obtain ⟨name, kind, selectionRange, children⟩ := s
  have hself : (if isNamedCallable lib name kind then
      out ++ [⟨name, uri, selectionRange.start⟩] else out) =
        out ++ namedCallables lib uri [.mk name kind selectionRange children] := by
    by_cases hkeep : isNamedCallable lib name kind = true
    · simp [namedCallables, NamedCallable.ofSymbol, DocumentSymbol.name, DocumentSymbol.kind,
        DocumentSymbol.selectionRange, hkeep]
    · simp [namedCallables, DocumentSymbol.name, DocumentSymbol.kind, hkeep]
  cases children with
  | none => rw [collectSymbol, hself, DocumentSymbol.childSymbols, Option.getD_none,
      collectNamedCallables]
  | some children => rw [collectSymbol, hself, DocumentSymbol.childSymbols, Option.getD_some]

mutual

/-- The symbols are collected in pre-order, whatever was collected before. -/
theorem collectNamedCallables_eq : ∀ symbols : List DocumentSymbol,
    ∃ l, PreOrder DocumentSymbol.childSymbols symbols l ∧
      ∀ out, collectNamedCallables lib uri symbols out =
        out ++ namedCallables lib uri (l.map Prod.snd)
  | [] => by
    refine ⟨[], PreOrder.nil, ?_⟩
    intro out
    simp [collectNamedCallables, namedCallables]
  | s :: symbols => by
    obtain ⟨l, hl, hs⟩ := collectChildren_eq s
    obtain ⟨l', hl', hrest⟩ := collectNamedCallables_eq symbols
    refine ⟨_, hl.cons hl', ?_⟩
    intro out
    have hsnd (f : List ℕ → List ℕ) (m : List (List ℕ × DocumentSymbol)) :
        (m.map (Prod.map f id)).map Prod.snd = m.map Prod.snd := by
      rw [List.map_map]
      rfl
    -- the symbol, what is below it, and only then the next one
    calc collectNamedCallables lib uri (s :: symbols) out
        = ((out ++ namedCallables lib uri [s]) ++ namedCallables lib uri (l.map Prod.snd)) ++
            namedCallables lib uri (l'.map Prod.snd) := by
          rw [collectNamedCallables, collectSymbol_eq, hs, hrest]
      _ = out ++ namedCallables lib uri (s :: (l.map Prod.snd ++ l'.map Prod.snd)) := by
          rw [namedCallables_cons lib uri s (_ ++ _), namedCallables_append lib uri (l.map _),
            List.append_assoc, List.append_assoc]
      _ = _ := by rw [List.map_cons, List.map_append, hsnd, hsnd]

/-- The same for the children of a symbol. -/
theorem collectChildren_eq : ∀ s : DocumentSymbol,
    ∃ l, PreOrder DocumentSymbol.childSymbols s.childSymbols l ∧
      ∀ out, collectNamedCallables lib uri s.childSymbols out =
        out ++ namedCallables lib uri (l.map Prod.snd)
  | .mk _ _ _ (some children) => collectNamedCallables_eq children
  | .mk _ _ _ none => collectNamedCallables_eq []

end

/-- What is appended are the named callables among all symbols of the forest, each at its place,
in pre-order. -/
theorem collectNamedCallables_in_preorder (symbols : List DocumentSymbol)
    (out : List NamedCallable) :
    ∃ l, PreOrder DocumentSymbol.childSymbols symbols l ∧
      collectNamedCallables lib uri symbols out =
        out ++ namedCallables lib uri (l.map Prod.snd) := by
  obtain ⟨l, hl, happend⟩ := collectNamedCallables_eq lib uri symbols
  exact ⟨l, hl, happend out⟩

/-- Callables below a class, below a callable that is kept, and behind both. -/
example : (collectNamedCallables sampleLibraries ⟨"file:///a.ts"⟩
    [.mk "Outer" ⟨5⟩ ⟨⟨1, 0⟩, ⟨1, 0⟩⟩ (some
      [.mk "method" .METHOD ⟨⟨2, 0⟩, ⟨2, 0⟩⟩
        (some [.mk "inner" .FUNCTION ⟨⟨3, 0⟩, ⟨3, 0⟩⟩ none]),
       .mk "expect() callback" .FUNCTION ⟨⟨4, 0⟩, ⟨4, 0⟩⟩ none]),
     .mk "last" .FUNCTION ⟨⟨5, 0⟩, ⟨5, 0⟩⟩ none] []).map NamedCallable.name =
      ["method", "inner", "last"] := by
  decide

/-- The candidates of a file are the first named callables of its pre-order. -/
theorem contribution_in_preorder {S : Type*} (env : Environment S) (perFile : Nat) (path : Path)
    {symbols : List DocumentSymbol} {l : List (List ℕ × DocumentSymbol)}
    (h : PreOrder DocumentSymbol.childSymbols symbols l) :
    contribution env perFile (path, some symbols) =
      (namedCallables env.toLibraries (pathToUri env.toHost path) (l.map Prod.snd)).take
        perFile := by
  obtain ⟨l', hl', happend⟩ :=
    collectNamedCallables_eq env.toLibraries (pathToUri env.toHost path) symbols
  rw [h.unique hl', contribution, Option.elim_some, happend, List.nil_append]

end LspGraph
