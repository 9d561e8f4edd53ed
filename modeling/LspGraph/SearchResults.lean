import LspGraph.CallableNames

/-! The format of a search result: what `parse_workspace_symbols` lets through, and that it is
read back from what a server may write. -/
namespace LspGraph

/-- What every match that is read can rely on. -/
structure SymbolMatch.Valid (lib : Libraries) (m : SymbolMatch) : Prop where
  name : isNamedCallable lib m.name m.kind = true
  container : m.container ≠ some ""
  uri : lib.parseUrl m.uri.serialization = some m.uri

/-- A `SymbolInformation` about a match, whose name may be decorated. -/
def SymbolMatch.toValue (m : SymbolMatch) (decorated : Bool) : Value :=
  .object [("name", .string (if decorated then m.name ++ "()" else m.name)),
    ("kind", .number (.posInt (if m.kind = .METHOD then 6 else 12))),
    ("containerName", m.container.elim .null .string),
    ("location", .object [("uri", .string m.uri.serialization),
      ("range", encodeRange ⟨m.position, m.position⟩)])]

variable {lib : Libraries}

/-- A name ends like the path it ends with. -/
theorem getLast_name {s : List Char} (h : Name lib s) :
    ∃ path, DottedPath lib path ∧ s.getLast? = path.getLast? := by
  have happend (l : List Char) {path : List Char} (hp : DottedPath lib path) :
      (l ++ path).getLast? = path.getLast? := by
    rw [List.getLast?_append_of_ne_nil l (CharacterClasses.dottedPath_ne_nil hp)]
  cases h with
  | path hp => exact ⟨s, hp, rfl⟩
  | @receiver r path hr hp =>
    refine ⟨path, hp, ?_⟩
    have hsplit : '(' :: (r ++ ')' :: '.' :: path) = ('(' :: (r ++ [')', '.'])) ++ path := by simp
    rw [hsplit, happend _ hp]
  | @pointer r path hr hp =>
    refine ⟨path, hp, ?_⟩
    have hsplit : '(' :: '*' :: (r ++ ')' :: '.' :: path) =
        ('(' :: '*' :: (r ++ [')', '.'])) ++ path := by simp
    rw [hsplit, happend _ hp]

/-- No accepted name ends in a parenthesis, so that none looks decorated. -/
theorem undecorate_name (hc : CharacterClasses lib) {name : String} (h : Name lib name.toList) :
    undecorate name = name := by
  have hlast : name.toList.getLast? ≠ some ')' := by
    obtain ⟨path, hp, hlast⟩ := getLast_name h
    rw [hlast]
    intro hparen
    exact (hc.ordinary_path hp _ (List.mem_of_getLast? hparen)).2.2.2 rfl
  unfold undecorate
  refine if_neg fun hpre => hlast ?_
  rw [List.getLast?_eq_head?_reverse]
  cases hrev : name.toList.reverse with
  | nil =>
    rw [hrev] at hpre
    cases hpre
  | cons c l =>
    rw [hrev, List.isPrefixOf, Bool.and_eq_true, beq_iff_eq] at hpre
    rw [List.head?_cons, hpre.1]

theorem undecorate_decorated (name : String) : undecorate (name ++ "()") = name := by
  have hlist : (name ++ "()").toList = name.toList ++ ['(', ')'] := String.toList_append
  have htake : (name.toList ++ ['(', ')']).take ((name.toList ++ ['(', ')']).length - 2) =
      name.toList := by
    rw [List.length_append]
    exact List.take_left' (by simp)
  unfold undecorate
  rw [hlist, List.reverse_append, if_pos (by simp), htake, String.ofList_toList]

theorem valid_of_parseEntry (hu : ∀ text url, lib.parseUrl text = some url →
      lib.parseUrl url.serialization = some url) {e : Value} {m : SymbolMatch}
    (h : parseEntry lib e = some m) : m.Valid lib := by
  unfold parseEntry at h
  simp only [Option.bind_eq_bind, Option.bind_eq_some_iff] at h
  obtain ⟨_, -, rawName, -, _, -, kindN, -, h⟩ := h
  -- the two kinds of callables are read alike
  split_ifs at h with h₆ h₁₂
  all_goals
    simp only [Option.bind_some, Option.bind_none, reduceCtorEq] at h
  all_goals
    obtain ⟨hname, h⟩ := Option.ite_none_right_eq_some.mp h
    obtain ⟨loc, -, h⟩ := Option.bind_eq_some_iff.mp h
    obtain ⟨v, -, h⟩ := Option.bind_eq_some_iff.mp h
    obtain ⟨text, -, h⟩ := Option.bind_eq_some_iff.mp h
    obtain ⟨uri, hparse, h⟩ := Option.bind_eq_some_iff.mp h
    obtain rfl := Option.some.inj h
    refine ⟨hname, fun hcontainer => ?_, hu text uri hparse⟩
    have hempty := (Option.filter_eq_some_iff.mp hcontainer).2
    cases hempty

theorem startPosition_encodeRange (pos : Position) :
    startPosition ((encodeRange ⟨pos, pos⟩).get "start") = pos := by
  have hcoordinate (n : UInt32) : n.toUInt64.toUInt32 = n := UInt32.toUInt32_toUInt64 n
  change Position.mk pos.line.toUInt64.toUInt32 pos.character.toUInt64.toUInt32 = pos
  rw [hcoordinate, hcoordinate]

theorem container_toValue {container : Option String} (h : container ≠ some "") :
    ((container.elim Value.null .string).asStr.filter fun s => !s.isEmpty) = container := by
  cases container with
  | none => rfl
  | some text =>
    have hne : text ≠ "" := fun he => h (congrArg some he)
    exact if_pos (by simp [hne])

theorem parseEntry_toValue (hc : CharacterClasses lib) {m : SymbolMatch} (hm : m.Valid lib)
    (decorated : Bool) : parseEntry lib (m.toValue decorated) = some m := by
  obtain ⟨hkind, hname⟩ := (hc.isNamedCallable_eq_true_iff m.name m.kind).mp hm.name
  have hundecorate : undecorate (if decorated then m.name ++ "()" else m.name) = m.name := by
    cases decorated with
    | true => exact undecorate_decorated m.name
    | false => exact undecorate_name hc hname
  let loc : Value := .object [("uri", .string m.uri.serialization),
    ("range", encodeRange ⟨m.position, m.position⟩)]
  have hgetName : (m.toValue decorated).get "name" =
      some (.string (if decorated then m.name ++ "()" else m.name)) := rfl
  have hgetKind : (m.toValue decorated).get "kind" =
      some (.number (.posInt (if m.kind = .METHOD then 6 else 12))) := rfl
  have hgetContainer : (m.toValue decorated).get "containerName" =
      some (m.container.elim .null .string) := rfl
  have hgetLocation : (m.toValue decorated).get "location" = some loc := rfl
  have hgetUri : loc.get "uri" = some (.string m.uri.serialization) := rfl
  have hgetRange : loc.get "range" = some (encodeRange ⟨m.position, m.position⟩) := rfl
  have hstring (text : String) : (Value.string text).asStr = some text := rfl
  have hnumber (n : UInt64) : (Value.number (.posInt n)).asU64 = some n := rfl
  unfold parseEntry
  rw [hgetName, hgetKind, hgetLocation, hgetContainer]
  simp only [Option.bind_eq_bind, Option.bind_some, hstring, hnumber, hundecorate, hgetUri,
    hgetRange, hm.uri, container_toValue hm.container, startPosition_encodeRange]
  have hcall := hm.name
  rcases hkind with hk | hk
  · have hcode : (if m.kind = .METHOD then 6 else 12 : UInt64) = 12 := by
      rw [hk]
      rfl
    rw [hcode, if_neg (by decide), if_pos rfl, ← hk, if_pos hcall]
  · have hcode : (if m.kind = .METHOD then 6 else 12 : UInt64) = 6 := by
      rw [hk]
      rfl
    rw [hcode, if_pos rfl, ← hk, if_pos hcall]

/-- The matches that come out of a search are the well-formed ones: every match that is read from
a server's answer is well formed, whatever the answer, and every list of well-formed matches is
read back from the answer that lists them, with any of their names decorated. -/
theorem search_results_are_valid_matches (hc : CharacterClasses lib)
    (hu : ∀ text url, lib.parseUrl text = some url →
      lib.parseUrl url.serialization = some url) :
    (∀ v, ∀ m ∈ parseWorkspaceSymbols lib v, m.Valid lib) ∧
      ∀ entries : List (SymbolMatch × Bool), (∀ p ∈ entries, p.1.Valid lib) →
        parseWorkspaceSymbols lib (.array (entries.map fun p => p.1.toValue p.2)) =
          entries.map Prod.fst := by
  constructor
  · intro v m hm
    unfold parseWorkspaceSymbols at hm
    split at hm
    · cases hm
    · obtain ⟨e, -, he⟩ := List.mem_filterMap.mp hm
      exact valid_of_parseEntry hu he
  · intro entries hvalid
    change (entries.map fun p => p.1.toValue p.2).filterMap (parseEntry lib) = _
    rw [List.filterMap_map, ← List.filterMap_eq_map]
    apply List.filterMap_congr
    intro p hp
    exact parseEntry_toValue hc (hvalid p hp) p.2

/-- A method with a receiver, in a container. -/
def bumpMatch : SymbolMatch :=
  ⟨"(*counter).bump", some "counter", ⟨"file:///a.go"⟩, ⟨4, 2⟩, .METHOD⟩

theorem search_results_are_valid_matches_decorated :
    parseWorkspaceSymbols sampleLibraries (.array [bumpMatch.toValue true,
      bumpMatch.toValue false]) = [bumpMatch, bumpMatch] := by
  have hvalid : bumpMatch.Valid sampleLibraries := ⟨by decide, by decide, rfl⟩
  have hu (text : String) (url : Url) (h : sampleLibraries.parseUrl text = some url) :
      sampleLibraries.parseUrl url.serialization = some url := by
    rw [← Option.some.inj h]
    rfl
  exact (search_results_are_valid_matches sampleLibraries_classes hu).2
    [(bumpMatch, true), (bumpMatch, false)] (by simp [hvalid])

end LspGraph
