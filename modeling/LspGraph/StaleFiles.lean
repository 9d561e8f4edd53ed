import Mathlib.Data.Finset.Sort
import Mathlib.Data.String.Basic
import LspGraph.Cache
import LspGraph.SampleHost

/-! The files of a cache that have changed since (`stale_files` in `cache.rs`), and what is left of
a cached graph once they are removed from it. -/
namespace LspGraph
open FiniteMaps Runs

/-- The keys of a `BTreeMap`, in the order of an iteration. -/
def sortedKeys {κ β : Type*} [LinearOrder κ] (m : FMap κ β) : List κ := m.keys.sort (· ≤ ·)

theorem mem_sortedKeys {κ β : Type*} [LinearOrder κ] (m : FMap κ β) (k : κ) :
    k ∈ sortedKeys m ↔ k ∈ m := by
  rw [sortedKeys, Finset.mem_sort, Finmap.mem_keys]

section Staleness

variable {D S : Type*} (host : CacheHost D)
  -- SHA-256 of the bytes of a file, formatted in hexadecimal
  (digest : Bytes → String)

def hashFile (path : Path) (d : D) : Result String :=
  match host.read path d with
  | .error e => .error e
  | .ok bytes => .ok (digest bytes)

/-- Whether a cached hash is not what the file hashes to; unreadable or deleted counts as stale. -/
def isStale (d : D) (path cached : String) : Bool :=
  match hashFile host digest ⟨path⟩ d with
  | .ok current => current ≠ cached
  | .error _ => true

/-- `stale_files`: the uris of the cached files that are stale, in the order of their paths. -/
def staleFiles (server : Host S) (cache : CacheFile) (_repo : Path) (d : D) : List String :=
  let stale := (sortedKeys cache.fileHashes).filter fun path =>
    (cache.fileHashes.lookup path).any (isStale host digest d path)
  stale.map fun path => (pathToUri server ⟨path⟩).serialization

end Staleness

namespace CallGraph

/-- The part of a graph about some files: their nodes, with the ids of these files only. -/
def restrict (p : String → Bool) (g : CallGraph) : CallGraph where
  nodes := retain (fun k _ => p k.uri) g.nodes
  callers := mapValues (fun _ l => l.filter fun n => p n.uri)
    (retain (fun k _ => p k.uri) g.callers)
  callees := mapValues (fun _ l => l.filter fun n => p n.uri)
    (retain (fun k _ => p k.uri) g.callees)

variable {g : CallGraph}

theorem get_restrict (p : String → Bool) (g : CallGraph) (k : NodeId) :
    (g.restrict p).get k = if p k.uri = true then g.get k else none :=
  lookup_retain_key (fun k : NodeId => p k.uri) k g.nodes

theorem lookup_restricted (p : String → Bool) (m : FMap NodeId (List NodeId)) (k : NodeId) :
    (mapValues (fun _ l => l.filter fun n => p n.uri) (retain (fun k _ => p k.uri) m)).lookup k =
      if p k.uri = true then (m.lookup k).map fun l => l.filter fun n => p n.uri else none := by
  rw [lookup_mapValues, lookup_retain_key (fun k : NodeId => p k.uri)]
  split_ifs <;> rfl

theorem callersOf_restrict (p : String → Bool) (g : CallGraph) (k : NodeId) :
    (g.restrict p).callersOf k = if p k.uri = true then
      (g.callersOf k).map fun l => l.filter fun n => p n.uri else none :=
  lookup_restricted p g.callers k

theorem calleesOf_restrict (p : String → Bool) (g : CallGraph) (k : NodeId) :
    (g.restrict p).calleesOf k = if p k.uri = true then
      (g.calleesOf k).map fun l => l.filter fun n => p n.uri else none :=
  lookup_restricted p g.callees k

theorem restrict_all (g : CallGraph) : g.restrict (fun _ => true) = g := by
  have hlist (o : Option (List NodeId)) : (o.map fun l => l.filter fun _ => true) = o := by
    simp
  apply ext_of_lookups
  · intro k
    rw [get_restrict, if_pos rfl]
  · intro k
    rw [callersOf_restrict, if_pos rfl, hlist]
  · intro k
    rw [calleesOf_restrict, if_pos rfl, hlist]

theorem restrict_restrict (p q : String → Bool) (g : CallGraph) :
    (g.restrict p).restrict q = g.restrict fun uri => p uri && q uri := by
  have hlist (k : NodeId) (o : Option (List NodeId)) :
      (if q k.uri = true then
        (if p k.uri = true then o.map fun l => l.filter fun n => p n.uri else none).map
          fun l => l.filter fun n => q n.uri
        else none) =
      if (p k.uri && q k.uri) = true then o.map fun l => l.filter fun n => p n.uri && q n.uri
        else none := by
    cases hp : p k.uri <;> cases hq : q k.uri <;> simp [Function.comp_def, Bool.and_comm]
  apply ext_of_lookups
  · intro k
    simp only [get_restrict]
    cases p k.uri <;> cases q k.uri <;> rfl
  · intro k
    simp only [callersOf_restrict]
    exact hlist k _
  · intro k
    simp only [calleesOf_restrict]
    exact hlist k _

/-- Where the keys are nodes, the removal of a file leaves the part about the others. -/
theorem Grounded.removeFile_eq (h : g.Grounded) (uri : String) :
    g.removeFile uri = g.restrict fun u => u ≠ uri := by
  -- a key that is not looked for has no list either
  have hlist (m : FMap NodeId (List NodeId)) (hm : ∀ k, k ∈ m → k ∈ g.nodes) (k : NodeId) :
      (if k ∈ g.nodes ∧ k.uri = uri then none
        else (m.lookup k).map fun l => l.filter fun n => n.uri ≠ uri) =
      if decide (k.uri ≠ uri) = true then
        (m.lookup k).map fun l => l.filter fun n => n.uri ≠ uri else none := by
    by_cases hu : k.uri = uri
    · by_cases hk : k ∈ g.nodes
      · simp [hu, hk]
      · simp [hu, hk, Finmap.lookup_eq_none.mpr fun hmem => hk (hm k hmem)]
    · simp [hu]
  apply ext_of_lookups
  · intro k
    rw [get_removeFile, get_restrict]
    by_cases hu : k.uri = uri <;> simp [hu]
  · intro k
    rw [callersOf_removeFile_ite, callersOf_restrict]
    exact hlist g.callers (fun k hk => h k (.inl hk)) k
  · intro k
    rw [calleesOf_removeFile_ite, calleesOf_restrict]
    exact hlist g.callees (fun k hk => h k (.inr hk)) k

theorem grounded_removeFile (h : g.Grounded) (uri : String) : (g.removeFile uri).Grounded :=
  (grounded_apply_iff h (.removeFile uri)).mpr trivial

theorem Grounded.foldl_removeFile (h : g.Grounded) (uris : List String) :
    uris.foldl removeFile g = g.restrict fun u => u ∉ uris := by
  induction uris generalizing g with
  | nil => exact (restrict_all g).symm
  | cons uri uris ih =>
    rw [List.foldl_cons, ih (grounded_removeFile h uri), h.removeFile_eq uri, restrict_restrict]
    congr 1
    funext u
    simp [not_or]

theorem grounded_of_run {h : List (CallGraph × GraphOp)} (hr : Run Step new h g)
    (hg : ∀ p ∈ h, p.1.Grounds p.2) : g.Grounded := by
  refine hr.guarded (fun _ g => g.Grounded) Grounds ?_ ?_ hg
  · exact fun k hk => absurd (hk.elim (fun h => h) fun h => h) Finmap.notMem_empty
  · rintro h g op g' - hp hgr rfl
    exact (grounded_apply_iff hp op).mpr hgr

end CallGraph

section Warm

variable {D S : Type*} (host : CacheHost D) (digest : Bytes → String) (server : Host S)

/-- The uri of a cached path, as the ids of the file have it. -/
def cachedUri (path : String) : String := (pathToUri server ⟨path⟩).serialization

/-- The file can be read both times, and its contents have one digest. -/
def Unchanged (d₀ d : D) (path : String) : Prop :=
  ∃ hash, hashFile host digest ⟨path⟩ d₀ = .ok hash ∧ hashFile host digest ⟨path⟩ d = .ok hash

/-- The hashes are those of the files, of which there is one for each node. -/
structure Hashed (hashes : FMap String String) (g : CallGraph) (d : D) : Prop where
  hash : ∀ path cached, hashes.lookup path = some cached →
    hashFile host digest ⟨path⟩ d = .ok cached
  complete : ∀ k ∈ g.nodes, ∃ path ∈ hashes, cachedUri server path = k.uri

theorem isStale_iff (d : D) (path cached : String) :
    isStale host digest d path cached = true ↔ hashFile host digest ⟨path⟩ d ≠ .ok cached := by
  unfold isStale
  cases hashFile host digest ⟨path⟩ d with
  | ok current => simp
  | error e => simp

theorem mem_staleFiles (cache : CacheFile) (repo : Path) (d : D) (uri : String) :
    uri ∈ staleFiles host digest server cache repo d ↔
      ∃ path cached, cache.fileHashes.lookup path = some cached ∧
        hashFile host digest ⟨path⟩ d ≠ .ok cached ∧ cachedUri server path = uri := by
  have hany (path : String) :
      (cache.fileHashes.lookup path).any (isStale host digest d path) = true ↔
        ∃ cached, cache.fileHashes.lookup path = some cached ∧
          hashFile host digest ⟨path⟩ d ≠ .ok cached := by
    simp [Option.any_eq_true, isStale_iff]
  constructor
  · intro hm
    obtain ⟨path, hp, huri⟩ := List.mem_map.mp hm
    obtain ⟨cached, hl, hstale⟩ := (hany path).mp (List.mem_filter.mp hp).2
    exact ⟨path, cached, hl, hstale, huri⟩
  · rintro ⟨path, cached, hl, hstale, huri⟩
    refine List.mem_map.mpr ⟨path, List.mem_filter.mpr ⟨?_, (hany path).mpr ⟨cached, hl, hstale⟩⟩,
      huri⟩
    rw [mem_sortedKeys]
    exact Finmap.mem_of_lookup_eq_some hl

/-- A file is not stale exactly where every path it is cached under is unchanged. -/
theorem Hashed.notMem_staleFiles_iff {hashes : FMap String String} {g : CallGraph} {d₀ : D}
    (hh : Hashed host digest server hashes g d₀) (schema : UInt32) (repo : Path) (d : D)
    (uri : String) :
    uri ∉ staleFiles host digest server ⟨schema, hashes, g⟩ repo d ↔
      ∀ path ∈ hashes, cachedUri server path = uri → Unchanged host digest d₀ d path := by
  rw [mem_staleFiles]
  constructor
  · intro hn path hp huri
    obtain ⟨cached, hl⟩ := Finmap.mem_iff.mp hp
    refine ⟨cached, hh.hash path cached hl, ?_⟩
    by_contra hstale
    exact hn ⟨path, cached, hl, hstale, huri⟩
  · rintro hall ⟨path, cached, hl, hstale, huri⟩
    obtain ⟨hash, h₀, h₁⟩ := hall path (Finmap.mem_of_lookup_eq_some hl) huri
    rw [hh.hash path cached hl] at h₀
    exact hstale (h₁.trans h₀.symm)

end Warm

namespace CallGraph

variable {D S : Type*} {host : CacheHost D} {digest : Bytes → String} {server : Host S}

/-- What is loaded as long as the file that a save has written stays as it is. -/
theorem load_kept {g : CallGraph} (hk : g.Keyed)
    (hserde : ∀ repr bytes, host.toVec repr = .ok bytes → host.fromSlice bytes = .ok repr)
    {repo : Path} {hashes : FMap String String} {order : g.Order} {d₀ d : D}
    (hs : (host.save repo ⟨schemaVersion, hashes, g⟩ order d₀).1 = .ok ())
    (hkept : host.read ((host.cacheDirFor repo).join "graph.json") d =
      host.read ((host.cacheDirFor repo).join "graph.json")
        (host.save repo ⟨schemaVersion, hashes, g⟩ order d₀).2) :
    host.load repo d = some ⟨schemaVersion, hashes, g⟩ := by
  obtain ⟨json, hv, hread⟩ := host.read_save hs
  rw [hread] at hkept
  have hschema : (CacheFile.toRepr ⟨schemaVersion, hashes, g⟩ order).schema = schemaVersion := rfl
  have hrepr : CacheFile.ofRepr (CacheFile.toRepr ⟨schemaVersion, hashes, g⟩ order) =
      ⟨schemaVersion, hashes, g⟩ :=
    congrArg (CacheFile.mk schemaVersion hashes) (ofRepr_toRepr hk order)
  unfold CacheHost.load
  rw [hkept]
  dsimp only
  rw [hserde _ _ hv]
  dsimp only
  rw [if_neg (not_not.mpr hschema), hrepr]

/-- A function and its callee in another file. -/
def warmOps : List GraphOp :=
  [.upsert ⟨keptId, "Function", none, .unexpanded⟩,
    .upsert ⟨removedId, "Function", none, .unexpanded⟩, .recordExpansion keptId ⟨[], [removedId]⟩]

def warmGraph : CallGraph := warmOps.foldl apply new

def warmOrder : warmGraph.Order where
  nodes := .ofEntries [(keptId, ⟨keptId, "Function", none, .expanded⟩),
    (removedId, ⟨removedId, "Function", none, .unexpanded⟩)] (by decide) (by decide)
  callers := .ofEntries [(keptId, [])] (by decide) (by decide)
  callees := .ofEntries [(keptId, [removedId])] (by decide) (by decide)

def digestOne : String := "7692c3ad3540bb803c020b3aee66cd8887123234ea0c6e7143c0add73ff431ed"

def digestTwo : String := "3fc4ccfe745870e2c0d99f71f30ff0656c8dedd41cc1d7d3d376b0dbe685e2f3"

def digestThree : String := "8b5b9db0c13db24256c829aa364aa90c6d2eba318b9232a4ab9313b954d3555f"

def warmHashes : FMap String String := collect [("/a.rs", digestOne), ("/b.rs", digestThree)]

/-- The text that the cache is stored as. -/
def warmJson : Bytes := strBytes
  ("\x7b\"schema\":1,\"file_hashes\":\x7b\"/a.rs\":\"" ++ digestOne ++ "\",\"/b.rs\":\"" ++
    digestThree ++ "\"\x7d,\"graph\":\x7b\"nodes\":[\x7b\"id\":" ++ keptJson ++
    ",\"kind_name\":\"Function\",\"detail\":null,\"state\":\"Expanded\"\x7d,\x7b\"id\":" ++
    removedJson ++ ",\"kind_name\":\"Function\",\"detail\":null,\"state\":\"Unexpanded\"\x7d]," ++
    "\"callers\":[[" ++ keptJson ++ ",[]]],\"callees\":[[" ++ keptJson ++ ",[" ++ removedJson ++
    "]]]\x7d\x7d")

def warmCache : CacheFile := ⟨schemaVersion, warmHashes, warmGraph⟩

def warmHost : CacheHost (List (Path × Bytes)) :=
  { orphanHost with
    toVec := fun repr =>
      if repr = warmCache.toRepr warmOrder then .ok warmJson else .error "unsupported"
    fromSlice := fun bytes =>
      if bytes = warmJson then .ok (warmCache.toRepr warmOrder) else .error "unsupported" }

/-- SHA-256 for the three contents that occur. -/
def warmDigest (bytes : Bytes) : String :=
  if bytes = strBytes "one" then digestOne
  else if bytes = strBytes "two" then digestTwo
  else digestThree

/-- The two files as they were when the cache was saved. -/
def savedDisk : List (Path × Bytes) :=
  [(⟨"/a.rs"⟩, strBytes "one"), (⟨"/b.rs"⟩, strBytes "three")]

/-- After the save the callee's file is written. -/
def editedDisk : List (Path × Bytes) :=
  (⟨"/a.rs"⟩, strBytes "two") :: (warmHost.save ⟨"/repo"⟩ warmCache warmOrder savedDisk).2

end CallGraph

end LspGraph
