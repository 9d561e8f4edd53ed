import LspGraph.Framing
import LspGraph.GraphHistory

/-! The cross-session cache (`cache.rs`), and the serialized form of the graph that it stores. -/
namespace LspGraph
open FiniteMaps Runs

/-- One order in which the three maps of a graph are iterated. -/
structure CallGraph.Order (g : CallGraph) where
  nodes : Iteration g.nodes
  callers : Iteration g.callers
  callees : Iteration g.callees

/-- `From<CallGraph> for CallGraphRepr`. -/
def CallGraph.toRepr (g : CallGraph) (order : g.Order) : CallGraphRepr where
  nodes := order.nodes.entries.map Prod.snd
  callers := order.callers.entries
  callees := order.callees.entries

deriving instance DecidableEq for CallGraphRepr

def schemaVersion : UInt32 := 1

structure CacheFile where
  schema : UInt32
  /-- File path and content hash at the time of caching. -/
  fileHashes : FMap String String
  graph : CallGraph
  deriving DecidableEq

def CacheFile.new (graph : CallGraph) : CacheFile := ⟨schemaVersion, ∅, graph⟩

/-- A cache as it is encoded, with its graph in vector form. -/
structure CacheRepr where
  schema : UInt32
  fileHashes : FMap String String
  graph : CallGraphRepr
  deriving DecidableEq

def CacheFile.toRepr (cache : CacheFile) (order : cache.graph.Order) : CacheRepr :=
  ⟨cache.schema, cache.fileHashes, cache.graph.toRepr order⟩

def CacheFile.ofRepr (repr : CacheRepr) : CacheFile :=
  ⟨repr.schema, repr.fileHashes, .ofRepr repr.graph⟩

/-- `Path::join` with a relative name. -/
def Path.join (p : Path) (name : String) : Path :=
  if p.text = "" ∨ p.text.toList.getLast? = some '/' then ⟨p.text ++ name⟩
  else ⟨p.text ++ "/" ++ name⟩

/-- What the cache uses from outside, with a file system whose state is of type `D`. -/
structure CacheHost (D : Type*) where
  /-- A SHA-256 digest, formatted in hexadecimal. -/
  sha256 : String → String
  /-- `dirs::cache_dir`. -/
  cacheDir : Option Path
  /-- `std::env::temp_dir`. -/
  tempDir : Path
  /-- `serde_json::to_vec` by the derived encoding. -/
  toVec : CacheRepr → Except String Bytes
  /-- `serde_json::from_slice` by the derived encoding. -/
  fromSlice : Bytes → Except String CacheRepr
  createDirAll : Path → D → Result Unit × D
  /-- `std::fs::write`. -/
  write : Path → Bytes → D → Result Unit × D
  read : Path → D → Result Bytes
  /-- What is written without an error can be read. -/
  read_write : ∀ path bytes d,
    (write path bytes d).1 = .ok () → read path (write path bytes d).2 = .ok bytes

namespace CacheHost

variable {D : Type*} (host : CacheHost D)

/-- `cache_dir_for`: keyed by a hash of the repository path. -/
def cacheDirFor (repo : Path) : Path :=
  let key := host.sha256 repo.text
  let base := host.cacheDir.getD host.tempDir
  (base.join "lspgraph").join (String.ofList (key.toList.take 16))

/-- Load a cache, or nothing. A schema mismatch discards rather than migrates. -/
def load (repo : Path) (d : D) : Option CacheFile :=
  match host.read ((host.cacheDirFor repo).join "graph.json") d with
  | .error _ => none
  | .ok bytes =>
    match host.fromSlice bytes with
    | .error _ => none
    | .ok repr => if repr.schema ≠ schemaVersion then none else some (.ofRepr repr)

def save (repo : Path) (cache : CacheFile) (order : cache.graph.Order) (d : D) : Result Unit × D :=
  let dir := host.cacheDirFor repo
  match host.createDirAll dir d with
  | (.error e, d) => (.error e, d)
  | (.ok _, d) =>
    match host.toVec (cache.toRepr order) with
    | .error text => (.error (.json text), d)
    | .ok json => host.write (dir.join "graph.json") json d

/-- A save that succeeds has written the encoded cache into the file that a load reads. -/
theorem read_save {repo : Path} {cache : CacheFile} {order : cache.graph.Order} {d : D}
    (hs : (host.save repo cache order d).1 = .ok ()) :
    ∃ json, host.toVec (cache.toRepr order) = .ok json ∧
      host.read ((host.cacheDirFor repo).join "graph.json") (host.save repo cache order d).2 =
        .ok json := by
  dsimp only [save] at hs ⊢
  generalize host.createDirAll (host.cacheDirFor repo) d = made at hs ⊢
  obtain ⟨e | _, d'⟩ := made
  · cases hs
  · cases hv : host.toVec (cache.toRepr order) with
    | error text =>
      rw [hv] at hs
      cases hs
    | ok json =>
      rw [hv] at hs
      exact ⟨json, rfl, host.read_write _ _ _ hs⟩

end CacheHost

namespace CallGraph

variable {g : CallGraph}

/-- Two graphs answer every question alike. -/
structure SameAnswers (g g' : CallGraph) : Prop where
  get : ∀ id, g'.get id = g.get id
  callersOf : ∀ id, g'.callersOf id = g.callersOf id
  calleesOf : ∀ id, g'.calleesOf id = g.calleesOf id
  nodesInFile : ∀ uri, g'.nodesInFile uri = g.nodesInFile uri
  len : g'.len = g.len

/-- Under their own ids, the nodes of an iteration are its entries. -/
theorem entries_of_keyed (hk : g.Keyed) (it : Iteration g.nodes) :
    (it.entries.map Prod.snd).map (fun n => (n.id, n)) = it.entries := by
  have hid (p : NodeId × Node) (hm : p ∈ it.entries) : (p.2.id, p.2) = p :=
    congrArg (·, p.2) (hk p.1 p.2 ((it.mem_iff p.1 p.2).mp hm))
  calc (it.entries.map Prod.snd).map (fun n => (n.id, n))
      = it.entries.map fun p => (p.2.id, p.2) := List.map_map
    _ = it.entries.map id := List.map_congr_left hid
    _ = it.entries := List.map_id _

theorem ofRepr_toRepr (hk : g.Keyed) (order : g.Order) : ofRepr (g.toRepr order) = g := by
  obtain ⟨nodes, callers, callees⟩ := g
  unfold ofRepr toRepr
  rw [entries_of_keyed hk]
  exact congrArg₂ (fun p q => CallGraph.mk p q.1 q.2) order.nodes.collect_entries
    (congrArg₂ Prod.mk order.callers.collect_entries order.callees.collect_entries)

theorem SameAnswers.of_eq {g g' : CallGraph} (h : g' = g) : SameAnswers g g' :=
  ⟨fun _ => h ▸ rfl, fun _ => h ▸ rfl, fun _ => h ▸ rfl, fun _ => h ▸ rfl, h ▸ rfl⟩

/-- The serialized form loses nothing: whatever a history has built, and in whatever order its maps
are iterated, it is read back with the same answers. And what a save has stored without an error
is what a load gives, unless its schema is another one, in which case it is discarded. -/
theorem serialized_form_loses_nothing {h : List (CallGraph × GraphOp)} (hr : Run Step new h g)
    {D : Type*} (host : CacheHost D)
    (hserde : ∀ repr bytes, host.toVec repr = .ok bytes → host.fromSlice bytes = .ok repr) :
    (∀ order : g.Order, SameAnswers g (ofRepr (g.toRepr order))) ∧
    ∀ repo schema hashes (order : g.Order) d,
      (host.save repo ⟨schema, hashes, g⟩ order d).1 = .ok () →
      host.load repo (host.save repo ⟨schema, hashes, g⟩ order d).2 =
        if schema = schemaVersion then some ⟨schema, hashes, g⟩ else none := by
  have hk : g.Keyed := keyed_of_run hr
  refine ⟨fun order => .of_eq (ofRepr_toRepr hk order), ?_⟩
  intro repo schema hashes order d hs
  obtain ⟨json, hv, hread⟩ := host.read_save hs
  have hrepr : CacheFile.ofRepr (CacheFile.toRepr ⟨schema, hashes, g⟩ order) =
      ⟨schema, hashes, g⟩ := congrArg (CacheFile.mk schema hashes) (ofRepr_toRepr hk order)
  unfold CacheHost.load
  rw [hread]
  dsimp only
  rw [hserde _ _ hv]
  dsimp only
  rw [hrepr]
  exact ite_not ..

/-- A list for an id that is no node, and a removal. -/
def orphanOps : List GraphOp :=
  [.upsert ⟨keptId, "Function", none, .unexpanded⟩, .recordExpansion removedId ⟨[keptId], []⟩,
    .removeFile "file:///c.rs"]

def orphanGraph : CallGraph := orphanOps.foldl apply new

def orphanOrder : orphanGraph.Order where
  nodes := .ofEntries [(keptId, ⟨keptId, "Function", none, .unexpanded⟩)] (by decide) (by decide)
  callers := .ofEntries [(removedId, [keptId])] (by decide) (by decide)
  callees := .ofEntries [(removedId, [])] (by decide) (by decide)

def keptJson : String :=
  "\x7b\"uri\":\"file:///b.rs\",\"line\":5,\"character\":3,\"name\":\"g\"\x7d"

def removedJson : String :=
  "\x7b\"uri\":\"file:///a.rs\",\"line\":1,\"character\":3,\"name\":\"f\"\x7d"

/-- The text that its cache is stored as. -/
def orphanJson : Bytes := strBytes
  ("\x7b\"schema\":1,\"file_hashes\":\x7b\x7d,\"graph\":\x7b\"nodes\":[\x7b\"id\":" ++
    keptJson ++ ",\"kind_name\":\"Function\",\"detail\":null,\"state\":\"Unexpanded\"\x7d]," ++
    "\"callers\":[[" ++ removedJson ++ ",[" ++ keptJson ++ "]]]," ++
    "\"callees\":[[" ++ removedJson ++ ",[]]]\x7d\x7d")

/-- The outside, as far as this cache needs it: the newest content of a path is read. -/
def orphanHost : CacheHost (List (Path × Bytes)) where
  sha256 _ := "816fc349d3faebf805d1bed70fce7e14754cad5251c77dda31c414ee961a0bdd"
  cacheDir := some ⟨"/home/user/.cache"⟩
  tempDir := ⟨"/tmp"⟩
  toVec repr :=
    if repr = (CacheFile.new orphanGraph).toRepr orphanOrder then .ok orphanJson
    else .error "unsupported"
  fromSlice bytes :=
    if bytes = orphanJson then .ok ((CacheFile.new orphanGraph).toRepr orphanOrder)
    else .error "unsupported"
  createDirAll _ d := (.ok (), d)
  write path bytes d := (.ok (), (path, bytes) :: d)
  read path d := (d.lookup path).elim (.error (.io "No such file or directory (os error 2)")) .ok
  read_write path bytes d _ := by
    dsimp only
    rw [List.lookup_cons_self]
    rfl

/-- It is read back whole, with the list of the id that is no node. -/
theorem serialized_form_loses_nothing_orphan :
    ∃ h, Run Step new h orphanGraph ∧ h.map Prod.snd = orphanOps ∧
      orphanGraph.get removedId = none ∧ orphanGraph.callersOf removedId = some [keptId] ∧
      orphanHost.load ⟨"/repo"⟩ (orphanHost.save ⟨"/repo"⟩ (.new orphanGraph) orphanOrder []).2 =
        some (.new orphanGraph) := by
  have hr := run_of_total (R := Step) apply (fun _ _ => rfl) new orphanOps
  refine ⟨_, hr, map_snd_trace _ _ _, by decide, by decide, ?_⟩
  have hserde : ∀ repr bytes, orphanHost.toVec repr = .ok bytes →
      orphanHost.fromSlice bytes = .ok repr := by
    intro repr bytes hv
    dsimp only [orphanHost] at hv ⊢
    split_ifs at hv with hrepr
    obtain rfl := Except.ok.inj hv
    rw [if_pos rfl, hrepr]
  have hsaved : (orphanHost.save ⟨"/repo"⟩ (.new orphanGraph) orphanOrder []).1 = .ok () := by
    unfold CacheHost.save
    dsimp only [orphanHost]
    rw [if_pos rfl]
  exact (serialized_form_loses_nothing hr orphanHost hserde).2 _ _ _ orphanOrder _ hsaved

end CallGraph

end LspGraph
