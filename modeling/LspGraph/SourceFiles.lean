import LspGraph.FiniteMaps
import LspGraph.Framing
import LspGraph.Worklist

/-! The discovery of source files (`source_files` in `main.rs`), over a file system in which entries
may be links: when it ends, and how often it names a file. -/
namespace LspGraph
open FiniteMaps Worklist

/-- The bytes of a file name. -/
abbrev FileName := Bytes

/-- A path below the root, by its components. -/
abbrev RelPath := List FileName

/-- What a path leads to, links followed: a directory or another object, by their numbers, or
nothing. -/
inductive Target where
  | dir (number : ℕ)
  | file (number : ℕ)
  | missing
  deriving DecidableEq

structure DirEntry where
  name : FileName
  target : Target
  deriving DecidableEq

/-- A finite file system: its root, and the entries of the directories that can be read. -/
structure FileSystem where
  root : Target
  dirs : FMap ℕ (List DirEntry)
  nodup_names : ∀ d es, dirs.lookup d = some es → (es.map DirEntry.name).Nodup

/-- `to_str`. -/
def toStr (name : Bytes) : Option (List Char) := (fromUtf8 name).toOption

/-- The directories that are not searched. -/
def excluded (name : FileName) : Bool :=
  (toStr name).getD [] ∈ [".git".toList, "node_modules".toList, "target".toList, "vendor".toList]

/-- `Path::extension`: what follows the last dot, unless that dot begins the name. -/
def extension (name : FileName) : Option Bytes :=
  if name = strBytes ".." then none
  else match name.reverse.dropWhile (· ≠ 46) with
    | [] | [_] => none
    | _ :: _ :: _ => some (name.reverse.takeWhile (· ≠ 46)).reverse

def hasExtension (exts : List String) (name : FileName) : Bool :=
  match (extension name).bind toStr with
  | some x => exts.any fun e => e.toList = x
  | none => false

namespace FileSystem

variable (fs : FileSystem)

def entries : Target → Option (List DirEntry)
  | .dir d => fs.dirs.lookup d
  | _ => none

/-- One component of a path. -/
def follow (t : Target) (name : FileName) : Target :=
  match ((fs.entries t).getD []).find? fun e => e.name = name with
  | some e => e.target
  | none => .missing

def resolve (p : RelPath) : Target := p.foldl fs.follow fs.root

def isDir (p : RelPath) : Bool :=
  match fs.resolve p with
  | .dir _ => true
  | _ => false

/-- `read_dir`; the entries that cannot be read are not among them. -/
def readDir (p : RelPath) : Option (List DirEntry) := fs.entries (fs.resolve p)

/-- The search: `stack` begins with the path that is popped next. -/
structure Walk where
  stack : List RelPath
  out : List RelPath

variable (exts : List String)

/-- The body of the loop over the entries of a directory. -/
def visitEntry (dir : RelPath) (w : Walk) (e : DirEntry) : Walk :=
  let p := dir ++ [e.name]
  if fs.isDir p then
    if excluded e.name then w else { w with stack := p :: w.stack }
  else if hasExtension exts e.name then { w with out := w.out ++ [p] }
  else w

/-- The loop over the stack; `none` where the fuel runs out before it ends. -/
def walk : ℕ → Walk → Option (List RelPath)
  | _, ⟨[], out⟩ => some out
  | 0, ⟨_ :: _, _⟩ => none
  | fuel + 1, ⟨dir :: stack, out⟩ =>
    match fs.readDir dir with
    | none => walk fuel ⟨stack, out⟩
    | some entries => walk fuel (entries.foldl (fs.visitEntry exts dir) ⟨stack, out⟩)

def sourceFiles (fuel : ℕ) : Option (List RelPath) :=
  (fs.walk exts fuel ⟨[[]], []⟩).map fun out => out.mergeSort fun p q => decide (p ≤ q)

/-- The paths that the search comes to: from the root, through directories none of which is
excluded. -/
inductive Reached : RelPath → Prop where
  | root : Reached []
  | sub {p : RelPath} {es : List DirEntry} {e : DirEntry} {d : ℕ} : Reached p →
      fs.readDir p = some es → e ∈ es → e.target = .dir d → excluded e.name = false →
      Reached (p ++ [e.name])

/-- The paths of the matching files. -/
inductive Source : RelPath → Prop where
  | entry {p : RelPath} {es : List DirEntry} {e : DirEntry} : fs.Reached p →
      fs.readDir p = some es → e ∈ es → (∀ d, e.target ≠ .dir d) →
      hasExtension exts e.name = true → Source (p ++ [e.name])

/-- No directory that the search comes to is met again below itself. -/
def NoCycle : Prop :=
  ∀ p q, fs.Reached p → fs.Reached (p ++ q) → fs.resolve (p ++ q) = fs.resolve p → q = []

/-- No matching file has two paths. -/
def NoAlias : Prop := ∀ p q f, fs.Source exts p → fs.Source exts q →
  fs.resolve p = .file f → fs.resolve q = .file f → p = q

/-- A sorted list of matching files that names each of them once. -/
structure ListsOnce (out : List RelPath) : Prop where
  sorted : out.Pairwise (· ≤ ·)
  sound : ∀ p ∈ out, fs.Source exts p
  once : ∀ p f, fs.Source exts p → fs.resolve p = .file f →
    (out.filter fun q => fs.resolve q = .file f).length = 1

/-- The directory that an entry makes the search push. -/
def subdir (p : RelPath) (e : DirEntry) : Option RelPath :=
  if fs.isDir (p ++ [e.name]) = true ∧ excluded e.name = false then some (p ++ [e.name]) else none

/-- The path that an entry adds to the output. -/
def source (p : RelPath) (e : DirEntry) : Option RelPath :=
  if fs.isDir (p ++ [e.name]) = false ∧ hasExtension exts e.name = true then some (p ++ [e.name])
  else none

/-- The directories pushed from one directory, the last one on top. -/
def subdirs (p : RelPath) : List RelPath :=
  (((fs.readDir p).getD []).filterMap (fs.subdir p)).reverse

def sources (p : RelPath) : List RelPath :=
  ((fs.readDir p).getD []).filterMap (fs.source exts p)

variable {fs} {exts}

theorem visitEntry_eq (p : RelPath) (e : DirEntry) (stack out : List RelPath) :
    fs.visitEntry exts p ⟨stack, out⟩ e =
      ⟨(fs.subdir p e).toList ++ stack, out ++ (fs.source exts p e).toList⟩ := by
  unfold visitEntry subdir source
  dsimp only
  -- the entry is pushed, added or passed over
  cases fs.isDir (p ++ [e.name]) with
  | true => cases excluded e.name <;> simp
  | false => cases hasExtension exts e.name <;> simp

theorem foldl_visitEntry (p : RelPath) (es : List DirEntry) (stack out : List RelPath) :
    es.foldl (fs.visitEntry exts p) ⟨stack, out⟩ =
      ⟨(es.filterMap (fs.subdir p)).reverse ++ stack, out ++ es.filterMap (fs.source exts p)⟩ := by
  induction es generalizing stack out with
  | nil => simp
  | cons e es ih =>
    have hcons (f : DirEntry → Option RelPath) :
        (e :: es).filterMap f = (f e).toList ++ es.filterMap f := by
      cases hf : f e with
      | none => exact List.filterMap_cons_none hf
      | some q => exact List.filterMap_cons_some hf
    have hsingle (o : Option RelPath) : o.toList.reverse = o.toList := by cases o <;> rfl
    rw [List.foldl_cons, visitEntry_eq, ih, hcons, hcons, List.reverse_append, hsingle,
      List.append_assoc, List.append_assoc]

/-- The search works off the stack as a worklist, and adds the files of each directory in turn. -/
theorem walk_eq (fuel : ℕ) (stack out : List RelPath) :
    fs.walk exts fuel ⟨stack, out⟩ =
      (exhaust fs.subdirs fuel stack).map fun ps => out ++ ps.flatMap (fs.sources exts) := by
  induction fuel generalizing stack out with
  | zero =>
    cases stack with
    | nil => simp [walk, exhaust]
    | cons p stack => rfl
  | succ fuel ih =>
    cases stack with
    | nil => simp [walk, exhaust]
    | cons p stack =>
      have hmap (ps : List RelPath) : out ++ fs.sources exts p ++ ps.flatMap (fs.sources exts) =
          out ++ (p :: ps).flatMap (fs.sources exts) := by
        rw [List.append_assoc, List.flatMap_cons]
      rw [walk, exhaust, Option.map_map]
      cases hr : fs.readDir p with
      | none =>
        have hsub : fs.subdirs p = [] := by simp [subdirs, hr]
        have hsrc : fs.sources exts p = [] := by simp [sources, hr]
        rw [hsub, List.nil_append]
        simp only [Function.comp_def, ← hmap, hsrc, List.append_nil]
        exact ih stack out
      | some es =>
        have hsub : fs.subdirs p = (es.filterMap (fs.subdir p)).reverse := by simp [subdirs, hr]
        have hsrc : fs.sources exts p = es.filterMap (fs.source exts p) := by simp [sources, hr]
        dsimp only
        rw [foldl_visitEntry, ih, ← hsub, ← hsrc]
        simp only [Function.comp_def, ← hmap]

theorem resolve_append (p q : RelPath) : fs.resolve (p ++ q) = q.foldl fs.follow (fs.resolve p) :=
  List.foldl_append

theorem nodup_of_readDir {p : RelPath} {es : List DirEntry} (hr : fs.readDir p = some es) :
    (es.map DirEntry.name).Nodup := by
  unfold readDir entries at hr
  split at hr
  · exact fs.nodup_names _ es hr
  · cases hr

/-- The names of a directory are distinct, so that each leads to its own entry. -/
theorem resolve_entry {p : RelPath} {es : List DirEntry} {e : DirEntry}
    (hr : fs.readDir p = some es) (he : e ∈ es) : fs.resolve (p ++ [e.name]) = e.target := by
  have hnames := nodup_of_readDir hr
  rw [resolve_append]
  change fs.follow (fs.resolve p) e.name = e.target
  unfold follow
  change (match ((fs.readDir p).getD []).find? fun e' => e'.name = e.name with
    | some e' => e'.target
    | none => .missing) = e.target
  rw [hr, Option.getD_some]
  cases hf : es.find? fun e' => e'.name = e.name with
  | none => exact absurd (List.find?_eq_none.mp hf e he) (by simp)
  | some e' =>
    have hname : e'.name = e.name := by simpa using List.find?_some hf
    obtain rfl := List.inj_on_of_nodup_map hnames (List.mem_of_find?_eq_some hf) he hname
    rfl

theorem isDir_entry {p : RelPath} {es : List DirEntry} {e : DirEntry}
    (hr : fs.readDir p = some es) (he : e ∈ es) :
    fs.isDir (p ++ [e.name]) = true ↔ ∃ d, e.target = .dir d := by
  unfold isDir
  rw [resolve_entry hr he]
  cases e.target <;> simp

theorem mem_listed {p : RelPath} {e : DirEntry} : e ∈ (fs.readDir p).getD [] ↔
    ∃ es, fs.readDir p = some es ∧ e ∈ es := by
  cases fs.readDir p with
  | none => simp
  | some es => simp

theorem mem_subdirs {p q : RelPath} : q ∈ fs.subdirs p ↔
    ∃ es e d, fs.readDir p = some es ∧ e ∈ es ∧ e.target = .dir d ∧ excluded e.name = false ∧
      p ++ [e.name] = q := by
  unfold subdirs
  rw [List.mem_reverse, List.mem_filterMap]
  constructor
  · rintro ⟨e, he, hq⟩
    obtain ⟨es, hr, he⟩ := mem_listed.mp he
    obtain ⟨⟨hd, hx⟩, hq⟩ := Option.ite_none_right_eq_some.mp hq
    obtain ⟨d, ht⟩ := (isDir_entry hr he).mp hd
    exact ⟨es, e, d, hr, he, ht, hx, Option.some.inj hq⟩
  · rintro ⟨es, e, d, hr, he, ht, hx, hq⟩
    refine ⟨e, mem_listed.mpr ⟨es, hr, he⟩, ?_⟩
    unfold subdir
    rw [if_pos ⟨(isDir_entry hr he).mpr ⟨d, ht⟩, hx⟩, hq]

theorem mem_sources {p q : RelPath} : q ∈ fs.sources exts p ↔
    ∃ es e, fs.readDir p = some es ∧ e ∈ es ∧ (∀ d, e.target ≠ .dir d) ∧
      hasExtension exts e.name = true ∧ p ++ [e.name] = q := by
  unfold sources
  rw [List.mem_filterMap]
  constructor
  · rintro ⟨e, he, hq⟩
    obtain ⟨es, hr, he⟩ := mem_listed.mp he
    obtain ⟨⟨hd, hx⟩, hq⟩ := Option.ite_none_right_eq_some.mp hq
    refine ⟨es, e, hr, he, fun d ht => ?_, hx, Option.some.inj hq⟩
    rw [(isDir_entry hr he).mpr ⟨d, ht⟩] at hd
    cases hd
  · rintro ⟨es, e, hr, he, ht, hx, hq⟩
    refine ⟨e, mem_listed.mpr ⟨es, hr, he⟩, ?_⟩
    have hd : fs.isDir (p ++ [e.name]) = false := by
      apply Bool.eq_false_iff.mpr
      intro h
      obtain ⟨d, hd⟩ := (isDir_entry hr he).mp h
      exact ht d hd
    unfold source
    rw [if_pos ⟨hd, hx⟩, hq]

theorem length_of_mem_subdirs {p q : RelPath} (h : q ∈ fs.subdirs p) : q.length = p.length + 1 := by
  obtain ⟨es, e, d, -, -, -, -, rfl⟩ := mem_subdirs.mp h
  rw [List.length_append, List.length_singleton]

theorem Reached.child {p q : RelPath} (h : fs.Reached p) (hq : q ∈ fs.subdirs p) :
    fs.Reached q := by
  obtain ⟨es, e, d, hr, he, ht, hx, rfl⟩ := mem_subdirs.mp hq
  exact .sub h hr he ht hx

/-- The search comes to the directories below the root, and to no others. -/
theorem below_root_iff (p : RelPath) : Below fs.subdirs [] p ↔ fs.Reached p := by
  constructor
  · intro h
    induction h with
    | refl => exact .root
    | tail _ hc ih => exact ih.child hc
  · intro h
    induction h with
    | root => exact .refl
    | sub _ hr he ht hx ih => exact ih.tail (mem_subdirs.mpr ⟨_, _, _, hr, he, ht, hx, rfl⟩)

theorem source_iff (p : RelPath) : fs.Source exts p ↔ ∃ dir, fs.Reached dir ∧
    p ∈ fs.sources exts dir := by
  constructor
  · rintro ⟨hreached, hr, he, ht, hx⟩
    exact ⟨_, hreached, mem_sources.mpr ⟨_, _, hr, he, ht, hx, rfl⟩⟩
  · rintro ⟨dir, hreached, hp⟩
    obtain ⟨es, e, hr, he, ht, hx, rfl⟩ := mem_sources.mp hp
    exact .entry hreached hr he ht hx

theorem isPrefix_of_below {p q : RelPath} (h : Below fs.subdirs p q) : p <+: q := by
  induction h with
  | refl => exact List.prefix_refl p
  | tail _ hc ih =>
    obtain ⟨es, e, d, -, -, -, -, rfl⟩ := mem_subdirs.mp hc
    exact ih.trans (List.prefix_append _ _)

/-- Two entries of a directory give paths that differ in their last component. -/
theorem pairwise_listed {p : RelPath} {f : DirEntry → Option RelPath} {R : RelPath → RelPath → Prop}
    (hf : ∀ e q, f e = some q → q = p ++ [e.name])
    (hR : ∀ n m : FileName, n ≠ m → R (p ++ [n]) (p ++ [m])) :
    (((fs.readDir p).getD []).filterMap f).Pairwise R := by
  cases hr : fs.readDir p with
  | none => exact .nil
  | some es =>
    have hnames : (es.map DirEntry.name).Nodup := nodup_of_readDir hr
    apply List.Pairwise.filterMap _ _ (List.pairwise_map.mp hnames)
    intro e e' hne q hq q' hq'
    rw [hf e q hq, hf e' q' hq']
    exact hR _ _ hne

theorem siblings_apart (p : RelPath) : (fs.subdirs p).Pairwise (Apart fs.subdirs) := by
  apply List.pairwise_reverse.mpr
  apply pairwise_listed
  · intro e q hq
    exact (Option.some.inj (Option.ite_none_right_eq_some.mp hq).2).symm
  · intro n m hne z hm hn
    -- both are prefixes of one path, of the same length
    obtain ⟨u, hu⟩ := isPrefix_of_below hm
    obtain ⟨v, hv⟩ := isPrefix_of_below hn
    have heq := List.append_inj_left (hu.trans hv.symm) (by simp)
    exact hne (by simpa using heq.symm)

theorem not_below_child (p : RelPath) : ∀ c ∈ fs.subdirs p, ¬Below fs.subdirs c p := by
  intro c hc hb
  have hlonger := length_of_mem_subdirs hc
  have hlen := (isPrefix_of_below hb).length_le
  omega

theorem nodup_sources (p : RelPath) : (fs.sources exts p).Nodup := by
  apply pairwise_listed
  · intro e q hq
    exact (Option.some.inj (Option.ite_none_right_eq_some.mp hq).2).symm
  · intro n m hne heq
    exact hne (by simpa using heq)

/-- A search that ends has listed the path of every matching file, each path once. -/
theorem sourceFiles_spec {fuel : ℕ} {out : List RelPath}
    (h : fs.sourceFiles exts fuel = some out) :
    out.Pairwise (· ≤ ·) ∧ out.Nodup ∧ ∀ p, p ∈ out ↔ fs.Source exts p := by
  unfold sourceFiles at h
  rw [walk_eq, Option.map_map] at h
  obtain ⟨ps, hps, rfl⟩ := Option.map_eq_some_iff.mp h
  have hex := exhaust_iff.mp hps
  dsimp only [Function.comp_def]
  rw [List.nil_append]
  refine ⟨?_, ?_, ?_⟩
  · have htrans (a b c : RelPath) (hab : decide (a ≤ b) = true) (hbc : decide (b ≤ c) = true) :
        decide (a ≤ c) = true :=
      decide_eq_true (Std.le_trans (of_decide_eq_true hab) (of_decide_eq_true hbc))
    have htotal (a b : RelPath) : (decide (a ≤ b) || decide (b ≤ a)) = true := by
      simpa using Std.le_total (a := a) (b := b)
    have hsorted := List.pairwise_mergeSort htrans htotal (ps.flatMap (fs.sources exts))
    simpa using hsorted
  · rw [(List.mergeSort_perm _ _).nodup_iff, List.nodup_flatMap]
    refine ⟨fun p _ => nodup_sources p, ?_⟩
    have hnodup := hex.nodup siblings_apart not_below_child (List.pairwise_singleton _ _)
    refine hnodup.imp fun hne q hq hq' => ?_
    -- the directory of a path is the path without its last component
    obtain ⟨_, e, -, -, -, -, rfl⟩ := mem_sources.mp hq
    obtain ⟨_, e', -, -, -, -, heq⟩ := mem_sources.mp hq'
    exact hne (List.append_inj_left' heq.symm rfl)
  · intro p
    rw [List.mem_mergeSort, List.mem_flatMap, source_iff]
    have hmem (dir : RelPath) : dir ∈ ps ↔ fs.Reached dir := by
      rw [hex.mem_iff, ← below_root_iff]
      simp
    simp only [hmem]

theorem reached_snoc_iff {p : RelPath} {n : FileName} :
    fs.Reached (p ++ [n]) ↔ fs.Reached p ∧ p ++ [n] ∈ fs.subdirs p := by
  constructor
  · intro h
    generalize hq : p ++ [n] = q at h
    cases h with
    | root => simp at hq
    | @sub p' es e d hreached hr he ht hx =>
      obtain ⟨rfl, hn⟩ := List.append_inj' hq rfl
      exact ⟨hreached, mem_subdirs.mpr ⟨es, e, d, hr, he, ht, hx, rfl⟩⟩
  · rintro ⟨hreached, hc⟩
    exact hreached.child hc

theorem Reached.of_append {p q : RelPath} (h : fs.Reached (p ++ q)) : fs.Reached p := by
  induction q using List.reverseRecOn with
  | nil => rwa [List.append_nil] at h
  | append_singleton q n ih =>
    rw [← List.append_assoc] at h
    exact ih (reached_snoc_iff.mp h).1

/-- The search goes on alike from two paths to one directory. -/
theorem Reached.transport {p p' : RelPath} {n : FileName} (h : fs.Reached (p ++ [n]))
    (h' : fs.Reached p') (heq : fs.resolve p' = fs.resolve p) : fs.Reached (p' ++ [n]) := by
  obtain ⟨es, e, d, hr, he, ht, hx, hn⟩ := mem_subdirs.mp (reached_snoc_iff.mp h).2
  obtain rfl : e.name = n := by simpa using hn
  have hr' : fs.readDir p' = some es := by
    unfold readDir at hr ⊢
    rw [heq]
    exact hr
  exact .sub h' hr' he ht hx

/-- Below a directory that the search leaves again, no path comes back to it. -/
theorem no_way_back {p : RelPath} (hacc : Acc (fun q p => q ∈ fs.subdirs p) p) :
    ∀ q, fs.Reached (p ++ q) → fs.resolve (p ++ q) = fs.resolve p → q = [] := by
  induction hacc with
  | intro p _ ih =>
    intro q hq heq
    cases q with
    | nil => rfl
    | cons n r =>
      exfalso
      have happ : p ++ [n] ++ r = p ++ n :: r := List.append_assoc p [n] r
      have hchild : fs.Reached (p ++ [n]) := by
        rw [← happ] at hq
        exact hq.of_append
      -- the way back goes on from the child, round once more
      have hround : fs.Reached (p ++ [n] ++ (r ++ [n])) := by
        rw [← List.append_assoc, happ]
        exact hchild.transport hq heq
      have hsame : fs.resolve (p ++ [n] ++ (r ++ [n])) = fs.resolve (p ++ [n]) := by
        rw [← List.append_assoc, happ, resolve_append, heq, ← resolve_append]
      have hnil := ih _ (reached_snoc_iff.mp hchild).2 _ hround hsame
      simp at hnil

theorem Reached.take {p : RelPath} (h : fs.Reached p) (i : ℕ) : fs.Reached (p.take i) := by
  rw [← List.take_append_drop i p] at h
  exact h.of_append

/-- The directories on the way to a path. -/
theorem Reached.way {p : RelPath} (h : fs.Reached p) {i : ℕ} (hi : i < p.length) :
    ∃ d ∈ fs.dirs.keys, fs.resolve (p.take i) = .dir d := by
  have htake := h.take (i + 1)
  rw [← List.take_append_getElem hi] at htake
  obtain ⟨es, e, d, hr, -⟩ := mem_subdirs.mp (reached_snoc_iff.mp htake).2
  unfold readDir at hr
  cases ht : fs.resolve (p.take i) with
  | dir number =>
    rw [ht] at hr
    exact ⟨number, Finmap.mem_keys.mpr (Finmap.mem_of_lookup_eq_some hr), rfl⟩
  | file number =>
    rw [ht] at hr
    cases hr
  | missing =>
    rw [ht] at hr
    cases hr

/-- Without a cycle, a path passes each directory once. -/
theorem NoCycle.ne_on_way (hn : fs.NoCycle) {p : RelPath} (h : fs.Reached p) {i j : ℕ}
    (hij : i < j) (hj : j < p.length) : fs.resolve (p.take j) ≠ fs.resolve (p.take i) := by
  intro heq
  have hsplit : p.take i ++ (p.take j).drop i = p.take j := by
    have hd := List.take_append_drop i (p.take j)
    rwa [List.take_take, Nat.min_eq_left hij.le] at hd
  have hreached : fs.Reached (p.take i ++ (p.take j).drop i) := by
    rw [hsplit]
    exact h.take j
  have hnil := hn (p.take i) ((p.take j).drop i) (h.take i) hreached (by rw [hsplit, heq])
  have hlen := congrArg List.length hnil
  rw [List.length_drop, List.length_take, Nat.min_eq_left hj.le, List.length_nil] at hlen
  omega

theorem NoCycle.length_le (hn : fs.NoCycle) {p : RelPath} (h : fs.Reached p) :
    p.length ≤ fs.dirs.keys.card := by
  have hcard : (Finset.range p.length).card ≤ (fs.dirs.keys.image Target.dir).card := by
    apply Finset.card_le_card_of_injOn fun i => fs.resolve (p.take i)
    · intro i hi
      obtain ⟨d, hd, ht⟩ := h.way (Finset.mem_range.mp hi)
      exact Finset.mem_image.mpr ⟨d, hd, ht.symm⟩
    · intro i hi j hj heq
      rcases Nat.lt_trichotomy i j with hij | hij | hij
      · exact absurd heq.symm (hn.ne_on_way h hij (Finset.mem_range.mp hj))
      · exact hij
      · exact absurd heq (hn.ne_on_way h hij (Finset.mem_range.mp hi))
  rw [Finset.card_range] at hcard
  exact hcard.trans Finset.card_image_le

theorem NoCycle.acc (hn : fs.NoCycle) {p : RelPath} (h : fs.Reached p) :
    Acc (fun q p => q ∈ fs.subdirs p) p := by
  -- on how many more components a path can have
  generalize hk : fs.dirs.keys.card - p.length = k
  induction k using Nat.strong_induction_on generalizing p with
  | _ k ih =>
    apply Acc.intro
    intro q hq
    have hlonger := length_of_mem_subdirs hq
    have hlen := hn.length_le (h.child hq)
    exact ih _ (by omega) (h.child hq) rfl

/-- The search ends exactly if no directory is met again below itself. -/
theorem ends_iff_noCycle : (∃ fuel out, fs.sourceFiles exts fuel = some out) ↔ fs.NoCycle := by
  have hends : (∃ fuel out, fs.sourceFiles exts fuel = some out) ↔
      ∃ fuel ps, exhaust fs.subdirs fuel [[]] = some ps := by
    simp only [sourceFiles, walk_eq, Option.map_map, Option.map_eq_some_iff]
    exact exists_congr fun fuel => ⟨fun ⟨_, ps, h, _⟩ => ⟨ps, h⟩, fun ⟨ps, h⟩ => ⟨_, ps, h, rfl⟩⟩
  rw [hends, ends_iff, List.forall_mem_singleton]
  constructor
  · intro hacc p q hp hq heq
    have haccp : Acc (fun q p => q ∈ fs.subdirs p) p := by
      clear hq heq
      induction hp with
      | root => exact hacc
      | sub _ hr he ht hx ih => exact ih.inv (mem_subdirs.mpr ⟨_, _, _, hr, he, ht, hx, rfl⟩)
    exact no_way_back haccp q hq heq
  · exact fun hn => hn.acc .root

theorem listsOnce_iff {out : List RelPath} (hsorted : out.Pairwise (· ≤ ·)) (hnodup : out.Nodup)
    (hmem : ∀ p, p ∈ out ↔ fs.Source exts p) : fs.ListsOnce exts out ↔ fs.NoAlias exts := by
  have hfilter (p : RelPath) (f : ℕ) : p ∈ out.filter (fun q => fs.resolve q = .file f) ↔
      fs.Source exts p ∧ fs.resolve p = .file f := by
    rw [List.mem_filter, hmem, decide_eq_true_iff]
  constructor
  · intro honce p q f hp hq hpf hqf
    obtain ⟨x, hx⟩ := List.length_eq_one_iff.mp (honce.once p f hp hpf)
    have hp' := (hfilter p f).mpr ⟨hp, hpf⟩
    have hq' := (hfilter q f).mpr ⟨hq, hqf⟩
    rw [hx, List.mem_singleton] at hp' hq'
    exact hp'.trans hq'.symm
  · intro hn
    refine ⟨hsorted, fun p hp => (hmem p).mp hp, fun p f hp hpf => ?_⟩
    -- all elements of the filtered list are this path, and it is there once
    have hall : ∀ q ∈ out.filter (fun q => fs.resolve q = .file f), q = p := by
      intro q hq
      obtain ⟨hqs, hqf⟩ := (hfilter q f).mp hq
      exact hn q p f hqs hp hqf hpf
    have hrep := List.eq_replicate_of_mem hall
    have hle := List.nodup_replicate.mp (hrep ▸ hnodup.filter _)
    have hpos := List.length_pos_of_mem ((hfilter p f).mpr ⟨hp, hpf⟩)
    omega

/-- When the search ends, what it lists then, and when each matching file is named once: exactly
if no directory is met again below itself, and no matching file has two paths. -/
theorem source_files_once_iff (fs : FileSystem) (exts : List String) :
    ((∃ fuel out, fs.sourceFiles exts fuel = some out) ↔ fs.NoCycle) ∧
    (∀ fuel out, fs.sourceFiles exts fuel = some out →
      out.Pairwise (· ≤ ·) ∧ out.Nodup ∧ ∀ p, p ∈ out ↔ fs.Source exts p) ∧
    ((∃ fuel out, fs.sourceFiles exts fuel = some out ∧ fs.ListsOnce exts out) ↔
      fs.NoCycle ∧ fs.NoAlias exts) := by
  refine ⟨ends_iff_noCycle, fun fuel out h => sourceFiles_spec h, ?_⟩
  constructor
  · rintro ⟨fuel, out, h, honce⟩
    obtain ⟨hsorted, hnodup, hmem⟩ := sourceFiles_spec h
    exact ⟨ends_iff_noCycle.mp ⟨fuel, out, h⟩, (listsOnce_iff hsorted hnodup hmem).mp honce⟩
  · rintro ⟨hcycle, halias⟩
    obtain ⟨fuel, out, h⟩ := ends_iff_noCycle.mpr hcycle
    obtain ⟨hsorted, hnodup, hmem⟩ := sourceFiles_spec h
    exact ⟨fuel, out, h, (listsOnce_iff hsorted hnodup hmem).mpr halias⟩

/-- A directory with a source file and a link to the directory itself. -/
def loopFiles : FileSystem where
  root := .dir 0
  dirs := collect [(0, [⟨strBytes "a.rs", .file 0⟩, ⟨strBytes "loop", .dir 0⟩])]
  nodup_names d es h := by
    obtain ⟨-, rfl⟩ := Prod.mk.inj (List.mem_singleton.mp (mem_of_lookup_collect h))
    decide

/-- A directory that is listed under its own name and through a link beside it. -/
def aliasFiles : FileSystem where
  root := .dir 0
  dirs := collect [(0, [⟨strBytes "src", .dir 1⟩, ⟨strBytes "lib", .dir 1⟩]),
    (1, [⟨strBytes "a.rs", .file 0⟩])]
  nodup_names d es h := by
    have hm := mem_of_lookup_collect h
    simp only [List.mem_cons, Prod.mk.injEq, List.not_mem_nil, or_false] at hm
    rcases hm with ⟨-, rfl⟩ | ⟨-, rfl⟩ <;> decide

/-- Over the first the search never ends, over the second it names one file twice. -/
theorem source_files_loop_and_repeat :
    (∀ fuel, loopFiles.sourceFiles ["rs"] fuel = none) ∧
    (aliasFiles.sourceFiles ["rs"] 3).map (fun out => out.map aliasFiles.resolve) =
      some [.file 0, .file 0] := by
  constructor
  · intro fuel
    cases h : loopFiles.sourceFiles ["rs"] fuel with
    | none => rfl
    | some out =>
      have hreached : loopFiles.Reached ([] ++ [strBytes "loop"]) :=
        reached_snoc_iff.mpr ⟨.root, by decide⟩
      have hnil := ends_iff_noCycle.mp ⟨fuel, out, h⟩ [] _ .root hreached (by decide)
      cases hnil
  · have hwalk : aliasFiles.walk ["rs"] 3 ⟨[[]], []⟩ =
        some [[strBytes "lib", strBytes "a.rs"], [strBytes "src", strBytes "a.rs"]] := by decide
    unfold sourceFiles
    rw [hwalk, Option.map_some, List.mergeSort_of_pairwise (by decide)]
    decide

end FileSystem

end LspGraph
