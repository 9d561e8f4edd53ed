import Mathlib.Data.Finmap

/-! Finite maps with a fixed value type: the operations of a hash map that `Finmap` lacks
(`retain`, updating the values in place, clearing) and lookups written as one equation. -/
namespace FiniteMaps

variable {K V W : Type*}

abbrev FMap (K V : Type*) := Finmap (fun _ : K => V)

/-- Keep the entries that satisfy `p`, in their order. -/
def listRetain (p : K → V → Bool) (l : List (Sigma fun _ : K => V)) :
    List (Sigma fun _ : K => V) :=
  l.filter fun e => p e.1 e.2

/-- Apply `f` to the value of every entry. -/
def listMap (f : K → V → W) (l : List (Sigma fun _ : K => V)) : List (Sigma fun _ : K => W) :=
  l.map fun e => ⟨e.1, f e.1 e.2⟩

theorem keys_listMap (f : K → V → W) (l : List (Sigma fun _ : K => V)) :
    (listMap f l).keys = l.keys := by
  simp [listMap, List.keys, Function.comp_def]

theorem nodupKeys_listMap (f : K → V → W) {l : List (Sigma fun _ : K => V)}
    (hl : l.NodupKeys) : (listMap f l).NodupKeys := by
  unfold List.NodupKeys
  rw [keys_listMap]
  exact hl

/-- `HashMap::retain`. -/
def retain (p : K → V → Bool) (m : FMap K V) : FMap K V where
  entries := m.entries.filter fun e => p e.1 e.2
  nodupKeys := by
    rcases m with ⟨⟨l⟩, hl⟩
    exact List.NodupKeys.sublist List.filter_sublist hl

/-- `HashMap::values_mut`, with the key at hand. -/
def mapValues (f : K → V → W) (m : FMap K V) : FMap K W where
  entries := m.entries.map fun e => ⟨e.1, f e.1 e.2⟩
  nodupKeys := by
    rcases m with ⟨⟨l⟩, hl⟩
    exact nodupKeys_listMap f hl

variable [DecidableEq K]

/-- `HashMap::from_iter`: a later pair replaces an earlier one with its key. -/
def collect (l : List (K × V)) : FMap K V := l.foldl (fun m p => m.insert p.1 p.2) ∅

theorem dlookup_listRetain (p : K → V → Bool) (k : K) (l : List (Sigma fun _ : K => V))
    (hl : l.NodupKeys) :
    (listRetain p l).dlookup k = (l.dlookup k).filter (p k) := by
  induction l with
  | nil => rfl
  | cons e l ih =>
    obtain ⟨a, v⟩ := e
    have hl' := List.nodupKeys_cons.mp hl
    by_cases hk : k = a
    · subst hk
      have hnone : l.dlookup k = none := List.dlookup_eq_none.mpr hl'.1
      rw [List.dlookup_cons_eq]
      by_cases hp : p k v = true
      · have hc : listRetain p (⟨k, v⟩ :: l) = ⟨k, v⟩ :: listRetain p l := by
          simp [listRetain, hp]
        rw [hc, List.dlookup_cons_eq, Option.filter_some_pos hp]
      · have hc : listRetain p (⟨k, v⟩ :: l) = listRetain p l := by
          simp [listRetain, hp]
        have hf : p k v = false := by simpa using hp
        rw [hc, ih hl'.2, hnone, Option.filter_some_neg hf, Option.filter_none]
    · have ht := ih hl'.2
      have hne : ∀ b : V, List.dlookup k (⟨a, b⟩ :: l) = l.dlookup k := fun b =>
        List.dlookup_cons_ne l ⟨a, b⟩ hk
      rw [hne]
      by_cases hp : p a v = true
      · have hc : listRetain p (⟨a, v⟩ :: l) = ⟨a, v⟩ :: listRetain p l := by
          simp [listRetain, hp]
        rw [hc, List.dlookup_cons_ne _ _ hk, ht]
      · have hc : listRetain p (⟨a, v⟩ :: l) = listRetain p l := by
          simp [listRetain, hp]
        rw [hc, ht]

theorem dlookup_listMap (f : K → V → W) (k : K) (l : List (Sigma fun _ : K => V)) :
    (listMap f l).dlookup k = (l.dlookup k).map (f k) := by
  induction l with
  | nil => rfl
  | cons e l ih =>
    obtain ⟨a, v⟩ := e
    have hc : listMap f (⟨a, v⟩ :: l) = ⟨a, f a v⟩ :: listMap f l := rfl
    by_cases hk : k = a
    · subst hk
      rw [hc, List.dlookup_cons_eq, List.dlookup_cons_eq, Option.map_some]
    · rw [hc, List.dlookup_cons_ne _ _ hk, List.dlookup_cons_ne _ _ hk, ih]

@[simp] theorem lookup_retain (p : K → V → Bool) (k : K) (m : FMap K V) :
    (retain p m).lookup k = (m.lookup k).filter (p k) := by
  induction m using Finmap.induction_on with
  | H l =>
    have hr : retain p l.toFinmap = AList.toFinmap ⟨listRetain p l.entries,
        List.NodupKeys.sublist List.filter_sublist l.nodupKeys⟩ := by
      apply Finmap.ext
      simp [retain, listRetain, AList.toFinmap, Multiset.filter_coe]
    rw [hr, Finmap.lookup_toFinmap, Finmap.lookup_toFinmap]
    exact dlookup_listRetain p k l.entries l.nodupKeys

@[simp] theorem lookup_mapValues (f : K → V → W) (k : K) (m : FMap K V) :
    (mapValues f m).lookup k = (m.lookup k).map (f k) := by
  induction m using Finmap.induction_on with
  | H l =>
    have hr : mapValues f l.toFinmap = AList.toFinmap ⟨listMap f l.entries,
        nodupKeys_listMap f l.nodupKeys⟩ := rfl
    rw [hr, Finmap.lookup_toFinmap, Finmap.lookup_toFinmap]
    exact dlookup_listMap f k l.entries

theorem lookup_insert_ite (k a : K) (v : V) (m : FMap K V) :
    (m.insert a v).lookup k = if k = a then some v else m.lookup k := by
  split_ifs with hk
  · subst hk
    exact Finmap.lookup_insert m
  · exact Finmap.lookup_insert_of_ne m hk

theorem lookup_erase_ite (k a : K) (m : FMap K V) :
    (m.erase a).lookup k = if k = a then none else m.lookup k := by
  split_ifs with hk
  · subst hk
    exact Finmap.lookup_erase k m
  · exact Finmap.lookup_erase_ne hk

/-- What is left after an erasure was there before. -/
theorem lookup_of_lookup_erase {k a : K} {m : FMap K V} {v : V}
    (h : (m.erase a).lookup k = some v) : m.lookup k = some v := by
  rw [lookup_erase_ite] at h
  split_ifs at h
  exact h

@[simp] theorem mem_mapValues (f : K → V → W) (k : K) (m : FMap K V) :
    k ∈ mapValues f m ↔ k ∈ m := by
  rw [← Finmap.lookup_isSome, ← Finmap.lookup_isSome, lookup_mapValues, Option.isSome_map]

/-- Retaining by the key alone. -/
theorem mem_retain_key (p : K → Bool) (k : K) (m : FMap K V) :
    k ∈ retain (fun k _ => p k) m ↔ k ∈ m ∧ p k = true := by
  rw [← Finmap.lookup_isSome, ← Finmap.lookup_isSome, lookup_retain]
  cases m.lookup k with
  | none => simp
  | some v => cases p k <;> simp

theorem lookup_retain_key (p : K → Bool) (k : K) (m : FMap K V) :
    (retain (fun k _ => p k) m).lookup k = if p k = true then m.lookup k else none := by
  rw [lookup_retain]
  cases m.lookup k with
  | none => simp
  | some v => cases p k <;> simp

theorem mem_foldl_insert (k : K) (l : List (K × V)) (m : FMap K V) :
    k ∈ l.foldl (fun m p => m.insert p.1 p.2) m ↔ k ∈ l.map Prod.fst ∨ k ∈ m := by
  induction l generalizing m with
  | nil => simp
  | cons p l ih =>
    rw [List.foldl_cons, ih, Finmap.mem_insert, List.map_cons, List.mem_cons]
    tauto

theorem mem_collect (k : K) (l : List (K × V)) : k ∈ collect l ↔ k ∈ l.map Prod.fst :=
  (mem_foldl_insert k l ∅).trans (or_iff_left Finmap.notMem_empty)

theorem mem_of_lookup_foldl_insert {k : K} {v : V} (l : List (K × V)) (m : FMap K V)
    (h : (l.foldl (fun m p => m.insert p.1 p.2) m).lookup k = some v) :
    (k, v) ∈ l ∨ m.lookup k = some v := by
  induction l generalizing m with
  | nil => exact .inr h
  | cons p l ih =>
    rcases ih _ h with hm | hm
    · exact .inl (List.mem_cons_of_mem _ hm)
    · rw [lookup_insert_ite] at hm
      split_ifs at hm with hk
      · refine .inl (List.mem_cons.mpr (.inl ?_))
        rw [hk, ← Option.some.inj hm]
      · exact .inr hm

theorem mem_of_lookup_collect {k : K} {v : V} {l : List (K × V)}
    (h : (collect l).lookup k = some v) : (k, v) ∈ l :=
  (mem_of_lookup_foldl_insert l ∅ h).resolve_right (by simp)

/-- One iteration over a map, in any order: each entry once. -/
structure Iteration (m : FMap K V) where
  entries : List (K × V)
  nodup : (entries.map Prod.fst).Nodup
  mem_iff : ∀ k v, (k, v) ∈ entries ↔ m.lookup k = some v

theorem mem_collect_iff {l : List (K × V)} (hl : (l.map Prod.fst).Nodup) (k : K) (v : V) :
    (k, v) ∈ l ↔ (collect l).lookup k = some v := by
  refine ⟨fun hm => ?_, mem_of_lookup_collect⟩
  have hk : k ∈ collect l := (mem_collect k l).mpr (List.mem_map_of_mem hm)
  obtain ⟨w, hw⟩ := Finmap.mem_iff.mp hk
  -- what is found is an entry of the same key
  obtain rfl : w = v := by
    have hinj := List.inj_on_of_nodup_map hl (mem_of_lookup_collect hw) hm rfl
    exact congrArg Prod.snd hinj
  exact hw

/-- The iteration that gives the entries a map was collected from, in their order. -/
def Iteration.ofEntries {m : FMap K V} (l : List (K × V)) (hl : (l.map Prod.fst).Nodup)
    (hm : collect l = m) : Iteration m where
  entries := l
  nodup := hl
  mem_iff k v := hm ▸ mem_collect_iff hl k v

/-- Collecting what an iteration gives makes the map again. -/
theorem Iteration.collect_entries {m : FMap K V} (it : Iteration m) : collect it.entries = m := by
  apply Finmap.ext_lookup
  intro k
  apply Option.ext
  intro v
  rw [← mem_collect_iff it.nodup, it.mem_iff]

end FiniteMaps
