import Mathlib.Data.List.AList
import Mathlib.Data.List.Sort

/-! Finite maps as association lists with distinct keys, with the operations a hash or
tree map offers. Every lemma is stated through `get`. -/
namespace EtasFrontend.Lib

/-- A finite map. The order of the entries is not observable through `get`. -/
abbrev Map (κ ν : Type) := AList (fun _ : κ => ν)

namespace Map
variable {κ ν : Type} [DecidableEq κ]

def get (m : Map κ ν) (k : κ) : Option ν := AList.lookup k m

def insert (m : Map κ ν) (k : κ) (v : ν) : Map κ ν := AList.insert k v m

def remove (m : Map κ ν) (k : κ) : Map κ ν := AList.erase k m

/-- `entry(k).or_insert(v)`: an existing entry is kept. -/
def orInsert (m : Map κ ν) (k : κ) (v : ν) : Map κ ν :=
  match m.get k with
  | some _ => m
  | none => m.insert k v

/-- `extend`: the entries of `other` replace those of `m`. -/
def extend (m other : Map κ ν) : Map κ ν := AList.union other m

/-- `values_mut`: every value is replaced by its image. -/
def mapValues {ν' : Type} (m : Map κ ν) (f : ν → ν') : Map κ ν' :=
  ⟨m.entries.map fun e => ⟨e.1, f e.2⟩, by
    have h : m.entries.keys.Nodup := m.nodupKeys
    change (List.keys _).Nodup
    simpa [List.keys, Function.comp_def] using h⟩

def toList (m : Map κ ν) : List (κ × ν) := m.entries.map fun e => (e.1, e.2)

/-- `collect`: a later entry replaces an earlier one with the same key. -/
def ofList (l : List (κ × ν)) : Map κ ν := l.foldl (fun m e => m.insert e.1 e.2) ∅

/-- The values in the order of their keys. -/
def values [LinearOrder κ] (m : Map κ ν) : List ν :=
  (m.toList.insertionSort fun a b => a.1 ≤ b.1).map Prod.snd

@[simp] theorem get_empty (k : κ) : (∅ : Map κ ν).get k = none := rfl

section
variable (m : Map κ ν)

theorem get_insert (k k' : κ) (v : ν) :
    (m.insert k v).get k' = if k' = k then some v else m.get k' := by
  unfold get insert
  split_ifs with h
  · subst h
    exact AList.lookup_insert m
  · exact AList.lookup_insert_ne h

@[simp] theorem get_insert_self (k : κ) (v : ν) : (m.insert k v).get k = some v := by
  simp [get_insert]

theorem get_insert_ne {k k' : κ} (h : k' ≠ k) (v : ν) : (m.insert k v).get k' = m.get k' := by
  simp [get_insert, h]

theorem get_remove (k k' : κ) : (m.remove k).get k' = if k' = k then none else m.get k' := by
  unfold get remove
  split_ifs with h
  · subst h
    exact AList.lookup_erase _ m
  · exact AList.lookup_erase_ne h

theorem get_foldl_remove (ks : List κ) (k : κ) :
    (ks.foldl remove m).get k = if k ∈ ks then none else m.get k := by
  induction ks generalizing m with
  | nil => simp
  | cons k' ks ih =>
    rw [List.foldl_cons, ih, get_remove]
    by_cases hk : k = k'
    · simp [hk]
    · simp [hk]

theorem get_orInsert (k k' : κ) (v : ν) :
    (m.orInsert k v).get k' = (m.get k').or (if k' = k then some v else none) := by
  unfold orInsert
  cases h : m.get k with
  | none =>
    by_cases hk : k' = k
    · subst hk
      simp [h]
    · simp [get_insert, hk]
  | some w =>
    by_cases hk : k' = k
    · subst hk
      simp [h]
    · simp [hk]

end

theorem get_extend (m other : Map κ ν) (k : κ) :
    (m.extend other).get k = (other.get k).or (m.get k) := by
  unfold get extend
  change AList.lookup k (other ∪ m) = _
  by_cases h : k ∈ other
  · rw [AList.lookup_union_left h]
    obtain ⟨v, hv⟩ := Option.isSome_iff_exists.mp (AList.lookup_isSome.mpr h)
    simp [hv]
  · rw [AList.lookup_union_right h, AList.lookup_eq_none.mpr h]
    rfl

theorem get_mapValues {ν' : Type} (m : Map κ ν) (f : ν → ν') (k : κ) :
    (m.mapValues f).get k = (m.get k).map f := by
  change List.dlookup k (m.entries.map fun e => (⟨e.1, f e.2⟩ : Sigma fun _ : κ => ν')) =
    (List.dlookup k m.entries).map f
  induction m.entries with
  | nil => rfl
  | cons e l ih =>
    obtain ⟨k', v⟩ := e
    rw [List.map_cons]
    by_cases he : k = k'
    · subst he
      rw [List.dlookup_cons_eq, List.dlookup_cons_eq, Option.map_some]
    · rw [List.dlookup_cons_ne l (⟨k', v⟩ : Sigma fun _ : κ => ν) he]
      exact (List.dlookup_cons_ne _ (⟨k', f v⟩ : Sigma fun _ : κ => ν') he).trans ih

variable {k : κ} {v : ν}

theorem mem_toList {m : Map κ ν} : (k, v) ∈ m.toList ↔ m.get k = some v := by
  unfold toList get
  rw [← Option.mem_def, AList.mem_lookup_iff]
  constructor
  · intro h
    obtain ⟨e, he, hkv⟩ := List.mem_map.mp h
    cases hkv
    exact he
  · intro h
    exact List.mem_map.mpr ⟨⟨k, v⟩, h, rfl⟩

theorem exists_get_of_mem_values {κ : Type} [LinearOrder κ] {m : Map κ ν}
    (h : v ∈ m.values) : ∃ k, m.get k = some v := by
  obtain ⟨⟨k, w⟩, he, rfl⟩ := List.mem_map.mp h
  exact ⟨k, mem_toList.mp ((List.mem_insertionSort _).mp he)⟩

omit [DecidableEq κ] in
theorem nodup_toList (m : Map κ ν) : m.toList.Nodup := by
  refine m.nodupKeys.nodup.map fun a b h => ?_
  rw [Prod.ext_iff] at h
  exact Sigma.ext h.1 (heq_of_eq h.2)

private theorem get_foldl_insert (l : List (κ × ν)) (m : Map κ ν) (k : κ) :
    (l.foldl (fun m e => m.insert e.1 e.2) m).get k =
      ((l.reverse.find? fun e => e.1 = k).map Prod.snd).or (m.get k) := by
  induction l generalizing m with
  | nil => rfl
  | cons e l ih =>
    rw [List.foldl_cons, ih, get_insert, List.reverse_cons, List.find?_append]
    cases hl : l.reverse.find? fun e => decide (e.1 = k) with
    | some f => simp
    | none =>
      by_cases hk : k = e.1
      · simp [hk]
      · simp [hk, Ne.symm hk]

variable {l : List (κ × ν)}

/-- With distinct values of the key, `collect` finds exactly the listed entries. -/
theorem get_ofList_eq_some (h : (ofList l).get k = some v) : (k, v) ∈ l := by
  rw [ofList, get_foldl_insert, get_empty, Option.or_none, Option.map_eq_some_iff] at h
  obtain ⟨⟨k', v'⟩, hf, rfl⟩ := h
  have hk : k' = k := by simpa using List.find?_some hf
  subst hk
  exact List.mem_reverse.mp (List.mem_of_find?_eq_some hf)

theorem get_ofList_isSome (h : (k, v) ∈ l) : ((ofList l).get k).isSome := by
  rw [ofList, get_foldl_insert, get_empty, Option.or_none, Option.isSome_map, List.find?_isSome]
  exact ⟨(k, v), List.mem_reverse.mpr h, by simp⟩

theorem get_ofList_of_unique (h : (k, v) ∈ l) (hu : ∀ w, (k, w) ∈ l → w = v) :
    (ofList l).get k = some v := by
  obtain ⟨w, hw⟩ := Option.isSome_iff_exists.mp (get_ofList_isSome h)
  rw [hw, hu w (get_ofList_eq_some hw)]

theorem mem_keys_ofList : k ∈ (ofList l).keys ↔ ∃ v, (k, v) ∈ l := by
  rw [← AList.mem_keys, ← AList.lookup_isSome]
  constructor
  · intro h
    obtain ⟨v, hv⟩ := Option.isSome_iff_exists.mp h
    exact ⟨v, get_ofList_eq_some hv⟩
  · rintro ⟨v, hv⟩
    exact get_ofList_isSome hv

/-- The entry of one key among the entries of some keys. -/
theorem findSome?_toList {β : Type} (m : Map κ ν) (p : κ → Bool) (k : κ) (f : ν → β) :
    (m.toList.filter (p ·.1)).findSome? (fun e => if e.1 = k then some (f e.2) else none) =
      if p k then (m.get k).map f else none := by
  have hentry : ∀ e ∈ m.toList.filter (p ·.1), ∀ b,
      (if e.1 = k then some (f e.2) else none) = some b →
        p k ∧ (m.get k).map f = some b := by
    intro e he b hb
    obtain ⟨hmem, hp⟩ := List.mem_filter.mp he
    split_ifs at hb with hk
    rw [hk] at hp
    have hget : m.get k = some e.2 := by
      rw [← hk]
      exact mem_toList.mp hmem
    rw [hget, Option.map_some, hb]
    exact ⟨hp, rfl⟩
  cases hfind : (m.toList.filter (p ·.1)).findSome?
      fun e => if e.1 = k then some (f e.2) else none with
  | some b =>
    obtain ⟨e, he, hb⟩ := List.exists_of_findSome?_eq_some hfind
    obtain ⟨hp, hget⟩ := hentry e he b hb
    rw [if_pos hp, hget]
  | none =>
    split_ifs with hp
    · cases hget : m.get k with
      | none => rfl
      | some v =>
        have hmem : (k, v) ∈ m.toList.filter (p ·.1) :=
          List.mem_filter.mpr ⟨mem_toList.mpr hget, hp⟩
        have hnone := List.findSome?_eq_none_iff.mp hfind (k, v) hmem
        simp at hnone
    · rfl

end Map
end EtasFrontend.Lib
