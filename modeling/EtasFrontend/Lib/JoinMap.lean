import EtasFrontend.Lib.Map

/-! Joining one finite map into another, entry by entry, with a flag that says whether a value
changed. A missing entry counts as the bottom value for the flag. -/
namespace EtasFrontend.Lib

variable {κ ν : Type} [DecidableEq κ]

namespace Map

/-- Replaces the entry of each key of `right` by its image; `image` gets the old entry. -/
def mergeEntries (image : Option ν → ν → ν) (left right : Map κ ν) : Map κ ν :=
  right.toList.foldl (fun m e => m.insert e.1 (image (m.get e.1) e.2)) left

private theorem get_foldl_merge (image : Option ν → ν → ν) (entries : List (κ × ν))
    (hd : (entries.map Prod.fst).Nodup) (left : Map κ ν) (k : κ) :
    (entries.foldl (fun m e => m.insert e.1 (image (m.get e.1) e.2)) left).get k =
      match (entries.find? fun e => e.1 = k).map Prod.snd with
      | some v => some (image (left.get k) v)
      | none => left.get k := by
  induction entries generalizing left with
  | nil => rfl
  | cons e entries ih =>
    obtain ⟨hnew, hd⟩ := List.nodup_cons.mp (List.map_cons ▸ hd)
    rw [List.foldl_cons, ih hd]
    by_cases he : e.1 = k
    · have hlast : entries.find? (fun e => decide (e.1 = k)) = none := by
        rw [List.find?_eq_none]
        intro e' he' hk
        rw [decide_eq_true_iff] at hk
        exact hnew (List.mem_map.mpr ⟨e', he', hk.trans he.symm⟩)
      rw [hlast, ← he]
      simp
    · simp [he, get_insert_ne _ (Ne.symm he)]

omit [DecidableEq κ] in
private theorem nodup_keys_toList (m : Map κ ν) : (m.toList.map Prod.fst).Nodup := by
  have h : m.entries.keys.Nodup := m.nodupKeys
  simpa [toList, List.keys, Function.comp_def] using h

private theorem find?_toList (m : Map κ ν) (k : κ) :
    (m.toList.find? fun e => e.1 = k).map Prod.snd = m.get k := by
  cases hf : m.toList.find? fun e => decide (e.1 = k) with
  | some e =>
    have hk : e.1 = k := by simpa using List.find?_some hf
    have hmem : (k, e.2) ∈ m.toList := hk ▸ List.mem_of_find?_eq_some hf
    rw [Option.map_some, mem_toList.mp hmem]
  | none =>
    cases hget : m.get k with
    | none => rfl
    | some v =>
      have := List.find?_eq_none.mp hf (k, v) (mem_toList.mpr hget)
      simp at this

theorem get_mergeEntries (image : Option ν → ν → ν) (left right : Map κ ν) (k : κ) :
    (mergeEntries image left right).get k =
      match right.get k with
      | some v => some (image (left.get k) v)
      | none => left.get k := by
  unfold mergeEntries
  rw [get_foldl_merge image _ (nodup_keys_toList right), find?_toList]

/-- The join of two maps under a join of values with a bottom, and whether a value changed. -/
def joinEntries [DecidableEq ν] (join : ν → ν → ν) (bottom : ν) (left right : Map κ ν) :
    Map κ ν × Bool :=
  right.toList.foldl (fun (m, changed) e =>
    let old := (m.get e.1).getD bottom
    let next := join old e.2
    (m.insert e.1 next, changed || next != old)) (left, false)

variable [DecidableEq ν] (join : ν → ν → ν) (bottom : ν)

private theorem foldl_joinEntries (entries : List (κ × ν)) (left : Map κ ν) (changed : Bool) :
    (entries.foldl (fun (m, changed) e =>
      let old := (m.get e.1).getD bottom
      let next := join old e.2
      (m.insert e.1 next, changed || next != old)) (left, changed)).1 =
    entries.foldl (fun m e => m.insert e.1 (join ((m.get e.1).getD bottom) e.2)) left := by
  induction entries generalizing left changed with
  | nil => rfl
  | cons e entries ih =>
    rw [List.foldl_cons, List.foldl_cons]
    exact ih _ _

theorem get_joinEntries (left right : Map κ ν) (k : κ) :
    (joinEntries join bottom left right).1.get k =
      match right.get k with
      | some v => some (join ((left.get k).getD bottom) v)
      | none => left.get k := by
  unfold joinEntries
  rw [foldl_joinEntries]
  exact get_mergeEntries (fun old v => join (old.getD bottom) v) left right k

private theorem foldl_joinEntries_changed (entries : List (κ × ν))
    (hd : (entries.map Prod.fst).Nodup) (left : Map κ ν) (changed : Bool) :
    (entries.foldl (fun (m, changed) e =>
      let old := (m.get e.1).getD bottom
      let next := join old e.2
      (m.insert e.1 next, changed || next != old)) (left, changed)).2 =
    (changed || entries.any fun e =>
      join ((left.get e.1).getD bottom) e.2 != (left.get e.1).getD bottom) := by
  induction entries generalizing left changed with
  | nil => simp
  | cons e entries ih =>
    obtain ⟨hnew, hd⟩ := List.nodup_cons.mp (List.map_cons ▸ hd)
    rw [List.foldl_cons, List.any_cons]
    dsimp only
    rw [ih hd, Bool.or_assoc]
    congr 2
    -- the later entries have other keys
    have hsame : ∀ e' ∈ entries, (left.insert e.1 (join ((left.get e.1).getD bottom) e.2)).get e'.1 =
        left.get e'.1 := by
      intro e' he'
      have hne : e'.1 ≠ e.1 := fun h => hnew (List.mem_map.mpr ⟨e', he', h⟩)
      exact get_insert_ne _ hne _
    rw [Bool.eq_iff_iff, List.any_eq_true, List.any_eq_true]
    constructor
    · intro ⟨e', he', h⟩
      exact ⟨e', he', hsame e' he' ▸ h⟩
    · intro ⟨e', he', h⟩
      exact ⟨e', he', (hsame e' he').symm ▸ h⟩

/-- The flag says whether a value changed, where a missing entry counts as bottom. -/
theorem joinEntries_unchanged_iff (left right : Map κ ν) :
    (joinEntries join bottom left right).2 = false ↔
      ∀ k, ((joinEntries join bottom left right).1.get k).getD bottom =
        (left.get k).getD bottom := by
  have hflag : (joinEntries join bottom left right).2 = right.toList.any fun e =>
      join ((left.get e.1).getD bottom) e.2 != (left.get e.1).getD bottom := by
    unfold joinEntries
    rw [foldl_joinEntries_changed join bottom _ (nodup_keys_toList right), Bool.false_or]
  rw [hflag, List.any_eq_false]
  constructor
  · intro h k
    rw [get_joinEntries]
    cases hr : right.get k with
    | none => rfl
    | some v =>
      have := h (k, v) (mem_toList.mpr hr)
      simpa using this
  · intro h e he
    have := h e.1
    rw [get_joinEntries, mem_toList.mp he] at this
    simpa using this

end Map
end EtasFrontend.Lib
