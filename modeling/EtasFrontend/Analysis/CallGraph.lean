import EtasFrontend.Lib.Map

/-! The graph of the calls between units, with its edges kept in both directions. -/
namespace EtasFrontend.Analysis
open Lib

variable {U : Type} [LinearOrder U]

/-- `BTreeSet::insert`. -/
def insertSorted (unit : U) (units : List U) : List U :=
  if units.contains unit then units else units.orderedInsert (· ≤ ·) unit

theorem mem_insertSorted {unit other : U} {units : List U} :
    other ∈ insertSorted unit units ↔ other = unit ∨ other ∈ units := by
  unfold insertSorted
  split
  next h =>
    have hmem : unit ∈ units := List.contains_iff_mem.mp h
    constructor
    · exact Or.inr
    · rintro (rfl | hother)
      · exact hmem
      · exact hother
  next => exact List.mem_orderedInsert (· ≤ ·)

/-- A map from units to sets of units. -/
abbrev UnitSets (U : Type) := Map U (List U)

namespace UnitSets

/-- The set of a unit, in order. -/
def of (sets : UnitSets U) (unit : U) : List U := (sets.get unit).getD []

/-- `entry(unit).or_default().insert(other)`. -/
def add (sets : UnitSets U) (unit other : U) : UnitSets U :=
  sets.insert unit (insertSorted other (sets.of unit))

theorem of_orInsert (sets : UnitSets U) (unit other : U) :
    of (sets.orInsert unit []) other = sets.of other := by
  unfold of
  rw [Map.get_orInsert]
  cases sets.get other with
  | some units => rfl
  | none =>
    dsimp only [Option.none_or]
    split <;> rfl

variable {sets : UnitSets U}

theorem mem_of_add {unit other unit' other' : U} :
    other' ∈ of (sets.add unit other) unit' ↔
      other' ∈ sets.of unit' ∨ unit' = unit ∧ other' = other := by
  unfold add
  rw [of, Map.get_insert]
  split_ifs with h
  · subst h
    rw [Option.getD_some, mem_insertSorted]
    tauto
  · constructor
    · exact Or.inl
    · rintro (hmem | ⟨heq, _⟩)
      · exact hmem
      · exact absurd heq h

theorem isSome_orInsert {unit other : U} :
    (Map.get (sets.orInsert unit []) other).isSome ↔ (sets.get other).isSome ∨ other = unit := by
  rw [Map.get_orInsert, Option.isSome_or]
  by_cases h : other = unit <;> simp [h]

theorem isSome_add {unit other unit' : U} :
    (Map.get (sets.add unit other) unit').isSome ↔ (sets.get unit').isSome ∨ unit' = unit := by
  rw [add, Map.get_insert]
  by_cases h : unit' = unit <;> simp [h]

end UnitSets

/-- Each edge is in both maps, and its ends are units of the graph. -/
structure CallGraph (U : Type) [LinearOrder U] where
  dependencySets : UnitSets U
  dependentSets : UnitSets U
  inverse : ∀ caller callee, callee ∈ dependencySets.of caller ↔ caller ∈ dependentSets.of callee
  closed : ∀ caller callee, callee ∈ dependencySets.of caller →
    (dependencySets.get caller).isSome ∧ (dependencySets.get callee).isSome

namespace CallGraph

def new : CallGraph U where
  dependencySets := ∅
  dependentSets := ∅
  inverse _ _ := ⟨nofun, nofun⟩
  closed _ _ := nofun

def addUnit (graph : CallGraph U) (unit : U) : CallGraph U where
  dependencySets := graph.dependencySets.orInsert unit []
  dependentSets := graph.dependentSets.orInsert unit []
  inverse caller callee := by
    rw [UnitSets.of_orInsert, UnitSets.of_orInsert]
    exact graph.inverse caller callee
  closed caller callee h := by
    rw [UnitSets.of_orInsert] at h
    have hclosed := graph.closed caller callee h
    rw [UnitSets.isSome_orInsert, UnitSets.isSome_orInsert]
    exact ⟨Or.inl hclosed.1, Or.inl hclosed.2⟩

def addCall (graph : CallGraph U) (caller callee : U) : CallGraph U where
  dependencySets := ((graph.addUnit caller).addUnit callee).dependencySets.add caller callee
  dependentSets := ((graph.addUnit caller).addUnit callee).dependentSets.add callee caller
  inverse caller' callee' := by
    rw [UnitSets.mem_of_add, UnitSets.mem_of_add,
      ((graph.addUnit caller).addUnit callee).inverse caller' callee', and_comm]
  closed caller' callee' h := by
    rw [UnitSets.isSome_add, UnitSets.isSome_add]
    rcases UnitSets.mem_of_add.mp h with hold | ⟨rfl, rfl⟩
    · have hclosed := ((graph.addUnit caller).addUnit callee).closed caller' callee' hold
      exact ⟨Or.inl hclosed.1, Or.inl hclosed.2⟩
    · exact ⟨Or.inr rfl, Or.inl (UnitSets.isSome_orInsert.mpr (Or.inr rfl))⟩

/-- The keys of a tree map are in order. -/
def units (graph : CallGraph U) : List U :=
  (graph.dependencySets.toList.map Prod.fst).insertionSort (· ≤ ·)

def dependencies (graph : CallGraph U) (unit : U) : List U := graph.dependencySets.of unit

def dependents (graph : CallGraph U) (unit : U) : List U := graph.dependentSets.of unit

variable {graph : CallGraph U} {caller callee : U}

theorem mem_dependents : caller ∈ graph.dependents callee ↔ callee ∈ graph.dependencies caller :=
  (graph.inverse caller callee).symm

theorem mem_units {unit : U} : unit ∈ graph.units ↔ (graph.dependencySets.get unit).isSome := by
  unfold units
  rw [List.mem_insertionSort, List.mem_map, Option.isSome_iff_exists]
  constructor
  · rintro ⟨⟨unit', callees⟩, hmem, rfl⟩
    exact ⟨callees, Map.mem_toList.mp hmem⟩
  · rintro ⟨callees, hget⟩
    exact ⟨(unit, callees), Map.mem_toList.mpr hget, rfl⟩

theorem nodup_units (graph : CallGraph U) : graph.units.Nodup := by
  unfold units
  rw [(List.perm_insertionSort _ _).nodup_iff]
  have hkeys : graph.dependencySets.entries.keys.Nodup := graph.dependencySets.nodupKeys
  simpa [Map.toList, List.keys, Function.comp_def] using hkeys

theorem dependency_mem_units (h : callee ∈ graph.dependencies caller) : callee ∈ graph.units :=
  mem_units.mpr (graph.closed caller callee h).2

theorem caller_mem_units (h : callee ∈ graph.dependencies caller) : caller ∈ graph.units :=
  mem_units.mpr (graph.closed caller callee h).1

/-! Graphs only grow while the calls are collected. -/

/-- Every unit and edge of the first graph is in the second. -/
def Le (graph graph' : CallGraph U) : Prop :=
  (∀ unit ∈ graph.units, unit ∈ graph'.units) ∧
    ∀ caller, ∀ callee ∈ graph.dependencies caller, callee ∈ graph'.dependencies caller

theorem Le.refl (graph : CallGraph U) : graph.Le graph :=
  ⟨fun _ h => h, fun _ _ h => h⟩

theorem Le.trans {a b c : CallGraph U} (h : a.Le b) (h' : b.Le c) : a.Le c :=
  ⟨fun unit hu => h'.1 unit (h.1 unit hu),
    fun caller callee hc => h'.2 caller callee (h.2 caller callee hc)⟩

theorem mem_units_addUnit {unit other : U} :
    other ∈ (graph.addUnit unit).units ↔ other ∈ graph.units ∨ other = unit := by
  rw [mem_units, mem_units]
  exact UnitSets.isSome_orInsert

theorem dependencies_addUnit (graph : CallGraph U) (unit caller : U) :
    (graph.addUnit unit).dependencies caller = graph.dependencies caller :=
  UnitSets.of_orInsert _ _ _

theorem mem_dependencies_addCall {caller callee caller' callee' : U} :
    callee' ∈ (graph.addCall caller callee).dependencies caller' ↔
      callee' ∈ graph.dependencies caller' ∨ caller' = caller ∧ callee' = callee := by
  rw [dependencies, addCall, UnitSets.mem_of_add]
  change callee' ∈ ((graph.addUnit caller).addUnit callee).dependencies caller' ∨ _ ↔ _
  rw [dependencies_addUnit, dependencies_addUnit]

theorem le_addCall (graph : CallGraph U) (caller callee : U) :
    graph.Le (graph.addCall caller callee) := by
  constructor
  · intro unit h
    rw [mem_units]
    apply UnitSets.isSome_add.mpr
    apply Or.inl
    rw [← mem_units, mem_units_addUnit, mem_units_addUnit]
    exact Or.inl (Or.inl h)
  · intro caller' callee' h
    exact mem_dependencies_addCall.mpr (Or.inl h)

theorem foldl_le {α : Type} {f : CallGraph U → α → CallGraph U}
    (hf : ∀ graph a, Le graph (f graph a)) (l : List α) (graph : CallGraph U) :
    graph.Le (l.foldl f graph) := by
  induction l generalizing graph with
  | nil => exact Le.refl graph
  | cons a l ih => exact (hf graph a).trans (ih (f graph a))

end CallGraph
end EtasFrontend.Analysis
