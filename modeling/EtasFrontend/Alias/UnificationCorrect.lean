import EtasFrontend.Alias.InclusionCorrect

/-! The unification solver as a machine over classes of variables: each class has a root and a set
of places. -/
namespace EtasFrontend.Alias
open Lib
open Lib.UnionFind (Forest linkRoot)

structure Classes where
  root : AliasVar → AliasVar
  may : AliasVar → AliasSet

namespace Classes

def start : Classes := ⟨id, fun _ => .bottom⟩

/-- A set joins a class. -/
def join (classes : Classes) (var : AliasVar) (set : AliasSet) (limit : ℕ) : Classes where
  root := classes.root
  may other :=
    if classes.root other = classes.root var then (classes.may other).joinWithLimit set limit
    else classes.may other

variable (config : AliasPrecisionConfig) (le : AliasVar → AliasVar → Bool)

/-- Two classes become one, below the smaller root. -/
def merge (classes : Classes) (left right : AliasVar) : Classes :=
  let leftRoot := classes.root left
  let rightRoot := classes.root right
  if leftRoot = rightRoot then classes
  else
    { root := if le leftRoot rightRoot then linkRoot classes.root leftRoot rightRoot
        else linkRoot classes.root rightRoot leftRoot
      may := fun var =>
        if classes.root var = leftRoot ∨ classes.root var = rightRoot then
          (classes.may left).joinWithLimit (classes.may right) config.maxAliasSetSize
        else classes.may var }

def seed (classes : Classes) (entry : AliasVar × AliasValue) : Classes :=
  classes.join entry.1 entry.2.may config.maxAliasSetSize

def apply (classes : Classes) : AliasConstraint → Classes
  | .addrOf dst target => classes.join dst (.known {target}) config.maxAliasSetSize
  | .copy dst src | .load dst src | .store dst src => classes.merge config le dst src
  | .project dst base projection =>
    classes.join dst ((classes.may base).project projection config) config.maxAliasSetSize
  | .call dst _ _ _ =>
    match dst with
    | some dst => classes.join dst .unknown config.maxAliasSetSize
    | none => classes

def run (seeds : List (AliasVar × AliasValue)) (constraints : List AliasConstraint) : Classes :=
  constraints.foldl (apply config le) (seeds.foldl (seed config) start)

end Classes

namespace Unification
variable {config : AliasPrecisionConfig} {le : AliasVar → AliasVar → Bool} {state : State}
  {classes : Classes}

/-- The parents lead to the roots, where the sets are. -/
structure Represents (state : State) (classes : Classes) : Prop where
  forest : ∃ rank, Forest state.parent classes.root rank
  may : ∀ var, classes.may var = ((state.values.get (classes.root var)).getD .bottom).may

namespace Represents

theorem start : Represents ⟨∅, ∅, false⟩ .start := ⟨⟨_, .empty⟩, fun _ => rfl⟩

theorem find (h : Represents state classes) (var : AliasVar) :
    ∃ state', Unification.find state var = some (classes.root var, state') ∧
      Represents state' classes ∧ state'.values = state.values ∧
      state'.incomplete = state.incomplete ∧
      ∀ other, (∃ up, state'.parent.get other = some up) ↔
        other = classes.root var ∨ other = var ∨ ∃ up, state.parent.get other = some up := by
  obtain ⟨rank, hforest⟩ := h.forest
  obtain ⟨parent, hfind, found⟩ := hforest.find_eq var
  refine ⟨{ state with parent }, by rw [Unification.find, hfind]; rfl, ⟨⟨rank, found.forest⟩, h.may⟩,
    rfl, rfl, fun other => ?_⟩
  dsimp only
  constructor
  · exact fun hother => Or.inr ((found.keys other).mp hother)
  · rintro (rfl | hother)
    · exact ⟨_, found.top⟩
    · exact (found.keys other).mpr hother

theorem value (h : Represents state classes) (var : AliasVar) :
    ∃ new state', Unification.value state var = some (new, state') ∧ new.may = classes.may var ∧
      Represents state' classes ∧ state'.values = state.values ∧
      state'.incomplete = state.incomplete := by
  obtain ⟨state', hfind, hrep, hvalues, hincomplete, -⟩ := h.find var
  refine ⟨(state'.values.get (classes.root var)).getD .bottom, state', ?_, (hrep.may var).symm,
    hrep, hvalues, hincomplete⟩
  rw [Unification.value, hfind]
  rfl

theorem seed (config : AliasPrecisionConfig) (h : Represents state classes) (var : AliasVar)
    (new : AliasValue) :
    ∃ state', Unification.seed config state (var, new) = some state' ∧
      Represents state' (classes.join var new.may config.maxAliasSetSize) ∧
      state'.incomplete = state.incomplete := by
  obtain ⟨state', hfind, hrep, hvalues, hincomplete, -⟩ := h.find var
  refine ⟨{ state' with
      values := joinEntry state'.values (classes.root var) new config.maxAliasSetSize }, ?_,
    ⟨hrep.forest, fun other => ?_⟩, hincomplete⟩
  · rw [Unification.seed, hfind]
    rfl
  · dsimp only [Classes.join]
    rw [getD_joinEntry]
    split
    · rw [AliasValue.joinWithLimit_may, ← hrep.may]
    · exact hrep.may other

theorem unite_value {leftRoot rightRoot : AliasVar} (hne : leftRoot ≠ rightRoot)
    (var : AliasVar) :
    (((unite config le state leftRoot rightRoot).values.get var).getD .bottom).may =
      if var = (if le leftRoot rightRoot then leftRoot else rightRoot) then
        AliasSet.joinWithLimit ((state.values.get leftRoot).getD .bottom).may
          ((state.values.get rightRoot).getD .bottom).may config.maxAliasSetSize
      else if var = leftRoot ∨ var = rightRoot then .bottom
      else ((state.values.get var).getD .bottom).may := by
  have hmerged : ∃ value : AliasValue,
      value.may = AliasSet.joinWithLimit ((state.values.get leftRoot).getD .bottom).may
        ((state.values.get rightRoot).getD .bottom).may config.maxAliasSetSize ∧
      (unite config le state leftRoot rightRoot).values =
        ((state.values.remove leftRoot).remove rightRoot).insert
          (if le leftRoot rightRoot then leftRoot else rightRoot) value := by
    have hget : (state.values.remove leftRoot).get rightRoot = state.values.get rightRoot := by
      rw [Map.get_remove, if_neg hne.symm]
    simp only [unite, hget]
    cases state.values.get rightRoot with
    | none => exact ⟨_, (AliasSet.join_bottom _).symm, by split <;> rfl⟩
    | some value => exact ⟨_, rfl, by split <;> rfl⟩
  obtain ⟨merged, hmay, hvalues⟩ := hmerged
  have hrest (root : AliasVar) (value : AliasValue) :
      (((((state.values.remove leftRoot).remove rightRoot).insert root value).get var).getD
        .bottom).may = if var = root then value.may else if var = leftRoot ∨ var = rightRoot
          then .bottom else ((state.values.get var).getD .bottom).may := by
    rw [Map.get_insert, Map.get_remove, Map.get_remove]
    by_cases hroot : var = root
    · rw [if_pos hroot, if_pos hroot]
      rfl
    rw [if_neg hroot, if_neg hroot]
    by_cases hleft : var = leftRoot <;> by_cases hright : var = rightRoot <;>
      simp [hleft, hright, AliasValue.bottom]
  rw [hvalues, hrest, hmay]

theorem union (h : Represents state classes) (left right : AliasVar) :
    ∃ state', Unification.union config le state left right = some state' ∧
      Represents state' (classes.merge config le left right) ∧
      state'.incomplete = state.incomplete := by
  obtain ⟨state₁, hleft, hrep₁, hvalues₁, hincomplete₁, hkeys₁⟩ := h.find left
  obtain ⟨state₂, hright, hrep₂, hvalues₂, hincomplete₂, hkeys₂⟩ := hrep₁.find right
  rw [Unification.union, hleft, Option.bind_eq_bind, Option.bind_some]
  dsimp only
  rw [hright, Option.bind_some]
  unfold Classes.merge
  dsimp only
  split
  case isTrue heq =>
    exact ⟨state₂, rfl, hrep₂, hincomplete₂.trans hincomplete₁⟩
  case isFalse hne =>
    obtain ⟨rank, hforest⟩ := hrep₂.forest
    have top {key : AliasVar} (hroot : classes.root key = key)
        (hkey : ∃ up, state₂.parent.get key = some up) : state₂.parent.get key = some key := by
      obtain ⟨up, hup⟩ := hkey
      rw [hup, hforest.eq_of_root hup hroot]
    have htopLeft := top (hforest.root_root left)
      ((hkeys₂ _).mpr (Or.inr (Or.inr ((hkeys₁ _).mpr (Or.inl rfl)))))
    have htopRight := top (hforest.root_root right) ((hkeys₂ _).mpr (Or.inl rfl))
    refine ⟨unite config le state₂ (classes.root left) (classes.root right), rfl, ?_,
      hincomplete₂.trans hincomplete₁⟩
    have hleftMay := hrep₂.may left
    have hrightMay := hrep₂.may right
    cases hle : le (classes.root left) (classes.root right) with
    | true =>
      refine ⟨?_, fun var => ?_⟩
      · simp only [unite, hle, if_true]
        exact ⟨_, hforest.link htopLeft htopRight hne⟩
      · rw [unite_value hne, hle, ← hleftMay, ← hrightMay]
        simp only [if_true, linkRoot]
        by_cases hvarRight : classes.root var = classes.root right
        · simp [hvarRight]
        · by_cases hvarLeft : classes.root var = classes.root left
          · simp [hvarLeft, hne]
          · simp [hvarLeft, hvarRight, hrep₂.may var]
    | false =>
      refine ⟨?_, fun var => ?_⟩
      · simp only [unite, hle, Bool.false_eq_true, if_false]
        exact ⟨_, hforest.link htopRight htopLeft (Ne.symm hne)⟩
      · rw [unite_value hne, hle, ← hleftMay, ← hrightMay]
        simp only [Bool.false_eq_true, if_false, linkRoot]
        by_cases hvarLeft : classes.root var = classes.root left
        · simp [hvarLeft]
        · by_cases hvarRight : classes.root var = classes.root right
          · simp [hvarRight, Ne.symm hne]
          · simp [hvarLeft, hvarRight, hrep₂.may var]

theorem apply (config : AliasPrecisionConfig) (le : AliasVar → AliasVar → Bool)
    (h : Represents state classes) (constraint : AliasConstraint) :
    ∃ state', applyConstraint config le state constraint = some state' ∧
      Represents state' (classes.apply config le constraint) ∧
      state'.incomplete = (state.incomplete || constraint.isCall) := by
  have join (state : State) (h : Represents state classes) (dst : AliasVar) (new : AliasValue) :
      ∃ state', Unification.seed config state (dst, new) = some state' ∧
        Represents state' (classes.join dst new.may config.maxAliasSetSize) ∧
        state'.incomplete = (state.incomplete || false) := by
    rw [Bool.or_false]
    exact h.seed config dst new
  have merge (dst src : AliasVar) :
      ∃ state', Unification.union config le state dst src = some state' ∧
        Represents state' (classes.merge config le dst src) ∧
        state'.incomplete = (state.incomplete || false) := by
    rw [Bool.or_false]
    exact h.union dst src
  cases constraint with
  | addrOf dst target => exact join state h dst (.fromPlace target)
  | copy dst src => exact merge dst src
  | load dst src => exact merge dst src
  | store dst src => exact merge dst src
  | project dst base projection =>
    obtain ⟨new, state', hvalue, hmay, hrep, -, hincomplete⟩ := h.value base
    rw [applyConstraint, hvalue, Option.bind_eq_bind, Option.bind_some]
    dsimp only [Classes.apply]
    rw [← hmay, ← AliasValue.project_may, ← hincomplete]
    exact join state' hrep dst (new.project projection config)
  | call dst callee args site =>
    have hrep : Represents { state with incomplete := true } classes := ⟨h.forest, h.may⟩
    rw [AliasConstraint.isCall, Bool.or_true]
    cases dst with
    | none => exact ⟨_, rfl, hrep, rfl⟩
    | some dst => exact hrep.seed config dst .unknown

theorem foldlM_apply (config : AliasPrecisionConfig) (le : AliasVar → AliasVar → Bool)
    (h : Represents state classes) (constraints : List AliasConstraint) :
    ∃ state', constraints.foldlM (applyConstraint config le) state = some state' ∧
      Represents state' (constraints.foldl (Classes.apply config le) classes) ∧
      state'.incomplete = (state.incomplete || constraints.any (·.isCall)) := by
  induction constraints generalizing state classes with
  | nil => exact ⟨state, rfl, h, (Bool.or_false _).symm⟩
  | cons constraint constraints ih =>
    obtain ⟨next, hnext, hrep, hincomplete⟩ := h.apply config le constraint
    obtain ⟨state', hstate, hrep', hincomplete'⟩ := ih hrep
    refine ⟨state', ?_, hrep', ?_⟩
    · rw [List.foldlM_cons, hnext]
      exact hstate
    · rw [hincomplete', hincomplete, List.any_cons, Bool.or_assoc]

theorem foldlM_seed (config : AliasPrecisionConfig) (h : Represents state classes)
    (seeds : List (AliasVar × AliasValue)) :
    ∃ state', seeds.foldlM (Unification.seed config) state = some state' ∧
      Represents state' (seeds.foldl (Classes.seed config) classes) ∧
      state'.incomplete = state.incomplete := by
  induction seeds generalizing state classes with
  | nil => exact ⟨state, rfl, h, rfl⟩
  | cons entry seeds ih =>
    obtain ⟨next, hnext, hrep, hincomplete⟩ := h.seed config entry.1 entry.2
    obtain ⟨state', hstate, hrep', hincomplete'⟩ := ih hrep
    refine ⟨state', ?_, hrep', hincomplete'.trans hincomplete⟩
    rw [List.foldlM_cons, hnext]
    exact hstate

theorem collect (h : Represents state classes) (vars : List AliasVar)
    (values : Map AliasVar AliasValue) :
    ∃ values', Unification.collect state vars values = some values' ∧
      ∀ var, ((values'.get var).getD .bottom).may =
        if var ∈ vars then classes.may var else ((values.get var).getD .bottom).may := by
  induction vars generalizing state values with
  | nil => exact ⟨values, rfl, fun var => (if_neg List.not_mem_nil).symm⟩
  | cons first vars ih =>
    obtain ⟨new, state', hvalue, hmay, hrep, -, -⟩ := h.value first
    obtain ⟨values', hcollect, hvalues'⟩ := ih hrep (values.insert first new)
    refine ⟨values', ?_, fun var => ?_⟩
    · rw [Unification.collect, hvalue]
      exact hcollect
    · rw [hvalues' var, Map.get_insert]
      by_cases hmem : var ∈ vars
      · rw [if_pos hmem, if_pos (List.mem_cons_of_mem _ hmem)]
      by_cases heq : var = first
      · rw [if_neg hmem, if_pos heq, if_pos (by rw [heq]; exact List.mem_cons_self), heq]
        exact hmay
      · rw [if_neg hmem, if_neg heq, if_neg (List.not_mem_cons_of_ne_of_not_mem heq hmem)]

theorem may_of_unknown (h : Represents state classes) {var : AliasVar}
    (hparent : var ∉ state.parent.keys) (hvalues : var ∉ state.values.keys) :
    classes.may var = .bottom := by
  obtain ⟨rank, hforest⟩ := h.forest
  have hroot : classes.root var = var := by
    refine hforest.absent (AList.lookup_eq_none.mpr ?_)
    rwa [AList.mem_keys]
  have hnone : state.values.get var = none := by
    refine AList.lookup_eq_none.mpr ?_
    rwa [AList.mem_keys]
  rw [h.may, hroot, hnone]
  rfl

end Represents

theorem solve_eq (config : AliasPrecisionConfig) (le : AliasVar → AliasVar → Bool)
    (seeds : List (AliasVar × AliasValue)) (constraints : List AliasConstraint) :
    ∃ solution, solve config le seeds constraints = some solution ∧
      solution.may = (Classes.run config le seeds constraints).may ∧
      solution.incomplete = constraints.any (·.isCall) := by
  obtain ⟨seeded, hseeded, hrep, hincomplete⟩ := Represents.start.foldlM_seed config seeds
  obtain ⟨final, hfinal, hrep', hincomplete'⟩ :=
    hrep.foldlM_apply config le constraints
  obtain ⟨values, hvalues, hget⟩ :=
    hrep'.collect ((final.parent.keys ++ final.values.keys).dedup.mergeSort le) ∅
  refine ⟨⟨values, final.incomplete⟩, ?_, ?_, ?_⟩
  · rw [solve, hseeded, Option.bind_eq_bind, Option.bind_some, hfinal, Option.bind_eq_bind,
      Option.bind_some]
    dsimp only
    rw [hvalues]
    rfl
  · funext var
    refine (hget var).trans ?_
    split
    · rfl
    case isFalse hvar =>
      rw [List.mem_mergeSort, List.mem_dedup, List.mem_append, not_or] at hvar
      exact (hrep'.may_of_unknown hvar.1 hvar.2).symm
  · rw [hincomplete', hincomplete, Bool.false_or]

end Unification
end EtasFrontend.Alias
