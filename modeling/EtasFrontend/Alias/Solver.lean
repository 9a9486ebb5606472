import EtasFrontend.Alias.Domain
import EtasFrontend.Lib.UnionFind
import Mathlib.Data.Finset.Union

/-! The three solvers of alias constraints. -/
namespace EtasFrontend.Alias
open Lib
open Hir (HirExprId SymbolId)

inductive AliasVar where
  | symbol (symbol : SymbolId)
  | expr (expr : HirExprId)
  | place (place : Place)
  | «return» (unit : HirSemanticUnit)
  | synthetic (index : ℕ)
  deriving DecidableEq

inductive AliasConstraint where
  | addrOf (dst : AliasVar) (target : Place)
  | copy (dst src : AliasVar)
  | load (dst src : AliasVar)
  | store (dst src : AliasVar)
  | project (dst base : AliasVar) (projection : Projection)
  | call (dst : Option AliasVar) (callee : AliasVar) (args : List AliasVar) (site : HirExprId)

structure AliasSolution where
  values : Map AliasVar AliasValue
  incomplete : Bool

namespace AliasSolution

def value (solution : AliasSolution) (var : AliasVar) : AliasValue :=
  (solution.values.get var).getD .bottom

end AliasSolution

/-- `entry(var).or_default().join_with_limit(value)` -/
def joinEntry (values : Map AliasVar AliasValue) (var : AliasVar) (value : AliasValue)
    (limit : ℕ) : Map AliasVar AliasValue :=
  values.insert var (((values.get var).getD .bottom).joinWithLimit value limit)

namespace Inclusion

structure State where
  values : Map AliasVar AliasValue
  incomplete : Bool

variable (config : AliasPrecisionConfig)

def value (state : State) (var : AliasVar) : AliasValue := (state.values.get var).getD .bottom

/-- The state after a join, and whether it changed a value. -/
def joinVar (state : State) (var : AliasVar) (value : AliasValue) : State × Bool :=
  let old := Inclusion.value state var
  ({ state with values := joinEntry state.values var value config.maxAliasSetSize },
    old.joinWithLimit value config.maxAliasSetSize ≠ old)

def applyConstraint (state : State) : AliasConstraint → State × Bool
  | .addrOf dst target => joinVar config state dst (.fromPlace target)
  | .copy dst src | .load dst src | .store dst src => joinVar config state dst (value state src)
  | .project dst base projection =>
    joinVar config state dst ((value state base).project projection config)
  | .call dst _ _ _ =>
    let state := { state with incomplete := true }
    match dst with
    | some dst => joinVar config state dst .unknown
    | none => (state, false)

/-- `changed |= self.apply_constraint(constraint)` -/
def step (progress : State × Bool) (constraint : AliasConstraint) : State × Bool :=
  let (state, now) := applyConstraint config progress.1 constraint
  (state, progress.2 || now)

def pass (constraints : List AliasConstraint) (state : State) : State × Bool :=
  constraints.foldl (step config) (state, false)

/-- The passes, with the number of those that are left. -/
def passes (constraints : List AliasConstraint) : ℕ → State → State
  | 0, state => { state with incomplete := true }
  | n + 1, state =>
    let (state, changed) := pass config constraints state
    if changed then passes constraints n state
    else if n = 0 then { state with incomplete := true }
    else state

def seed (state : State) (entry : AliasVar × AliasValue) : State :=
  (joinVar config state entry.1 entry.2).1

def solve (seeds : List (AliasVar × AliasValue)) (constraints : List AliasConstraint) :
    AliasSolution :=
  let state := seeds.foldl (seed config) ⟨∅, false⟩
  let state := passes config constraints config.maxFixpointIterations state
  ⟨state.values, state.incomplete⟩

end Inclusion

namespace Unification

structure State where
  parent : Map AliasVar AliasVar
  values : Map AliasVar AliasValue
  incomplete : Bool

section
variable (config : AliasPrecisionConfig)

def find (state : State) (var : AliasVar) : Option (AliasVar × State) := do
  let (root, parent) ← UnionFind.find state.parent var
  return (root, { state with parent })

def value (state : State) (var : AliasVar) : Option (AliasValue × State) := do
  let (root, state) ← find state var
  return ((state.values.get root).getD .bottom, state)

def seed (state : State) (entry : AliasVar × AliasValue) : Option State := do
  let (root, state) ← find state entry.1
  return { state with values := joinEntry state.values root entry.2 config.maxAliasSetSize }

variable (le : AliasVar → AliasVar → Bool)

/-- Two roots become one. The order of the variables decides which one stays. -/
def unite (state : State) (leftRoot rightRoot : AliasVar) : State :=
  let value := (state.values.get leftRoot).getD .bottom
  let values := state.values.remove leftRoot
  let value :=
    match values.get rightRoot with
    | some rightValue => value.joinWithLimit rightValue config.maxAliasSetSize
    | none => value
  let values := values.remove rightRoot
  let (root, other) := if le leftRoot rightRoot then (leftRoot, rightRoot)
    else (rightRoot, leftRoot)
  { state with parent := state.parent.insert other root, values := values.insert root value }

def union (state : State) (left right : AliasVar) : Option State := do
  let (leftRoot, state) ← find state left
  let (rightRoot, state) ← find state right
  if leftRoot = rightRoot then return state
  return unite config le state leftRoot rightRoot

def applyConstraint (state : State) : AliasConstraint → Option State
  | .addrOf dst target => seed config state (dst, .fromPlace target)
  | .copy dst src | .load dst src | .store dst src => union config le state dst src
  | .project dst base projection => do
    let (value, state) ← value state base
    seed config state (dst, value.project projection config)
  | .call dst _ _ _ =>
    let state := { state with incomplete := true }
    match dst with
    | some dst => seed config state (dst, .unknown)
    | none => some state

/-- One entry for each variable. -/
def collect (state : State) : List AliasVar → Map AliasVar AliasValue →
    Option (Map AliasVar AliasValue)
  | [], values => some values
  | var :: vars, values => do
    let (value, state) ← value state var
    collect state vars (values.insert var value)

def solve (seeds : List (AliasVar × AliasValue)) (constraints : List AliasConstraint) :
    Option AliasSolution := do
  let state ← seeds.foldlM (seed config) ⟨∅, ∅, false⟩
  let state ← constraints.foldlM (applyConstraint config le) state
  let vars := (state.parent.keys ++ state.values.keys).dedup.mergeSort le
  return ⟨← collect state vars ∅, state.incomplete⟩

end
end Unification

namespace Hybrid

def placeRequiresInclusion (place : Place)
    (inclusionForResources inclusionForPublicApi : Bool) : Bool :=
  match place.root with
  | .resourceHandle _ | .memoryPlace _ => inclusionForResources
  | .param .. | .return _ | .topLevel _ | .allocationKind .. | .captured .. =>
    inclusionForPublicApi
  | .symbol _ | .allocation .. | .external | .unknown => false

def constraintPlaces : AliasConstraint → List Place
  | .addrOf _ target => [target]
  | _ => []

def constraintVars : AliasConstraint → List AliasVar
  | .addrOf dst _ => [dst]
  | .copy dst src | .load dst src | .store dst src => [dst, src]
  | .project dst base _ => [dst, base]
  | .call dst callee args _ => dst.toList ++ callee :: args

variable (config : AliasPrecisionConfig)

def placeRequiresInclusionForConfig (place : Place) : Bool :=
  match config.constraintModel with
  | .hybrid _ inclusionForResources inclusionForPublicApi =>
    placeRequiresInclusion place inclusionForResources inclusionForPublicApi
  | .inclusionBased => true
  | .unificationBased => false

def valueRequiresInclusion (value : AliasValue) : Bool :=
  match value.may with
  | .bottom => false
  | .unknown => true
  | .known places => decide (∃ place ∈ places, placeRequiresInclusionForConfig config place = true)

/-- The constraint names a place or a variable that is for the inclusion solver. -/
def touchesInclusion (vars : Finset AliasVar) (constraint : AliasConstraint) : Bool :=
  (constraintPlaces constraint).any (placeRequiresInclusionForConfig config) ||
    (constraintVars constraint).any (decide <| · ∈ vars)

def propagateStep (vars : Finset AliasVar) (constraint : AliasConstraint) : Finset AliasVar :=
  if touchesInclusion config vars constraint then vars ∪ (constraintVars constraint).toFinset
  else vars

def propagatePass (constraints : List AliasConstraint) (vars : Finset AliasVar) : Finset AliasVar :=
  constraints.foldl (propagateStep config) vars

/-- The passes until one adds no variable. -/
def propagate (constraints : List AliasConstraint) : ℕ → Finset AliasVar → Option (Finset AliasVar)
  | 0, _ => none
  | n + 1, vars =>
    let next := propagatePass config constraints vars
    if next = vars then some vars else propagate constraints n next

/-- Each pass but the last one adds a variable of the constraints. -/
def propagateInclusionVars (constraints : List AliasConstraint) (vars : Finset AliasVar) :
    Option (Finset AliasVar) :=
  propagate config constraints ((constraints.flatMap constraintVars).length + 1) vars

def usesInclusion (vars : Finset AliasVar) (constraint : AliasConstraint) : Bool :=
  match config.constraintModel with
  | .hybrid preUnifyLocals _ _ =>
    if preUnifyLocals then touchesInclusion config vars constraint else true
  | .inclusionBased => true
  | .unificationBased => false

def seedVars (seeds : List (AliasVar × AliasValue)) : Finset AliasVar :=
  ((seeds.filter (valueRequiresInclusion config ·.2)).map Prod.fst).toFinset

def joinOne (values : Map AliasVar AliasValue) (entry : AliasVar × AliasValue) :
    Map AliasVar AliasValue :=
  joinEntry values entry.1 entry.2 config.maxAliasSetSize

def joinValues (values other : Map AliasVar AliasValue) : Map AliasVar AliasValue :=
  other.toList.foldl (joinOne config) values

def solve (le : AliasVar → AliasVar → Bool) (seeds : List (AliasVar × AliasValue))
    (constraints : List AliasConstraint) : Option AliasSolution := do
  let vars ← propagateInclusionVars config constraints (seedVars config seeds)
  let inclusion := Inclusion.solve config seeds (constraints.filter (usesInclusion config vars))
  let unification ← Unification.solve config le seeds
    (constraints.filter (!usesInclusion config vars ·))
  return ⟨joinValues config inclusion.values unification.values,
    inclusion.incomplete || unification.incomplete⟩

end Hybrid

/-- The solver that the configuration asks for. -/
def AliasConstraintFrame.solve (config : AliasPrecisionConfig) (le : AliasVar → AliasVar → Bool)
    (seeds : List (AliasVar × AliasValue)) (constraints : List AliasConstraint) :
    Option AliasSolution :=
  match config.constraintModel with
  | .inclusionBased => some (Inclusion.solve config seeds constraints)
  | .unificationBased => Unification.solve config le seeds constraints
  | .hybrid .. => Hybrid.solve config le seeds constraints

end EtasFrontend.Alias
