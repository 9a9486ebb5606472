import EtasFrontend.Analysis.Hir
import EtasFrontend.Effects.Coverage

/-! Whether the branches of a task scope may run at the same time. -/
namespace EtasFrontend.Concurrency
open Analysis Effects EtasFrontend.Types

def memoryTag : EffectTagId := 4

def memoryReadAction : EffectActionId := 0

inductive TaskBranchShape where
  | explicitStart | tupleElement | arrayElement | mapperInvocation | dynamic
  deriving DecidableEq

/-- The effects and actions of a branch, in the order of their sets. -/
structure BranchFact where
  taskSite : Analysis.HirExprId
  effects : List Effect
  actions : List Effect
  shape : TaskBranchShape

structure ResourceConflict where
  leftTask : Analysis.HirExprId
  rightTask : Analysis.HirExprId
  left : Effect
  right : Effect
  deriving DecidableEq

structure ResourceGuardPlan where
  conflicts : List ResourceConflict
  deriving DecidableEq

inductive SchedulingDecision where
  | concurrent
  | serialize
  | runtimeGuard (plan : ResourceGuardPlan)
  | reject
  deriving DecidableEq

inductive PairConflict where
  | disjoint
  | known
  | guard (conflict : ResourceConflict)

inductive EffectConflict where
  | disjoint | known | guard

inductive SelectorRelation where
  | disjoint | overlap | dynamic

variable (registry : EffectRegistry)

def selectorRelation : EffectArgRef → EffectArgRef → SelectorRelation
  | .wildcard, _ => .dynamic
  | _, .wildcard => .dynamic
  | .path left, .path right =>
    if right.isPrefixOf left || left.isPrefixOf right then .overlap else .disjoint
  | .string left, .string right => if left = right then .overlap else .disjoint
  | .int left, .int right => if left = right then .overlap else .disjoint
  | .type left, .type right =>
    if left == right || registry.memoryPlaceContains left right ||
        registry.memoryPlaceContains right left then .overlap
    else if (registry.memoryPlace left).isSome && (registry.memoryPlace right).isSome then .disjoint
    else .dynamic
  | _, _ => .dynamic

/-- The arguments that select a resource; those of a type do not. -/
def resourceSelectors (kinds : List EffectActionArgKind) (args : List EffectArgRef) :
    List EffectArgRef :=
  (kinds.zip args).filterMap fun (kind, argument) => if kind = .type then none else some argument

/-- One disjoint pair of selectors keeps two accesses apart. -/
def selectorsConflict : List (EffectArgRef × EffectArgRef) → Bool → EffectConflict
  | [], dynamic => if dynamic then .guard else .known
  | pair :: pairs, dynamic =>
    match selectorRelation registry pair.1 pair.2 with
    | .disjoint => .disjoint
    | .overlap => selectorsConflict pairs dynamic
    | .dynamic => selectorsConflict pairs true

def resourcesConflict (left right : List EffectArgRef) : EffectConflict :=
  if left.isEmpty || right.isEmpty then .known
  else if left.length ≠ right.length then .known
  else selectorsConflict registry (left.zip right) false

def actionConflict (left : ActionRef) (leftArgs : Option (List EffectArgRef)) (right : ActionRef)
    (rightArgs : Option (List EffectArgRef)) : EffectConflict :=
  if left.tag ≠ right.tag then .disjoint
  else if left.tag = errorTag then .disjoint
  else if left.tag = memoryTag ∧ left.action = memoryReadAction ∧
      right.action = memoryReadAction then .disjoint
  else if left.tag = memoryTag then .guard
  else
    match leftArgs, rightArgs with
    | some leftArgs, some rightArgs =>
      match registry.actionSignature left, registry.actionSignature right with
      | some leftSignature, some rightSignature =>
        resourcesConflict registry (resourceSelectors leftSignature.effectArgs leftArgs)
          (resourceSelectors rightSignature.effectArgs rightArgs)
      | _, _ => .known
    | _, _ => .known

def effectConflict : Effect → Effect → EffectConflict
  | .action left, .action right => actionConflict registry left none right none
  | .action left, .appliedAction right =>
    actionConflict registry left none right.action (some right.args)
  | .appliedAction left, .action right =>
    actionConflict registry left.action (some left.args) right none
  | .appliedAction left, .appliedAction right =>
    actionConflict registry left.action (some left.args) right.action (some right.args)
  | .tag left, .tag right => if left = right then .known else .disjoint
  | .tag left, .applied right _ => if left = right then .known else .disjoint
  | .applied left _, .tag right => if left = right then .known else .disjoint
  | .applied left args, .applied right other =>
    if left = right then (if args = other then .known else .guard) else .disjoint
  -- a typed error is selected by the combinator of the tasks, not by a lock
  | .error _, .error _ => .disjoint
  | .var _, _ => .known
  | _, .var _ => .known
  | _, _ => .disjoint

def BranchFact.members (branch : BranchFact) : List Effect := branch.actions ++ branch.effects

/-- The loop over the pairs of members; the first pair to guard is kept. -/
def scanMembers (left right : BranchFact) :
    List (Effect × Effect) → Option ResourceConflict → PairConflict
  | [], none => .disjoint
  | [], some conflict => .guard conflict
  | pair :: pairs, found =>
    match effectConflict registry pair.1 pair.2 with
    | .disjoint => scanMembers left right pairs found
    | .known => .known
    | .guard => scanMembers left right pairs
      (found.or (some ⟨left.taskSite, right.taskSite, pair.1, pair.2⟩))

def branchConflict (left right : BranchFact) : PairConflict :=
  scanMembers registry left right
    (left.members.flatMap fun l => right.members.map fun r => (l, r)) none

/-- The branches that one is compared with; `none` where a conflict is known. -/
def scanBranches (left : BranchFact) :
    List BranchFact → List ResourceConflict → Option (List ResourceConflict)
  | [], guards => some guards
  | right :: rest, guards =>
    match branchConflict registry left right with
    | .disjoint => scanBranches left rest guards
    | .known => none
    | .guard conflict => scanBranches left rest (guards ++ [conflict])

def scheduleLoop : List BranchFact → List ResourceConflict → SchedulingDecision
  | [], guards => if guards.isEmpty then .concurrent else .runtimeGuard ⟨guards⟩
  | left :: rest, guards =>
    -- a mapper runs once for each element, so it is also compared with itself
    match scanBranches registry left
        (rest ++ if left.shape = .mapperInvocation then [left] else []) guards with
    | none => .serialize
    | some guards => scheduleLoop rest guards

def schedulingDecision (branches : List BranchFact) (incomplete : Bool) : SchedulingDecision :=
  if incomplete then .serialize else scheduleLoop registry branches []

end EtasFrontend.Concurrency
