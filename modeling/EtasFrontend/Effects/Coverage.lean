import EtasFrontend.Effects.Row
import EtasFrontend.Types.Assignability

/-! Coverage of effects, and the test that two rows are disjoint. -/
namespace EtasFrontend.Effects
open EtasFrontend.Types Relation

/-- `depth` bounds the recursion of the unifier; a comparison that exceeds it has failed. -/
structure EffectCoverage where
  registry : EffectRegistry
  types : TypeStore
  depth : ℕ

def pathArgContains (allowed actual : List String) : Bool :=
  allowed.length ≤ actual.length && (actual.zip allowed).all fun (actual, allowed) =>
    actual == allowed

def pathArgMatches (allowed actual : List String) : Bool :=
  !allowed.isEmpty && (allowed == actual ||
    (allowed.length ≤ actual.length && (actual.reverse.zip allowed.reverse).all
      fun (actual, allowed) => actual == allowed))

namespace EffectCoverage
variable (coverage : EffectCoverage)

def tagCovers (allowed actual : EffectTagId) : Bool :=
  allowed == actual || coverage.registry.tagExtends actual allowed

def sameType (lhs rhs : TypeId) : Bool :=
  match (TypeRelation.new coverage.types).assignable coverage.depth lhs rhs with
  | some (.ok ()) => true
  | _ => false

def memoryPlaceContains (parent child : TypeId) : Bool :=
  coverage.registry.memoryPlaceContains parent child

def memoryPlaceArgSegments : EffectArgRef → Option (List String)
  | .path segments => some segments
  | .type ty => (coverage.registry.memoryPlace ty).map MemoryPlaceDecl.segments
  | .wildcard | .string _ | .int _ => none

def effectArgCovers : EffectArgRef → EffectArgRef → Bool
  | .wildcard, _ => true
  | .type allowed, .type actual => coverage.sameType allowed actual
  | allowed, actual => allowed == actual

def memoryPlaceArgContains (allowed actual : EffectArgRef) : Bool :=
  match coverage.memoryPlaceArgSegments allowed, coverage.memoryPlaceArgSegments actual with
  | some allowed, some actual => pathArgContains allowed actual
  | _, _ =>
    match allowed, actual with
    | .wildcard, _ => true
    | .type allowed, .type actual => coverage.memoryPlaceContains allowed actual
    | allowed, actual => coverage.effectArgCovers allowed actual

def staticResourcePathArgCovers : EffectArgRef → EffectArgRef → Bool
  | .wildcard, _ => true
  | .path allowed, .path actual => pathArgMatches allowed actual
  | allowed, actual => coverage.effectArgCovers allowed actual

/-- One argument of an action, by the kind its signature gives. -/
def argCovers (kind : Option EffectActionArgKind) (allowed actual : EffectArgRef) : Bool :=
  match kind with
  | some .memoryPlace => coverage.memoryPlaceArgContains allowed actual
  | some (.staticResourcePath _) => coverage.staticResourcePathArgCovers allowed actual
  | _ => coverage.effectArgCovers allowed actual

def argKind (action : ActionRef) (index : ℕ) : Option EffectActionArgKind :=
  (coverage.registry.actionSignature action).bind fun signature => signature.effectArgs[index]?

def appliedActionCovers (allowed actual : ActionInstanceRef) : Bool :=
  if allowed.action ≠ actual.action ∨ allowed.args.length ≠ actual.args.length then false
  else (allowed.args.zip actual.args).zipIdx.all fun (args, index) =>
    coverage.argCovers (coverage.argKind allowed.action index) args.1 args.2

def appliedCovers (allowedTag : EffectTagId) (allowedArgs : List TypeId) (actualTag : EffectTagId)
    (actualArgs : List TypeId) : Bool :=
  if !coverage.tagCovers allowedTag actualTag ∨ allowedArgs.length ≠ actualArgs.length then false
  else
    let pointwise := (allowedArgs.zip actualArgs).all fun (allowed, actual) =>
      coverage.sameType allowed actual
    match allowedArgs, actualArgs with
    | [allowed], [actual] =>
      if coverage.registry.isMemoryTag allowedTag then
        allowedTag == actualTag && coverage.memoryPlaceContains allowed actual
      else pointwise
    | _, _ => pointwise

def covers (allowed actual : Effect) : Bool :=
  match allowed, actual with
  | .tag allowed, .tag actual => coverage.tagCovers allowed actual
  | .action allowed, .action actual => allowed == actual
  | .action allowed, .appliedAction actual => allowed == actual.action
  | .tag allowed, .action actual => coverage.tagCovers allowed actual.tag
  | .tag allowed, .appliedAction actual => coverage.tagCovers allowed actual.action.tag
  | .error allowed, .error actual => coverage.sameType allowed actual
  | .appliedAction allowed, .appliedAction actual => coverage.appliedActionCovers allowed actual
  | .applied allowedTag allowedArgs, .applied actualTag actualArgs =>
    coverage.appliedCovers allowedTag allowedArgs actualTag actualArgs
  | .tag allowed, .applied actual args => args.isEmpty && coverage.tagCovers allowed actual
  | .applied allowedTag [arg], .error actual =>
    allowedTag == errorTag && coverage.sameType arg actual
  | .error allowed, .applied tag [arg] => tag == errorTag && coverage.sameType allowed arg
  | allowed, actual => allowed == actual

/-- The registered tag of a member of a row. -/
def tagOf (effect : Effect) : Option EffectTagId :=
  let tag :=
    match effect with
    | .tag tag | .applied tag _ => some tag
    | .action action => (coverage.registry.actionSignature action).map fun _ => action.tag
    | .appliedAction action =>
      (coverage.registry.actionSignature action.action).map fun _ => action.action.tag
    | .error _ => coverage.registry.tagByCore .error
    | .var _ => none
  tag.bind fun tag => (coverage.registry.tagName tag).map fun _ => tag

def tagsApart (left right : EffectTagId) : Bool :=
  left != right && !coverage.registry.tagExtends left right &&
    !coverage.registry.tagExtends right left

def rowsDisjoint (left right : EffectRow) : Bool :=
  if left.openVar.isSome || right.openVar.isSome then false
  else decide (∀ l ∈ left.effects, (coverage.tagOf l).any (fun l =>
    decide (∀ r ∈ right.effects, (coverage.tagOf r).any (coverage.tagsApart l ·) = true)) = true)

def subtractHandled (body handled : EffectRow) : EffectRow :=
  { body with effects := body.effects.filter fun effect =>
      ¬ ∃ candidate ∈ handled.effects, coverage.covers candidate effect = true }

end EffectCoverage
end EtasFrontend.Effects
