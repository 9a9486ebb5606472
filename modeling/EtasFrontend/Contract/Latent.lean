import EtasFrontend.Lib.Map
import EtasFrontend.Types.Ty
import Mathlib.Data.Finset.Sort

/-! Latent behaviour in the output of a callable contract. -/
namespace EtasFrontend.Contract
open Lib EtasFrontend.Types

abbrev TypeInfoRef := ℕ
abbrev GenericParameterRef := ℕ

/-! Descriptors of types. -/

inductive BuiltinTypeInfo where
  | externalToolHandle
  | callableDefinition
  | other (name : String)

structure FieldInfo where
  name : String
  ty : TypeInfoRef

inductive VariantPayloadInfo where
  | none
  | positional (fields : List TypeInfoRef)
  | named (fields : List FieldInfo)

structure VariantInfo where
  payload : VariantPayloadInfo

structure SpecBoundInfo where
  arguments : List TypeInfoRef

structure SignatureInfo where
  output : TypeInfoRef

inductive TypeInfo where
  | existential (bounds : List SpecBoundInfo)
  | builtin (constructor : BuiltinTypeInfo) (arguments : List TypeInfoRef)
  | tuple (elements : List TypeInfoRef)
  | record (fields : List FieldInfo)
  | nominal (definition : DefinitionKey) (parameters : List GenericParameterRef)
    (representation : Option TypeInfoRef)
  | «alias» (definition : DefinitionKey) (parameters : List GenericParameterRef)
    (target : TypeInfoRef)
  | enum (definition : DefinitionKey) (parameters : List GenericParameterRef)
    (variants : List VariantInfo)
  | applied (constructor : TypeInfoRef) (arguments : List TypeInfoRef)
  | task (output : TypeInfoRef)
  | primitive (primitive : PrimitiveType)
  | parameter (parameter : GenericParameterRef)
  | function (signature : SignatureInfo)
  | handler

structure DescriptorGraph where
  types : List TypeInfo

def DescriptorGraph.typeInfo (graph : DescriptorGraph) (ref : TypeInfoRef) : Option TypeInfo :=
  graph.types[ref]?

inductive ProjectionError where
  | invalid (reason : String)
  deriving DecidableEq

structure Latent where
  intrinsic : Bool
  parameters : Finset GenericParameterRef
  deriving DecidableEq

namespace Latent

def default : Latent := ⟨false, ∅⟩

def join (latent other : Latent) : Latent :=
  ⟨latent.intrinsic || other.intrinsic, latent.parameters ∪ other.parameters⟩

end Latent

def VariantPayloadInfo.children : VariantPayloadInfo → List TypeInfoRef
  | .none => []
  | .positional fields => fields
  | .named fields => fields.map FieldInfo.ty

def TypeInfo.children : TypeInfo → List TypeInfoRef
  | .existential bounds => bounds.flatMap SpecBoundInfo.arguments
  | .builtin _ arguments | .tuple arguments => arguments
  | .record fields => fields.map FieldInfo.ty
  | .nominal _ _ representation => representation.toList
  | .alias _ _ target => [target]
  | .enum _ _ variants => variants.flatMap fun variant => variant.payload.children
  | .applied constructor arguments => constructor :: arguments
  | .task output => [output]
  | .primitive _ | .parameter _ | .function _ | .handler => []

/-- The parameters of a generic declaration. -/
def TypeInfo.genericParameters : TypeInfo → Option (List GenericParameterRef)
  | .nominal _ parameters _ | .enum _ parameters _ | .alias _ parameters _ => some parameters
  | _ => none

def TypeInfo.isAgent : TypeInfo → Bool
  | .nominal definition _ _ => definition.kind == .agent
  | _ => false

def TypeInfo.isExternalToolHandle : TypeInfo → Bool
  | .builtin .externalToolHandle _ => true
  | _ => false

abbrev LatentStates := Map TypeInfoRef Latent

def lookup (states : LatentStates) (ty : TypeInfoRef) : Except ProjectionError Latent :=
  match states.get ty with
  | some latent => .ok latent
  | none => .error (.invalid "latent type dependency is absent")

def joinLookup (states : LatentStates) (result : Latent) (ty : TypeInfoRef) :
    Except ProjectionError Latent := do
  let latent ← lookup states ty
  return result.join latent

/-- A parameter of the constructor stands for its argument, if it is one of the declaration. -/
def applyParameter (states : LatentStates) (parameters : List GenericParameterRef)
    (arguments : List TypeInfoRef) (result : Latent) (parameter : GenericParameterRef) :
    Except ProjectionError Latent :=
  match arguments[parameters.idxOf parameter]? with
  | some argument => joinLookup states result argument
  | none => .ok { result with parameters := insert parameter result.parameters }

namespace DescriptorGraph
variable (graph : DescriptorGraph)

def transfer (node : TypeInfo) (states : LatentStates) : Except ProjectionError Latent :=
  match node with
  | .function _ | .handler | .existential _ => .ok { Latent.default with intrinsic := true }
  | .parameter parameter => .ok { Latent.default with parameters := {parameter} }
  | .applied constructor arguments =>
    match (graph.typeInfo constructor).bind TypeInfo.genericParameters with
    | none => .error (.invalid "applied output has no generic declaration")
    | some parameters =>
      if parameters.length ≠ arguments.length then
        .error (.invalid "applied output has inconsistent generic arity")
      else do
        let constructor ← lookup states constructor
        (constructor.parameters.sort (· ≤ ·)).foldlM (applyParameter states parameters arguments)
          { Latent.default with intrinsic := constructor.intrinsic }
  | _ => node.children.foldlM (joinLookup states)
      { Latent.default with intrinsic := node.isAgent || node.isExternalToolHandle }

abbrev Dependents := Map TypeInfoRef (List TypeInfoRef)

def addDependent (ty : TypeInfoRef) (dependents : Dependents) (child : TypeInfoRef) : Dependents :=
  dependents.insert child ((dependents.get child).getD [] ++ [ty])

/-- The loop that collects the types below the output. The top of the stack is its head. -/
def discover : ℕ → List TypeInfoRef → LatentStates → Dependents →
    Option (Except ProjectionError (LatentStates × Dependents))
  | _, [], states, dependents => some (.ok (states, dependents))
  | 0, _ :: _, _, _ => none
  | n + 1, ty :: pending, states, dependents =>
    if (states.get ty).isSome then discover n pending states dependents
    else
      match graph.typeInfo ty with
      | none => some (.error (.invalid "contract output has a missing type descriptor"))
      | some node => discover n (node.children.reverse ++ pending)
          (states.insert ty .default) (node.children.foldl (addDependent ty) dependents)

/-- The loop to the fixed point, with a queue. -/
def propagate (dependents : Dependents) : ℕ → LatentStates → List TypeInfoRef →
    Option (Except ProjectionError LatentStates)
  | _, states, [] => some (.ok states)
  | 0, _, _ :: _ => none
  | n + 1, states, ty :: pending =>
    match graph.typeInfo ty with
    | none => some (.error (.invalid "contract output has a missing type descriptor"))
    | some node =>
      match graph.transfer node states with
      | .error error => some (.error error)
      | .ok state =>
        if states.get ty = some state then propagate dependents n states pending
        else propagate dependents n (states.insert ty state)
          (pending ++ (dependents.get ty).getD [])

/-- `keys` is the order in which a map is iterated; `n` bounds the rounds of each loop. -/
def latentOutput (keys : LatentStates → List TypeInfoRef) (n : ℕ) (signature : TypeInfoRef) :
    Option (Except ProjectionError Latent) :=
  match graph.typeInfo signature with
  | some (.function signature) => do
    match ← graph.discover n [signature.output] ∅ ∅ with
    | .error error => return .error error
    | .ok (states, dependents) =>
      match ← graph.propagate dependents n states (keys states) with
      | .error error => return .error error
      | .ok states =>
        match states.get signature.output with
        | some result => return .ok result
        | none => return .error (.invalid "contract output has no latent classification")
  | _ => some (.error (.invalid "contract has no callable signature"))

end DescriptorGraph
end EtasFrontend.Contract
