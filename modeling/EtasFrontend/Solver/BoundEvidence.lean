import EtasFrontend.Lib.Explore
import EtasFrontend.Types.Substitution

/-! The evidence that bounds give: the bounds above them, and the specs they entail. -/
namespace EtasFrontend.Solver
open Lib EtasFrontend.Types

/-! Facts of specs, with the fields that are read here. -/

structure SpecSuperBoundFact where
  superSpec : CheckedSpecRef
  args : List TypeId

structure SpecSignature where
  params : List SymbolId
  paramNames : List String
  superSpecs : List SpecSuperBoundFact

structure ExternalSpecIdentity where
  package : ℕ
  path : List String
  deriving DecidableEq

structure ExternalSpecSignatureFact where
  paramNames : List String
  superSpecs : List CheckedSpecBound

structure CanonicalSpecSignatureFact where
  paramNames : List String
  superSpecs : List CheckedSpecBound

structure TypeParamBoundFact where
  specSymbol : SymbolId
  args : List TypeId

structure SpecFacts where
  canonicalSignatures : Map DefinitionKey CanonicalSpecSignatureFact
  externalSignatures : Map ExternalSpecIdentity ExternalSpecSignatureFact
  externalAliases : Map SymbolId ExternalSpecIdentity
  signatures : Map SymbolId SpecSignature
  typeParamBounds : Map SymbolId (List TypeParamBoundFact)
  stdSpecAliases : Map SymbolId (List String)

/-- What is read of the declaration of a spec: a source spec has symbols for its parameters. -/
structure SpecDeclaration where
  names : List String
  parameters : List SymbolId
  supers : List CheckedSpecBound

/-- An error of the substitution stands for its text. -/
inductive EvidenceError where
  | text (message : String)
  | substitution (error : TypeSubstitutionError)
  deriving DecidableEq

namespace SpecFacts
variable (facts : SpecFacts)

def normalize (spec : CheckedSpecRef) : CheckedSpecRef :=
  match spec with
  | .source symbol =>
    match facts.externalAliases.get symbol with
    | some identity => .external identity.package identity.path
    | none =>
      match facts.stdSpecAliases.get symbol with
      | some path => .std path
      | none => .source symbol
  | spec => spec

def normalizeBound (bound : CheckedSpecBound) : CheckedSpecBound :=
  { bound with spec := facts.normalize bound.spec }

/-- Nothing is declared above a spec of the standard library. -/
def declaration (spec : CheckedSpecRef) : Except String (Option SpecDeclaration) :=
  match spec with
  | .source symbol =>
    match facts.signatures.get symbol with
    | some signature => .ok (some ⟨signature.paramNames, signature.params,
        signature.superSpecs.map fun bound => ⟨bound.superSpec, bound.args⟩⟩)
    | none => .error "bound has no checked spec declaration"
  | .external package path =>
    match facts.externalSignatures.get ⟨package, path⟩ with
    | some signature => .ok (some ⟨signature.paramNames, [], signature.superSpecs⟩)
    | none => .error "bound has no checked external spec declaration"
  | .canonical key =>
    match facts.canonicalSignatures.get key with
    | some signature => .ok (some ⟨signature.paramNames, [], signature.superSpecs⟩)
    | none => .error "bound has no canonical spec declaration"
  | .std _ => .ok none

end SpecFacts

/-! Bindings of the parameters of a spec. -/

/-- `portable` is the owner test of the code crate, outside this repository. -/
def canonicalIdentity (portable : GenericOwner → Bool) (owner : DefinitionKey) (index : ℕ) :
    Except String CanonicalTypeParameterIdentity :=
  if owner.kind = .type ∨ owner.kind = .spec ∨ owner.kind = .agent then
    if portable (.declaration owner) then .ok ⟨.declaration owner, index⟩
    else .error "invalid canonical generic owner"
  else .error "type parameter owner is not a type, spec or agent declaration"

def canonicalBinding (portable : GenericOwner → Bool) (owner : DefinitionKey)
    (entry : TypeId × ℕ) : Except String (CanonicalTypeParameterIdentity × TypeId) :=
  if 2 ^ 32 ≤ entry.2 then .error "spec parameter index overflow"
  else
    match canonicalIdentity portable owner entry.2 with
    | .ok identity => .ok (identity, entry.1)
    | .error _ => .error "invalid canonical spec parameter"

def canonicalBindings (portable : GenericOwner → Bool) (bound : CheckedSpecBound) :
    Except String (Map CanonicalTypeParameterIdentity TypeId) :=
  match bound.spec with
  | .canonical owner => (bound.args.zipIdx.mapM (canonicalBinding portable owner)).map Map.ofList
  | _ => .ok ∅

namespace SpecDeclaration
variable (declaration : SpecDeclaration) (args : List TypeId)
  (canonical : Map CanonicalTypeParameterIdentity TypeId)

def namedArguments : Map String TypeId := .ofList (declaration.names.zip args)

def parameterArguments : Map SymbolId TypeId := .ofList (declaration.parameters.zip args)

/-- The engine of `closure`: it has a map of source parameters for every kind of spec. -/
def closureInput : SubstitutionInput :=
  ⟨some (declaration.namedArguments args), some (declaration.parameterArguments args),
    some canonical, none, none, none, none⟩

/-- The engine of `entails`: parameters have names. -/
def entailsInput : SubstitutionInput :=
  ⟨some (declaration.namedArguments args), none, some canonical, none, none, none, none⟩

end SpecDeclaration

variable (store : TypeStore) (facts : SpecFacts) (portable : GenericOwner → Bool)

/-! The bounds above given ones. -/

/-- One engine for all super-specs of a bound. -/
def superBounds (n : ℕ) (bound : CheckedSpecBound) :
    Option (Except EvidenceError (List CheckedSpecBound)) :=
  match facts.declaration bound.spec with
  | .error message => some (.error (.text message))
  | .ok none => some (.ok [])
  | .ok (some declaration) =>
    if declaration.names.length ≠ bound.args.length then
      some (.error (.text "bound evidence has inconsistent generic arity"))
    else
      match canonicalBindings portable bound with
      | .error message => some (.error (.text message))
      | .ok canonical =>
        let substitution := substitute .existing n (declaration.closureInput bound.args canonical)
        let parents : EngineM TypeStore (List CheckedSpecBound) :=
          declaration.supers.mapM fun parent => do
            let args ← parent.args.mapM substitution
            return { parent with args }
        match parents (.fresh store) with
        | none => none
        | some (.error error, _) => some (.error (.substitution error))
        | some (.ok parents, _) => some (.ok parents)

/-- The visited bounds are those of the result. -/
def closure (n : ℕ) (bounds : List CheckedSpecBound) :
    Option (Except EvidenceError (List CheckedSpecBound)) :=
  explore facts.normalizeBound (superBounds store facts portable n) n bounds.reverse []

def typeSame (n : ℕ) (lhs rhs : TypeId) : Option Bool :=
  if lhs = rhs then some true
  else (Unifier.unify store n .new lhs rhs).map fun outcome => outcome.1.isOk

/-- `uppercase` is the test of the standard library. -/
def isSchematicTypeParam (uppercase : Char → Bool) (name : String) : Bool :=
  name.toList.head?.any uppercase

variable (uppercase : Char → Bool)

def argMatches (n : ℕ) (actual expected : TypeId) : Option Bool :=
  (typeSame store n actual expected).map fun same => same ||
    match store.get expected with
    | some (.named name) => name.sourceParameter.isNone &&
        (store.parameterIdentity expected).isNone && isSchematicTypeParam uppercase name.name
    | _ => false

def argsMatch (n : ℕ) (actual expected : List TypeId) : Option Bool :=
  if actual.length ≠ expected.length then some false
  else (actual.zip expected).allM fun pair => argMatches store uppercase n pair.1 pair.2

/-- `satisfied` says whether the arguments of a bound satisfy the bounds of the parameters. The
obligations that are active at the call are active again when it returns. -/
def argumentsValid (satisfied : CheckedSpecBound → Bool) (bound : CheckedSpecBound) : Bool :=
  match bound.spec with
  | .std _ => true
  | _ => satisfied bound

/-- An engine for each argument. -/
def instantiateSupers (n : ℕ) (input : SubstitutionInput) (supers : List CheckedSpecBound) :
    ExceptT TypeSubstitutionError Option (List CheckedSpecBound) :=
  supers.mapM fun parent => do
    let args ← parent.args.mapM fun ty =>
      (substitute .existing n input ty (.fresh store)).map Prod.fst
    return { parent with args }

/-- One turn of `entails`: an answer, or the bounds to go on with. -/
def entailsStep (satisfied : CheckedSpecBound → Bool) (n : ℕ) (target : CheckedSpecRef)
    (expected : List TypeId) (current : CheckedSpecBound) :
    Option (Except Bool (List CheckedSpecBound)) :=
  if !argumentsValid satisfied current then some (.ok [])
  else
    match if current.spec = target then argsMatch store uppercase n current.args expected
      else some false with
    | none => none
    | some true => some (.error true)
    | some false =>
      match facts.declaration current.spec with
      | .error _ => some (.error false)
      | .ok none => some (.ok [])
      | .ok (some declaration) =>
        if declaration.names.length ≠ current.args.length then some (.error false)
        else
          match canonicalBindings portable current with
          | .error _ => some (.error false)
          | .ok canonical =>
            match instantiateSupers store n (declaration.entailsInput current.args canonical)
              declaration.supers with
            | none => none
            | some (.error _) => some (.error false)
            | some (.ok parents) => some (.ok parents)

def entails (satisfied : CheckedSpecBound → Bool) (n : ℕ) (current : CheckedSpecBound)
    (target : CheckedSpecRef) (expected : List TypeId) : Option Bool :=
  (explore facts.normalizeBound
    (entailsStep store facts portable uppercase satisfied n (facts.normalize target) expected) n
    [current] []).map fun result =>
      match result with
      | .error answer => answer
      | .ok _ => false

end EtasFrontend.Solver
