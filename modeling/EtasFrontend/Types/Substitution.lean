import EtasFrontend.Types.Unifier
import Mathlib.Data.Finset.Card

/-! The substitution engine: a walk with an explicit stack, a memo table and the set of types it is
inside of, over a type universe that is extended or only read. `none` means that the recursion
bound was too small. -/
namespace EtasFrontend.Types
open Lib

inductive TypeSubstitutionError where
  | missingType (ty : TypeId)
  | cyclicType (ty : TypeId)
  | cyclicEffectRow (name : String)
  | unmaterializedType (ty : Ty)
  | expansionDepth (limit : ℕ)
  deriving DecidableEq

inductive EffectRowSubstitution where
  | arguments (rows : Map String EffectRowRef)
  | equations (rows : Map String EffectRowRef)

/-- The inputs of an engine. An absent map replaces nothing. -/
structure SubstitutionInput where
  named : Option (Map String TypeId)
  parameters : Option (Map SymbolId TypeId)
  canonicalParameters : Option (Map CanonicalTypeParameterIdentity TypeId)
  vars : Option Substitution
  typeParameters : Option (Map TypeId TypeId)
  effectRows : Option EffectRowSubstitution
  expansionDepth : Option ℕ

/-- What the engine reads types from, and what it does with a node it has built. -/
structure SubstitutionTarget (T : Type) where
  inputStore : T → TypeStore
  place : T → Ty → Except TypeSubstitutionError TypeId × T

namespace SubstitutionTarget

/-- `Materialize`: new nodes are interned. -/
def materialize : SubstitutionTarget TypeInterner where
  inputStore interner := interner.store
  place interner specialized := (.ok (interner.intern specialized).1, (interner.intern specialized).2)

/-- `Existing`: the first id that holds the node. -/
def existing : SubstitutionTarget TypeStore where
  inputStore store := store
  place store specialized :=
    match (store.allTypes.zipIdx.find? fun e => e.1 == specialized) with
    | some (_, id) => (.ok id, store)
    | none => (.error (.unmaterializedType specialized), store)

end SubstitutionTarget

/-- The mutable part of an engine. -/
structure Engine (T : Type) where
  target : T
  active : Finset TypeId
  memo : Map TypeId TypeId
  memoDepths : Map TypeId ℕ

def Engine.fresh {T : Type} (target : T) : Engine T := ⟨target, ∅, ∅, ∅⟩

/-- The same universe with empty tables. -/
def Engine.inner {T : Type} (engine : Engine T) : Engine T := .fresh engine.target

def Engine.memoized {T : Type} (engine : Engine T) (ty : TypeId) :
    Except TypeSubstitutionError TypeId :=
  match engine.memo.get ty with
  | some specialized => .ok specialized
  | none => .error (.missingType ty)

/-- A computation of the engine: its state survives an error. -/
abbrev EngineM (T α : Type) := ExceptT TypeSubstitutionError (StateT (Engine T) Option) α

namespace SubstitutionInput

def materializing (named : Map String TypeId) (vars : Option Substitution) : SubstitutionInput :=
  ⟨some named, none, none, vars, none, none, none⟩

/-- What is left inside of an argument: only solver variables are global. -/
def onlyVariables (σ : SubstitutionInput) : SubstitutionInput :=
  { σ with
    named := none, parameters := none, canonicalParameters := none, typeParameters := none
    effectRows := none }

def replacement (σ : SubstitutionInput) (store : TypeStore) (id : TypeId) (ty : Ty) :
    Option TypeId :=
  match σ.typeParameters.bind (·.get id) with
  | some replacement => some replacement
  | none =>
    match store.parameterIdentity id with
    | some identity => σ.canonicalParameters.bind (·.get identity)
    | none =>
      match ty with
      | .named name =>
        match σ.parameters with
        | some parameters => name.sourceParameter.bind parameters.get
        | none => σ.named.bind (·.get name.name)
      | .var var => σ.vars.bind (·.get var)
      | _ => none

/-- A replacement other than the type itself. -/
def target (σ : SubstitutionInput) (store : TypeStore) (id : TypeId) (ty : Ty) : Option TypeId :=
  (σ.replacement store id ty).filter (· != id)

end SubstitutionInput

structure ExpandedRow where
  row : EffectRowRef
  argumentStart : Option ℕ

/-- Follow equations of the tail. Every turn visits a new key, so a bound above their number is
not met. -/
def expandEquations (equations : Map String EffectRowRef) (limit : Option ℕ) (active : ℕ) :
    ℕ → List String → EffectRowRef → Except TypeSubstitutionError EffectRowRef
  | 0, _, row => .ok row
  | n + 1, visited, row =>
    match row.tail with
    | none => .ok row
    | some tail =>
      match equations.get tail with
      | none => .ok row
      | some binding =>
        if binding.effects.isEmpty && binding.tail == some tail then .ok row
        else if tail ∈ visited then .error (.cyclicEffectRow tail)
        else
          match limit.filter fun limit => limit < active + (visited.length + 1) with
          | some limit => .error (.expansionDepth limit)
          | none => expandEquations equations limit active n (tail :: visited)
              ⟨row.effects ++ binding.effects, binding.tail⟩

def SubstitutionInput.expandedRow (σ : SubstitutionInput) (active : ℕ) (row : EffectRowRef) :
    Except TypeSubstitutionError ExpandedRow :=
  match σ.effectRows with
  | none => .ok ⟨row, none⟩
  | some (.arguments arguments) =>
    match row.tail.bind arguments.get with
    | some argument =>
      .ok ⟨⟨row.effects ++ argument.effects, argument.tail⟩, some row.effects.length⟩
    | none => .ok ⟨row, none⟩
  | some (.equations equations) =>
    (expandEquations equations σ.expansionDepth active (equations.toList.length + 1) [] row).map
      fun row => ⟨row, none⟩

/-- Members of the original row stay; an added one stays when it is the first of its kind. -/
def uniqueMembers : ℕ → List EffectRef → List EffectRef → List EffectRef
  | _, _, [] => []
  | original, seen, effect :: rest =>
    if 0 < original || !seen.contains effect then
      effect :: uniqueMembers (original - 1) (effect :: seen) rest
    else uniqueMembers (original - 1) seen rest

/-! Dependencies: what has to be substituted before a type can be assembled. -/

section
variable (σ : SubstitutionInput) (active : ℕ)

def rowDependencies (row : EffectRowRef) : Except TypeSubstitutionError (List TypeId) := do
  let expanded ← σ.expandedRow active row
  let template := match expanded.argumentStart with
    | some start => expanded.row.effects.take start
    | none => expanded.row.effects
  return template.flatMap EffectRef.refs

def optionRowDependencies :
    Option EffectRowRef → Except TypeSubstitutionError (List TypeId)
  | none => return []
  | some row => rowDependencies σ active row

def producedDependencies :
    HandlerProducedEffects → Except TypeSubstitutionError (List TypeId)
  | .infer => return []
  | .explicit row => rowDependencies σ active row

def nodeDependencies : Ty → Except TypeSubstitutionError (List TypeId)
  | .existential bounds => return bounds.flatMap CheckedSpecBound.args
  | .array inner | .list inner | .set inner | .range inner | .slice inner | .option inner
  | .refined inner _ | .trust _ inner | .schema inner | .message inner
  | .memorySelection inner | .memoryRegion inner => return [inner]
  | .map key value | .store key value | .result key value => return [key, value]
  | .record record => return record.fields.map FieldType.ty
  | .tuple elements => return elements
  | .function flow => return flow.input ++ flow.output :: (← optionRowDependencies σ active flow.effects)
  | .handler handler => do
    let handled ← rowDependencies σ active handler.handled
    let produced ← producedDependencies σ active handler.produced
    return handled ++ produced ++ handler.result.toList
  | .task task => return task.output :: (← rowDependencies σ active task.effects)
  | .continuation continuation => do
    let residual ← optionRowDependencies σ active continuation.residualEffects
    return continuation.actionOutput :: continuation.handledAnswer.toList ++ residual
  | .applied _ args => return args
  | .resourceHandle (.memoryRegion schema) => return [schema]
  | .resourceHandle (.externalTool signature) => return [signature]
  | .resourceHandle (.other _ args) => return args
  | .primitive _ | .integerLiteral _ | .var _ | .enum _ | .named _ | .nominal _
  | .schedulerHandle | .prompt | .promptPart | .memoryPlace _ => return []

end

def requireType (store : TypeStore) (ty : TypeId) : Except TypeSubstitutionError Ty :=
  match store.get ty with
  | some data => .ok data
  | none => .error (.missingType ty)

def dependencies (σ : SubstitutionInput) (store : TypeStore) (active : ℕ) (ty : TypeId) :
    Except TypeSubstitutionError (List TypeId) := do
  let data ← requireType store ty
  match σ.target store ty data with
  | some replacement =>
    match data with
    | .named _ => return []
    | _ => return [replacement]
  | none => nodeDependencies σ active data

section
variable {T : Type} (target : SubstitutionTarget T)
  (sub : SubstitutionInput → TypeId → EngineM T TypeId) (σ : SubstitutionInput)

def engineRequire (ty : TypeId) : EngineM T Ty := fun engine =>
  some (requireType (target.inputStore engine.target) ty, engine)

/-- A call on tables of its own, in which only solver variables are replaced. -/
def substituteInner (ty : TypeId) : EngineM T TypeId := fun engine =>
  match sub σ.onlyVariables ty engine.inner with
  | none => none
  | some (result, engine') => some (result, { engine with target := engine'.target })

/-- Arguments belong to the caller's binders. -/
def substituteArgument (ty : TypeId) : EngineM T TypeId := do
  let _ ← engineRequire target ty
  if σ.vars.isNone then return ty else substituteInner sub σ ty

def substituteEffect (argument : Bool) (effect : EffectRef) : EngineM T EffectRef := do
  let args ← effect.args.mapM fun
    | .type ty => do
      let ty ← if argument then substituteArgument target sub σ ty else sub σ ty
      return .type ty
    | arg => return arg
  return { effect with args }

def substituteEffectRow (row : EffectRowRef) : EngineM T EffectRowRef := do
  let expanded ← fun engine => some (σ.expandedRow engine.active.card row, engine)
  let effects ← expanded.row.effects.zipIdx.mapM fun (effect, index) =>
    substituteEffect target sub σ (expanded.argumentStart.any (· ≤ index)) effect
  return { expanded.row with effects := uniqueMembers row.effects.length [] effects }

def substituteProduced : HandlerProducedEffects → EngineM T HandlerProducedEffects
  | .infer => return .infer
  | .explicit row => return .explicit (← substituteEffectRow target sub σ row)

/-- Rebuild a node from its substituted components; `none` for a node that is its own result. -/
def assembleNode : Ty → EngineM T (Option Ty)
  | .existential bounds => do
    let bounds ← bounds.mapM fun bound => do
      let args ← bound.args.mapM (sub σ)
      return { bound with args }
    return some (.existential bounds)
  | .array inner => return some (.array (← sub σ inner))
  | .list inner => return some (.list (← sub σ inner))
  | .map key value => return some (.map (← sub σ key) (← sub σ value))
  | .set inner => return some (.set (← sub σ inner))
  | .range index => return some (.range (← sub σ index))
  | .slice inner => return some (.slice (← sub σ inner))
  | .option inner => return some (.option (← sub σ inner))
  | .result ok err => return some (.result (← sub σ ok) (← sub σ err))
  | .record record => do
    let fields ← record.fields.mapM fun field => do
      let ty ← sub σ field.ty
      return { field with ty }
    return some (.record ⟨fields⟩)
  | .tuple elements => return some (.tuple (← elements.mapM (sub σ)))
  | .function flow => do
    let input ← flow.input.mapM (sub σ)
    let output ← sub σ flow.output
    let effects ← flow.effects.mapM (substituteEffectRow target sub σ)
    return some (.function ⟨input, output, effects⟩)
  | .handler handler => do
    let handled ← substituteEffectRow target sub σ handler.handled
    let produced ← substituteProduced target sub σ handler.produced
    let result ← handler.result.mapM (sub σ)
    return some (.handler ⟨handled, produced, result⟩)
  | .task task => do
    let output ← sub σ task.output
    let effects ← substituteEffectRow target sub σ task.effects
    return some (.task ⟨output, effects⟩)
  | .continuation continuation => do
    let actionOutput ← sub σ continuation.actionOutput
    let handledAnswer ← continuation.handledAnswer.mapM (sub σ)
    let residual ← continuation.residualEffects.mapM (substituteEffectRow target sub σ)
    return some (.continuation ⟨actionOutput, handledAnswer, residual⟩)
  | .applied constructor args => return some (.applied constructor (← args.mapM (sub σ)))
  | .refined base predicate => return some (.refined (← sub σ base) predicate)
  | .trust wrapper inner => return some (.trust wrapper (← sub σ inner))
  | .schema inner => return some (.schema (← sub σ inner))
  | .message inner => return some (.message (← sub σ inner))
  | .memorySelection inner => return some (.memorySelection (← sub σ inner))
  | .store key value => return some (.store (← sub σ key) (← sub σ value))
  | .memoryRegion inner => return some (.memoryRegion (← sub σ inner))
  | .resourceHandle (.memoryRegion schema) =>
    return some (.resourceHandle (.memoryRegion (← sub σ schema)))
  | .resourceHandle (.externalTool signature) =>
    return some (.resourceHandle (.externalTool (← sub σ signature)))
  | .resourceHandle (.other name args) =>
    return some (.resourceHandle (.other name (← args.mapM (sub σ))))
  | .primitive _ | .schedulerHandle | .prompt | .promptPart | .memoryPlace _
  | .integerLiteral _ | .var _ | .enum _ | .named _ | .nominal _ => return none

/-- `materialize`: an unchanged node keeps its id. -/
def engineMaterialize (original : TypeId) (specialized : Ty) : EngineM T TypeId := do
  let data ← engineRequire target original
  if data = specialized then return original
  else fun engine =>
    let (result, target') := target.place engine.target specialized
    some (result, { engine with target := target' })

def rebuild (ty : TypeId) (data : Ty) : EngineM T TypeId := do
  match ← assembleNode target sub σ data with
  | some specialized => engineMaterialize target ty specialized
  | none => return ty

def replace (data : Ty) (replacement : TypeId) : EngineM T TypeId :=
  match data with
  | .named _ => substituteArgument target sub σ replacement
  | _ => sub σ replacement

def assemble (ty : TypeId) : EngineM T TypeId := do
  let data ← engineRequire target ty
  fun engine =>
    match σ.target (target.inputStore engine.target) ty data with
    | some replacement => replace target sub σ data replacement engine
    | none => rebuild target sub σ ty data engine

/-- The depth of a finished type, when depths are limited. -/
def recordDepth (engine : Engine T) (current : TypeId) : Except TypeSubstitutionError (Engine T) :=
  match σ.expansionDepth with
  | none => .ok engine
  | some limit => do
    let children ← dependencies σ (target.inputStore engine.target) engine.active.card current
    let depth := 1 + (children.filterMap engine.memoDepths.get).foldl max 0
    if limit < depth then .error (.expansionDepth limit)
    else return { engine with memoDepths := engine.memoDepths.insert current depth }

/-- The loop of `substitute`. The top of the stack is the head of the list; an entry is finished
when its flag is set. Returns what was entered. -/
def walk : ℕ → Engine T → List (TypeId × Bool) → List TypeId →
    Option (Except TypeSubstitutionError Unit × Engine T × List TypeId)
  | 0, _, _, _ => none
  | _ + 1, engine, [], entered => some (.ok (), engine, entered)
  | n + 1, engine, (current, finish) :: rest, entered =>
    if (engine.memo.get current).isSome then walk n engine rest entered
    else if finish then
      match recordDepth target σ engine current with
      | .error error => some (.error error, engine, entered)
      | .ok engine =>
        match assemble target sub σ current engine with
        | none => none
        | some (.error error, engine) => some (.error error, engine, entered)
        | some (.ok specialized, engine) =>
          walk n { engine with
            active := engine.active.erase current
            memo := engine.memo.insert current specialized } rest entered
    else if current ∈ engine.active then some (.error (.cyclicType current), engine, entered)
    else
      match σ.expansionDepth.filter fun limit => limit ≤ engine.active.card with
      | some limit => some (.error (.expansionDepth limit), engine, entered)
      | none =>
        let engine := { engine with active := insert current engine.active }
        match dependencies σ (target.inputStore engine.target) engine.active.card current with
        | .error error => some (.error error, engine, entered ++ [current])
        | .ok children =>
          walk n engine (children.map (·, false) ++ (current, true) :: rest) (entered ++ [current])

end

def substitute {T : Type} (target : SubstitutionTarget T) :
    ℕ → SubstitutionInput → TypeId → EngineM T TypeId
  | 0, _, _ => fun _ => none
  | n + 1, σ, ty => fun engine =>
    match engine.memo.get ty with
    | some specialized => some (.ok specialized, engine)
    | none =>
      match walk target (substitute target n) σ n engine [(ty, false)] [] with
      | none => none
      | some (result, engine, entered) =>
        some (result.bind fun _ => engine.memoized ty,
          { engine with active := engine.active \ entered.toFinset })

end EtasFrontend.Types
