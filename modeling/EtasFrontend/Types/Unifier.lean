import EtasFrontend.Types.Store

/-! First-order unification over the type graph. `none` means that the recursion bound was
too small; an error leaves the bindings made before it in place, as in the source. -/
namespace EtasFrontend.Types
open Lib

/-- A finite map from type variables to types. -/
structure Substitution where
  vars : Map TypeVarId TypeId

namespace Substitution

def empty : Substitution := ⟨∅⟩

def get (s : Substitution) (var : TypeVarId) : Option TypeId := s.vars.get var

def insert (s : Substitution) (var : TypeVarId) (ty : TypeId) : Substitution :=
  ⟨s.vars.insert var ty⟩

def extend (s other : Substitution) : Substitution := ⟨s.vars.extend other.vars⟩

@[simp] theorem get_empty (v : TypeVarId) : empty.get v = none := rfl

theorem get_insert (s : Substitution) (v w : TypeVarId) (ty : TypeId) :
    (s.insert v ty).get w = if w = v then some ty else s.get w :=
  Map.get_insert ..

theorem get_extend (s other : Substitution) (v : TypeVarId) :
    (s.extend other).get v = (other.get v).or (s.get v) :=
  Map.get_extend ..

end Substitution

inductive UnifyError where
  | mismatch (lhs rhs : TypeId)
  | occursCheck (var : TypeVarId) (ty : TypeId)

/-- `TypeUnifier` without the store it borrows. -/
structure Unifier where
  substitution : Substitution
  known : Option Substitution
  readOnlyErasure : Bool
  definitionContract : Bool
  patternParameters : Option (List TypeId)
  parameterBindings : Map TypeId TypeId

namespace Unifier

def new : Unifier := ⟨.empty, none, false, false, none, ∅⟩

def withSubstitution (substitution : Substitution) : Unifier := { new with substitution }

def withKnownSubstitution (known : Substitution) : Unifier := { new with known := some known }

def withReadOnlyErasure (u : Unifier) : Unifier := { u with readOnlyErasure := true }

def withPatternParameters (u : Unifier) (parameters : List TypeId) : Unifier :=
  { u with patternParameters := some parameters, definitionContract := true }

/-- The combined substitution: own bindings first, then the borrowed ones. -/
def lookup (u : Unifier) (var : TypeVarId) : Option TypeId :=
  (u.substitution.get var).or (u.known.bind fun known => known.get var)

/-- Upper bound on the number of bound variables. -/
def bindingCount (u : Unifier) : ℕ :=
  u.substitution.vars.keys.length + (u.known.map fun known => known.vars.keys.length).getD 0

end Unifier

section
variable (store : TypeStore)

/-- The loop of `resolve`. A variable is visited at most once, so the bound is never used up
when it exceeds the number of bindings. -/
def resolveLoop (lookup : TypeVarId → Option TypeId) :
    ℕ → List TypeVarId → TypeId → Except UnifyError TypeId
  | 0, _, ty => .ok ty
  | n + 1, visited, ty =>
    match store.get ty with
    | some (.var var) =>
      match lookup var with
      | some next =>
        if var ∈ visited then .error (.occursCheck var ty)
        else resolveLoop lookup n (var :: visited) next
      | none => .ok ty
    | _ => .ok ty

def Unifier.resolve (u : Unifier) (ty : TypeId) : Except UnifyError TypeId :=
  resolveLoop store u.lookup (u.bindingCount + 1) [] ty

/-- The components `occurs` descends into. -/
def Ty.occursRefs : Ty → List TypeId
  | .existential bounds => bounds.flatMap CheckedSpecBound.args
  | .array inner | .list inner | .set inner | .slice inner | .option inner | .message inner
  | .schema inner | .memorySelection inner | .memoryRegion inner | .range inner
  | .trust _ inner => [inner]
  | .map key value | .store key value | .result key value => [key, value]
  | .resourceHandle (.memoryRegion ty) | .resourceHandle (.externalTool ty) => [ty]
  | .resourceHandle (.other _ args) => args
  | .tuple elements => elements
  | .record r => r.fields.map FieldType.ty
  | .function flow => flow.input ++ [flow.output]
  | .handler h => h.result.toList
  | .task t => [t.output]
  | .continuation c => c.actionOutput :: c.handledAnswer.toList
  | _ => []

/-- The rows `occurs` looks at. -/
def Ty.occursRows : Ty → List EffectRowRef
  | .function flow => flow.effects.toList
  | .handler h =>
    match h.produced with
    | .infer => [h.handled]
    | .explicit row => [h.handled, row]
  | .task t => [t.effects]
  | .continuation c => c.residualEffects.toList
  | _ => []

def effectOccurs (needle : TypeVarId) (effect : EffectRef) : Bool :=
  effect.args.any fun
    | .type ty =>
      match store.get ty with
      | some (.var var) => var == needle
      | _ => false
    | _ => false

def effectRowOccurs (needle : TypeVarId) (row : EffectRowRef) : Bool :=
  row.effects.any (effectOccurs store needle)

def Unifier.occurs (u : Unifier) (needle : TypeVarId) : ℕ → TypeId → Option Bool
  | 0, _ => none
  | n + 1, ty =>
    match u.resolve store ty with
    | .error _ => some true
    | .ok ty =>
      match store.get ty with
      | some (.var var) => some (var == needle)
      | some t => do
        let inside ← t.occursRefs.anyM (u.occurs needle n)
        return inside || t.occursRows.any (effectRowOccurs store needle)
      | none => some false

def Unifier.bind (u : Unifier) (n : ℕ) (var : TypeVarId) (ty : TypeId) :
    Option (Except UnifyError Unit × Unifier) :=
  match u.occurs store var n ty with
  | none => none
  | some true => some (.error (.occursCheck var ty), u)
  | some false => some (.ok (), { u with substitution := u.substitution.insert var ty })

end

def isIntegerPrimitive : PrimitiveType → Bool
  | .i8 | .i16 | .i32 | .i64 | .i128 | .iSize | .u8 | .u16 | .u32 | .u64 | .u128 | .uSize => true
  | _ => false

def sameEffectRow : Option EffectRowRef → Option EffectRowRef → Bool
  | none, none => true
  | some lhs, some rhs =>
    lhs.tail == rhs.tail && lhs.effects.all (rhs.effects.contains ·) &&
      rhs.effects.all (lhs.effects.contains ·)
  | _, _ => false

/-- A recursive call, with the flags it runs under. -/
structure UnifyTask where
  lhs : TypeId
  rhs : TypeId
  readOnlyErasure : Bool
  definitionContract : Bool

/-- What a pair of resolved types asks for. `descend` runs its tasks in order and then fails
with `after`, if there is one. -/
inductive UnifyGoal where
  | fail (error : UnifyError)
  | done
  | remember (parameter ty : TypeId)
  | exact (previous ty : TypeId)
  | bind (var : TypeVarId) (ty : TypeId)
  | descend (tasks : List UnifyTask) (after : Option UnifyError)

namespace Unifier

def task (u : Unifier) (lhs rhs : TypeId) : UnifyTask :=
  ⟨lhs, rhs, u.readOnlyErasure, u.definitionContract⟩

def zipTasks (u : Unifier) (lhs rhs : List TypeId) : List UnifyTask :=
  List.zipWith u.task lhs rhs

/-- Fields of `lhs` in order, each with the first field of `rhs` of its name; stops at a field
that `rhs` lacks. -/
def fieldTasks (u : Unifier) (rhs : List FieldType) : List FieldType → List UnifyTask × Bool
  | [] => ([], true)
  | field :: rest =>
    match rhs.find? fun candidate => candidate.name == field.name with
    | none => ([], false)
    | some other =>
      let (tasks, complete) := u.fieldTasks rhs rest
      (u.task field.ty other.ty :: tasks, complete)

def optionTasks (u : Unifier) : Option TypeId → Option TypeId → List UnifyTask
  | some lhs, some rhs => [u.task lhs rhs]
  | _, _ => []

def sameParameter (store : TypeStore) (lhs rhs : TypeId) (a b : NamedTypeRef) : Bool :=
  match store.parameterIdentity lhs, store.parameterIdentity rhs with
  | some left, some right => left == right
  | none, none => a == b
  | _, _ => false

def sameNominal (store : TypeStore) (lhs rhs : TypeId) (a b : NominalTypeRef) : Bool :=
  match store.nominalIdentity lhs, store.nominalIdentity rhs with
  | some left, some right => left == right
  | none, none => a.name == b.name
  | _, _ => false

/-- An application stands for its own declaration where that permits the erased view. -/
def erasesTo (u : Unifier) (store : TypeStore) (constructor : TypeConstructorId)
    (args : List TypeId) (rhs : TypeId) (view : NominalTypeRef) : Bool :=
  u.readOnlyErasure && view.readOnlyErasedView && args.length == view.params.length &&
    store.nominalIdentity constructor == store.nominalIdentity rhs &&
    store.get constructor == some (.nominal view)

def isErasedView (store : TypeStore) (constructor : TypeConstructorId) : Bool :=
  match store.get constructor with
  | some (.nominal declaration) => declaration.readOnlyErasedView
  | _ => false

def boundsAlign (left right : List CheckedSpecBound) : Bool :=
  left.length == right.length &&
    (left.zip right).all fun (a, b) => a.spec == b.spec && a.args.length == b.args.length

/-- The arms of `unify` for two nodes that are not variables. -/
def nodeGoal (u : Unifier) (store : TypeStore) (lhs rhs : TypeId) (l r : Ty) : UnifyGoal :=
  let mismatch := UnifyError.mismatch lhs rhs
  let otherwise := if lhs = rhs then UnifyGoal.done else .fail mismatch
  let one (a b : TypeId) := UnifyGoal.descend [u.task a b] none
  let two (a b c d : TypeId) := UnifyGoal.descend [u.task a b, u.task c d] none
  match l with
  | .existential left =>
    match r with
    | .existential right =>
      if boundsAlign left right then
        .descend ((left.zip right).flatMap fun (a, b) => u.zipTasks a.args b.args) none
      else otherwise
    | _ => otherwise
  | .primitive a =>
    match r with
    | .primitive b => if a = b then .done else otherwise
    | .integerLiteral _ => if isIntegerPrimitive a then .done else otherwise
    | _ => otherwise
  | .integerLiteral _ =>
    match r with
    | .primitive b => if isIntegerPrimitive b then .done else otherwise
    | .integerLiteral _ => .done
    | _ => otherwise
  | .array a => match r with | .array b => one a b | _ => otherwise
  | .list a => match r with | .list b => one a b | _ => otherwise
  | .set a => match r with | .set b => one a b | _ => otherwise
  | .slice a => match r with | .slice b => one a b | _ => otherwise
  | .option a => match r with | .option b => one a b | _ => otherwise
  | .message a => match r with | .message b => one a b | _ => otherwise
  | .schema a => match r with | .schema b => one a b | _ => otherwise
  | .memorySelection a => match r with | .memorySelection b => one a b | _ => otherwise
  | .memoryRegion a => match r with | .memoryRegion b => one a b | _ => otherwise
  | .trust aw a =>
    match r with
    | .trust bw b => if aw = bw then one a b else otherwise
    | _ => otherwise
  | .range a => match r with | .range b => one a b | _ => otherwise
  | .map ak av => match r with | .map bk bv => two ak bk av bv | _ => otherwise
  | .store ak av => match r with | .store bk bv => two ak bk av bv | _ => otherwise
  | .resourceHandle (.memoryRegion a) =>
    match r with
    | .resourceHandle (.memoryRegion b) => one a b
    | _ => otherwise
  | .resourceHandle (.externalTool a) =>
    match r with
    | .resourceHandle (.externalTool b) => one a b
    | _ => otherwise
  | .resourceHandle (.other an aa) =>
    match r with
    | .resourceHandle (.other bn ba) =>
      if an = bn ∧ aa.length = ba.length then .descend (u.zipTasks aa ba) none else otherwise
    | _ => otherwise
  | .result ao ae => match r with | .result bo be => two ao bo ae be | _ => otherwise
  | .tuple a =>
    match r with
    | .tuple b => if a.length = b.length then .descend (u.zipTasks a b) none else otherwise
    | _ => otherwise
  | .record a =>
    match r with
    | .record b =>
      if a.fields.length = b.fields.length then
        let (tasks, complete) := u.fieldTasks b.fields a.fields
        .descend tasks (if complete then none else some mismatch)
      else otherwise
    | _ => otherwise
  | .function a =>
    match r with
    | .function b =>
      if a.input.length = b.input.length then
        if u.definitionContract && !sameEffectRow a.effects b.effects then .fail mismatch
        else
          -- erasure does not reach into the types of a higher-order parameter
          let inner := { u with readOnlyErasure := false }
          .descend (inner.zipTasks a.input b.input ++ [inner.task a.output b.output]) none
      else otherwise
    | _ => otherwise
  | .handler a =>
    match r with
    | .handler b =>
      if a.handled = b.handled then .descend (u.optionTasks a.result b.result) none else otherwise
    | _ => otherwise
  | .task a =>
    match r with
    | .task b =>
      if sameEffectRow (some a.effects) (some b.effects) then one a.output b.output else otherwise
    | _ => otherwise
  | .schedulerHandle => match r with | .schedulerHandle => .done | _ => otherwise
  | .continuation a =>
    match r with
    | .continuation b =>
      if sameEffectRow a.residualEffects b.residualEffects then
        .descend (u.task a.actionOutput b.actionOutput ::
          u.optionTasks a.handledAnswer b.handledAnswer) none
      else otherwise
    | _ => otherwise
  | .named a =>
    match r with
    | .named b => if sameParameter store lhs rhs a b then .done else otherwise
    | _ => otherwise
  | .nominal a =>
    match r with
    | .nominal b => if sameNominal store lhs rhs a b then .done else otherwise
    | _ => otherwise
  | .applied ac aa =>
    match r with
    | .nominal view => if u.erasesTo store ac aa rhs view then .done else otherwise
    | .applied bc ba =>
      if aa.length = ba.length then
        -- the arguments of a view are part of its contract
        let inner := { u with
          definitionContract := u.definitionContract || isErasedView store ac }
        .descend (u.task ac bc :: inner.zipTasks aa ba) none
      else otherwise
    | _ => otherwise
  | .var _ | .enum _ | .refined _ _ | .prompt | .promptPart | .memoryPlace _ => otherwise

/-- The arms of `unify` for two resolved types. -/
def resolvedGoal (u : Unifier) (store : TypeStore) (lhs rhs : TypeId) : UnifyGoal :=
  match store.get lhs, store.get rhs with
  | some (.var var), _ => .bind var rhs
  | _, some (.var var) => .bind var lhs
  | some l, some r => u.nodeGoal store lhs rhs l r
  | _, _ => if lhs = rhs then .done else .fail (.mismatch lhs rhs)

def isVar (store : TypeStore) (ty : TypeId) : Bool :=
  match store.get ty with
  | some (.var _) => true
  | _ => false

/-- The head of `unify`: resolve both sides, then the parameters of a pattern, then the arms. -/
def goal (u : Unifier) (store : TypeStore) (lhs rhs : TypeId) : UnifyGoal :=
  match u.resolve store lhs with
  | .error error => .fail error
  | .ok lhs =>
    match u.resolve store rhs with
    | .error error => .fail error
    | .ok rhs =>
      match u.patternParameters with
      | some parameters =>
        if lhs ∈ parameters then
          match u.parameterBindings.get lhs with
          | some previous => .exact previous rhs
          | none => .remember lhs rhs
        else if lhs ≠ rhs ∧ (isVar store lhs || isVar store rhs) then .fail (.mismatch lhs rhs)
        else u.resolvedGoal store lhs rhs
      | none => if lhs = rhs then .done else u.resolvedGoal store lhs rhs

/-- Set the flags of a task. -/
def enter (u : Unifier) (t : UnifyTask) : Unifier :=
  { u with readOnlyErasure := t.readOnlyErasure, definitionContract := t.definitionContract }

/-- Restore the flags of the caller. -/
def leave (u caller : Unifier) : Unifier :=
  { u with
    readOnlyErasure := caller.readOnlyErasure
    definitionContract := caller.definitionContract }

/-- Run tasks in order, up to the first that fails. -/
def runTasks (run : Unifier → TypeId → TypeId → Option (Except UnifyError Unit × Unifier)) :
    Unifier → List UnifyTask → Option (Except UnifyError Unit × Unifier)
  | u, [] => some (.ok (), u)
  | u, t :: ts =>
    match run (u.enter t) t.lhs t.rhs with
    | none => none
    | some (.error error, u') => some (.error error, u'.leave u)
    | some (.ok (), u') => runTasks run (u'.leave u) ts

/-- The unifier of a parameter seen before: nothing is known and rows are compared. -/
def exactUnifier : Unifier := { new with definitionContract := true }

def unify (store : TypeStore) :
    ℕ → Unifier → TypeId → TypeId → Option (Except UnifyError Unit × Unifier)
  | 0, _, _, _ => none
  | n + 1, u, lhs, rhs =>
    match u.goal store lhs rhs with
    | .fail error => some (.error error, u)
    | .done => some (.ok (), u)
    | .remember parameter ty =>
      some (.ok (), { u with parameterBindings := u.parameterBindings.insert parameter ty })
    | .exact previous ty =>
      match unify store n exactUnifier previous ty with
      | none => none
      | some (result, _) => some (result, u)
    | .bind var ty => u.bind store n var ty
    | .descend tasks after =>
      match runTasks (unify store n) u tasks with
      | some (.ok (), u') =>
        match after with
        | none => some (.ok (), u')
        | some error => some (.error error, u')
      | result => result

end Unifier
end EtasFrontend.Types
