import EtasFrontend.Lib.Levels
import EtasFrontend.Types.Substitution

/-! Enumeration of a checked type graph, level by level, under a budget of nodes and edges and a
limit of the depth. There is no execution control here, so nothing interrupts it. -/
namespace EtasFrontend.Types
open Lib

/-- The errors of `TypeSubstitutionError` that the enumeration raises. -/
inductive TypeGraphError where
  | missingType (ty : TypeId)
  | missingEnumLayout (ty : TypeId)
  | invalidApplication (ty : TypeId)
  | expansionDepth (limit : ℕ)
  | workLimit (resource : String) (limit : ℕ)
  deriving DecidableEq

/-- `TypeSubstitutionBudget`. The counters start at 0 and are shared by several operations. -/
structure TypeSubstitutionBudget where
  maxNodes : ℕ
  maxEdges : ℕ
  nodes : ℕ
  edges : ℕ

namespace TypeSubstitutionBudget

def new (maxNodes maxEdges : ℕ) : TypeSubstitutionBudget := ⟨maxNodes, maxEdges, 0, 0⟩

def chargeNode (budget : TypeSubstitutionBudget) : Except TypeGraphError TypeSubstitutionBudget :=
  if budget.maxNodes < budget.nodes + 1 then .error (.workLimit "nodes" budget.maxNodes)
  else .ok { budget with nodes := budget.nodes + 1 }

def chargeEdges (budget : TypeSubstitutionBudget) (amount : ℕ) :
    Except TypeGraphError TypeSubstitutionBudget :=
  if budget.maxEdges < budget.edges + amount then .error (.workLimit "edges" budget.maxEdges)
  else .ok { budget with edges := budget.edges + amount }

end TypeSubstitutionBudget

structure EnumVariantLayoutFact where
  name : String
  fields : List TypeId
  fieldNames : Option (List String)

structure EnumLayoutFact where
  typeParams : List String
  variants : List EnumVariantLayoutFact

structure CallableGenericParam where
  name : String
  subject : TypeId
  bounds : List CheckedSpecBound

/-- The parts of `TypeFacts` that the enumeration reads. -/
structure GraphFacts where
  typeGenerics : Map TypeId (List CallableGenericParam)
  enumLayouts : Map TypeId EnumLayoutFact

structure Walker where
  queue : List (TypeId × ℕ)
  seen : List TypeId
  visited : List TypeId
  budget : TypeSubstitutionBudget

/-- What the enumeration does at a node, in order. -/
inductive GraphAction where
  | charge (amount : ℕ)
  | edge (id : TypeId)
  | fail (error : TypeGraphError)

namespace Walker

def edge (walker : Walker) (id : TypeId) (depth : ℕ) : Except TypeGraphError Walker := do
  let budget ← walker.budget.chargeEdges 1
  if id ∈ walker.seen then return { walker with budget }
  else return { walker with budget, queue := walker.queue ++ [(id, depth)] }

def perform (depth : ℕ) (walker : Walker) : GraphAction → Except TypeGraphError Walker
  | .charge amount => do
    let budget ← walker.budget.chargeEdges amount
    return { walker with budget }
  | .edge id => walker.edge id depth
  | .fail error => .error error

def performAll (depth : ℕ) : Walker → List GraphAction → Except TypeGraphError Walker
  | walker, [] => .ok walker
  | walker, action :: actions =>
    match walker.perform depth action with
    | .error error => .error error
    | .ok walker => walker.performAll depth actions

end Walker

def rowActions (row : EffectRowRef) : List GraphAction :=
  row.effects.flatMap fun effect =>
    .charge 1 :: effect.args.flatMap fun arg =>
      .charge 1 :: match arg with
        | .type id => [.edge id]
        | _ => []

def optionRowActions : Option EffectRowRef → List GraphAction
  | none => []
  | some row => rowActions row

def validParameters (names : List String) : Option (List CallableGenericParam) → Bool
  | some params => names.length == params.length &&
      (names.zip params).all fun (name, param) => name == param.name
  | none => names.isEmpty

def validateParameters (owner : TypeId) (names : List String)
    (params : Option (List CallableGenericParam)) : List GraphAction :=
  .charge names.length ::
    if validParameters names params then [] else [.fail (.invalidApplication owner)]

def boundActions (bound : CheckedSpecBound) : List GraphAction :=
  .charge 1 :: bound.args.map .edge

def paramActions (params : List CallableGenericParam) : List GraphAction :=
  params.flatMap fun param =>
    .charge 1 :: .edge param.subject :: param.bounds.flatMap boundActions

def typeActions (facts : GraphFacts) (id : TypeId) : Ty → List GraphAction
  | .existential bounds => bounds.flatMap boundActions
  | .array inner | .list inner | .set inner | .range inner | .slice inner | .option inner
  | .refined inner _ | .trust _ inner | .schema inner | .message inner | .memorySelection inner
  | .memoryRegion inner => [.edge inner]
  | .map key value | .store key value | .result key value => [.edge key, .edge value]
  | .record record => record.fields.map fun field => .edge field.ty
  | .tuple elements => elements.map .edge
  | .enum _ =>
    match facts.enumLayouts.get id with
    | none => [.fail (.missingEnumLayout id)]
    | some layout =>
      validateParameters id layout.typeParams (facts.typeGenerics.get id) ++
        layout.variants.flatMap fun variant => .charge 1 :: variant.fields.map .edge
  | .nominal nominal => nominal.representation.toList.map .edge
  | .function flow => flow.input.map .edge ++ .edge flow.output :: optionRowActions flow.effects
  | .handler handler =>
    rowActions handler.handled ++
      (match handler.produced with
        | .infer => []
        | .explicit row => rowActions row) ++ handler.result.toList.map .edge
  | .task task => .edge task.output :: rowActions task.effects
  | .continuation continuation =>
    .edge continuation.actionOutput :: continuation.handledAnswer.toList.map .edge ++
      optionRowActions continuation.residualEffects
  | .applied constructor args => .edge constructor :: args.map .edge
  | .resourceHandle (.memoryRegion schema) => [.edge schema]
  | .resourceHandle (.externalTool signature) => [.edge signature]
  | .resourceHandle (.other _ args) => args.map .edge
  | .primitive _ | .integerLiteral _ | .var _ | .named _ | .schedulerHandle | .prompt
  | .promptPart | .memoryPlace _ => []

/-- What a nominal is checked for first. -/
def nominalActions (facts : GraphFacts) (id : TypeId) : Ty → List GraphAction
  | .nominal nominal => validateParameters id nominal.params (facts.typeGenerics.get id)
  | _ => []

def nodeActions (facts : GraphFacts) (id : TypeId) (ty : Ty) : List GraphAction :=
  nominalActions facts id ty ++ paramActions ((facts.typeGenerics.get id).getD []) ++
    typeActions facts id ty

variable (store : TypeStore) (facts : GraphFacts) (checkedDeclarations : Map TypeId TypeId)
  (maxDepth : ℕ)

/-- The part of the loop after a new id was taken. -/
def visitNode (walker : Walker) (id : TypeId) (depth : ℕ) : Except TypeGraphError Walker := do
  let budget ← walker.budget.chargeNode
  match store.get id with
  | none => .error (.missingType id)
  | some ty =>
    let walker := { walker with budget, visited := walker.visited ++ [id] }
    if (checkedDeclarations.get id).isSome then return walker
    else walker.performAll (depth + 1) (nodeActions facts id ty)

/-- The loop. Every entry of the queue was charged as an edge, so a bound above the edges of the
budget is not met. -/
def walkGraph : ℕ → Walker → Option (Except TypeGraphError (List TypeId))
  | 0, _ => none
  | n + 1, walker =>
    match walker.queue with
    | [] => some (.ok walker.visited)
    | (id, depth) :: queue =>
      let walker := { walker with queue }
      if id ∈ walker.seen then walkGraph n walker
      else
        let walker := { walker with seen := id :: walker.seen }
        if maxDepth < depth then some (.error (.expansionDepth maxDepth))
        else
          match visitNode store facts checkedDeclarations walker id depth with
          | .error error => some (.error error)
          | .ok walker => walkGraph n walker

/-- What is done before the loop: the roots, then the rows. -/
def startActions (roots : List TypeId) (rows : List EffectRowRef) : List GraphAction :=
  roots.map .edge ++ rows.flatMap rowActions

def checkedTypeGraph (roots : List TypeId) (rows : List EffectRowRef)
    (budget : TypeSubstitutionBudget) : Option (Except TypeGraphError (List TypeId)) :=
  match Walker.performAll 0 ⟨[], [], [], budget⟩ (startActions roots rows) with
  | .error error => some (.error error)
  | .ok walker => walkGraph store facts checkedDeclarations maxDepth (budget.maxEdges + 1) walker

end EtasFrontend.Types
