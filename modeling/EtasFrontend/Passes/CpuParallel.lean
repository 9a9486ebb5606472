import EtasFrontend.Effects.Summary
import EtasFrontend.Hir.Visit

/-! Flows that may run on several processors at once. -/
namespace EtasFrontend.Passes
open Lib Hir
open Effects (SummaryData EffectSummary ActionTraceDomain)
open EtasFrontend.Types (TypeId TypeStore FieldType)

inductive CpuParallelRejection where
  | openEffectRow | hostAction | handlerCapture | liveContinuation | mutableRuntimeResource
  | nonFreezableCapture | dynamicCode

structure CpuParallelEligibilityFact where
  callable : HirItemId
  eligible : Bool
  rejection : Option CpuParallelRejection
  estimatedWork : Option ℕ

/-- The output of a flow signature; the rest of the signatures is not read. -/
inductive ItemSignature where
  | flow (output : TypeId)
  | agent
  | tool
  | topLevelLet

/-- A start of a task ends the search at once. -/
def containsTaskControl (trace : ActionTraceDomain) : Bool :=
  trace.visited.any fun
    | .taskStart _ _ | .taskAwait _ => true
    | _ => false

def rejection {D : SummaryData} (summary : EffectSummary D) : Option CpuParallelRejection :=
  if summary.support ≠ .localOnly then some .mutableRuntimeResource
  else if summary.escapingEffects.openVar.isSome || summary.requestedActions.openVar.isSome ||
      summary.defaultActions.openVar.isSome || summary.handledActions.openVar.isSome then
    some .openEffectRow
  else if summary.requestedActions.effects ≠ ∅ ∨ summary.defaultActions.effects ≠ ∅ ∨
      summary.actionTrace.actionSet ≠ ∅ then
    some .hostAction
  else if summary.handlerRequests ≠ .available ∅ ∅ ∨ summary.handledActions.effects ≠ ∅ then
    some .handlerCapture
  else if summary.escapingEffects.effects ≠ ∅ then some .mutableRuntimeResource
  else if containsTaskControl summary.actionTrace then some .liveContinuation
  else if summary.actionTrace.hasParameterCalls then some .dynamicCode
  else none

def freezableType (store : TypeStore) : ℕ → TypeId → Except Halt Bool
  | 0, _ => .error .outOfFuel
  | fuel + 1, ty =>
    match store.get ty with
    | some (.primitive _) | some (.integerLiteral _) => .ok true
    | some (.array inner) | some (.option inner) => freezableType store fuel inner
    | some (.tuple parts) => parts.allM (freezableType store fuel)
    | some (.record record) => (record.fields.map FieldType.ty).allM (freezableType store fuel)
    | _ => .ok false

/-- The symbol at the end of a chain of import aliases. A chain that visits more symbols than there
are visits one of them twice. -/
def canonicalFrom (hir : HirProgram) : ℕ → List SymbolId → SymbolId → Option SymbolId
  | 0, _, _ => none
  | fuel + 1, visited, current =>
    match hir.symbols.symbols[current]? with
    | none => none
    | some symbol =>
      match hir.sourceImportTargets.get current with
      | none => some current
      | some target =>
        match symbol.definition with
        | .importAlias _ _ =>
          if visited.contains current then none
          else canonicalFrom hir fuel (current :: visited) target
        | _ => none

def canonicalSourceSymbol (hir : HirProgram) (symbol : SymbolId) : Option SymbolId :=
  canonicalFrom hir (hir.symbols.symbols.length + 1) [] symbol

/-- What the pass reads. `definingItem` is the defining item of a symbol, `work` the estimate. -/
structure CheckedProgram (D : SummaryData) where
  hir : HirProgram
  index : HirTreeIndex
  definingItem : SymbolId → Option HirItemId
  itemEffects : List (HirItemId × EffectSummary D)
  itemSignatures : Map HirItemId ItemSignature
  store : TypeStore
  work : HirItemId → Option ℕ

structure CallableCaptures where
  dependencies : List HirItemId
  hasGlobal : Bool

structure Callable where
  fact : CpuParallelEligibilityFact
  dependencies : List HirItemId

section
variable {D : SummaryData} (program : CheckedProgram D)

/-- The item that defines what a name is resolved to. -/
def resolvedItem : ResolveResult → Option HirItemId
  | .resolved symbol =>
    (canonicalSourceSymbol program.hir symbol).bind program.definingItem
  | _ => none

def capture (captures : CallableCaptures) (item : HirItemId) : CallableCaptures :=
  match program.hir.items[item]? with
  | some (.topLevelLet _) => { captures with hasGlobal := true }
  | some (.flow _) => { captures with dependencies := captures.dependencies ++ [item] }
  | _ => captures

/-- Paths only. -/
def enterExpr (captures : CallableCaptures) (expr : HirExprId) : CallableCaptures :=
  match program.hir.exprs[expr]? with
  | some (.path path) =>
    match resolvedItem program path.resolution with
    | some item => capture program captures item
    | none => captures
  | _ => captures

def visitFrame (captures : CallableCaptures) : WalkFrame → CallableCaptures
  | .node (.expr expr) => enterExpr program captures expr
  | _ => captures

def signatureRejection (fuel : ℕ) (callable : HirItemId) (hasGlobal : Bool) :
    Except Halt (Option CpuParallelRejection) :=
  match program.itemSignatures.get callable with
  | some (.flow output) =>
    if hasGlobal then .ok (some .nonFreezableCapture)
    else do
      let freezable ← freezableType program.store fuel output
      .ok (if freezable then none else some .nonFreezableCapture)
  | _ => .ok (some .dynamicCode)

def analyzeCallable (fuel : ℕ) (entry : HirItemId × EffectSummary D) : Except Halt Callable := do
  let captures ← walkItem program.hir program.index (visitFrame program) fuel entry.1 ⟨[], false⟩
  let rejected ← match rejection entry.2 with
    | some reason => .ok (some reason)
    | none => signatureRejection program fuel entry.1 captures.hasGlobal
  .ok ⟨⟨entry.1, rejected.isNone, rejected, program.work entry.1⟩, captures.dependencies⟩

end

def ineligible (callables : List Callable) (item : HirItemId) : Bool :=
  callables.any fun callable => callable.fact.callable == item && !callable.fact.eligible

/-- Eligible so far, with an ineligible dependency. -/
def rejectedItems (callables : List Callable) : List HirItemId :=
  (callables.filter fun callable =>
    callable.fact.eligible && callable.dependencies.any (ineligible callables)).map
      fun callable => callable.fact.callable

def rejectItems (items : List HirItemId) (callables : List Callable) : List Callable :=
  callables.map fun callable =>
    if items.contains callable.fact.callable then
      { callable with fact := { callable.fact with
        eligible := false
        rejection := some .nonFreezableCapture } }
    else callable

theorem length_eligible_rejectItems {callables : List Callable}
    (h : rejectedItems callables ≠ []) :
    ((rejectItems (rejectedItems callables) callables).filter fun c => c.fact.eligible).length <
      (callables.filter fun c => c.fact.eligible).length := by
  obtain ⟨item, hitem⟩ := List.exists_mem_of_ne_nil _ h
  have hkept : ∀ c : Callable, ((fun c : Callable => c.fact.eligible) ∘ fun callable =>
      if (rejectedItems callables).contains callable.fact.callable then
        { callable with fact := { callable.fact with
          eligible := false
          rejection := some .nonFreezableCapture } }
      else callable) c =
        (!(rejectedItems callables).contains c.fact.callable && c.fact.eligible) := by
    intro c
    by_cases hc : c.fact.callable ∈ rejectedItems callables <;> simp [hc]
  rw [rejectItems, List.filter_map, List.length_map, List.filter_congr fun c _ => hkept c,
    ← List.filter_filter]
  apply List.length_filter_lt_length_iff_exists.mpr
  obtain ⟨callable, hcallable, rfl⟩ := List.mem_map.mp hitem
  obtain ⟨hm, he⟩ := List.mem_filter.mp hcallable
  refine ⟨callable, List.mem_filter.mpr ⟨hm, (Bool.and_eq_true_iff.mp he).1⟩, ?_⟩
  simpa using hitem

/-- Rounds, until nothing is rejected. -/
def spreadRejection (callables : List Callable) : List Callable :=
  if _ : rejectedItems callables = [] then callables
  else spreadRejection (rejectItems (rejectedItems callables) callables)
termination_by (callables.filter fun callable => callable.fact.eligible).length
decreasing_by exact length_eligible_rejectItems ‹_›

/-- `AnalyzeCpuParallelEligibilityPass`. -/
def analyzeCpuParallelEligibility {D : SummaryData} (program : CheckedProgram D) (fuel : ℕ) :
    Except Halt (List CpuParallelEligibilityFact) := do
  let callables ← program.itemEffects.mapM (analyzeCallable program fuel)
  .ok ((spreadRejection callables).map Callable.fact)

end EtasFrontend.Passes
