import EtasFrontend.Effects.Row
import Mathlib.Data.List.Destutter
import Mathlib.Data.Prod.Lex

/-! Action traces: what a body may request, in which order, with a bound on their size. -/
namespace EtasFrontend.Effects
open Lib EtasFrontend.Types

abbrev HirExprId := ℕ

structure Span where
  source : ℕ
  start : ℕ
  stop : ℕ
  deriving DecidableEq

inductive ActionEventSource where
  | perform | stdIntrinsic | agentCall | externalMetadata | transfer | unknown
  deriving DecidableEq

structure ActionEvent where
  action : Effect
  span : Span
  source : ActionEventSource
  deriving DecidableEq

structure CallableEnvironmentId where
  origin : CodeFingerprint
  application : CodeFingerprint
  deriving DecidableEq

/-- A parameter of a callable value; `scope` is `none` at the root. -/
structure CallableValueParameter where
  scope : Option ℕ
  position : ℕ
  deriving DecidableEq

inductive ParameterCallTarget where
  | native (symbol : SymbolId)
  | specMethod (call : HirExprId) (environment : CallableEnvironmentId)
  | metadataSpecMethod (invocation : CodeFingerprint)
      (environment : Option CallableEnvironmentId)
  | interface (index : ℕ)
  | graph (graph : CodeFingerprint) (parameter : CallableValueParameter)
  deriving DecidableEq

/-- The derived order of the targets: by variant, then by its fields. -/
def ParameterCallTarget.orderKey : ParameterCallTarget → List ℕ
  | .native symbol => [0, symbol]
  | .specMethod call environment => [1, call, environment.origin, environment.application]
  | .metadataSpecMethod invocation none => [2, invocation]
  | .metadataSpecMethod invocation (some environment) =>
      [2, invocation, environment.origin, environment.application]
  | .interface index => [3, index]
  | .graph code ⟨none, position⟩ => [4, code, 0, position]
  | .graph code ⟨some value, position⟩ => [4, code, 1, value, position]

structure ParameterCallRef where
  target : ParameterCallTarget
  parameter : String
  span : Span
  deriving DecidableEq

/-- What tells calls apart: the target and the place. The name of the parameter is not part of
it. -/
structure CallKey where
  target : ParameterCallTarget
  span : Span
  deriving DecidableEq

def CallKey.orderKey (key : CallKey) : List ℕ ×ₗ List ℕ :=
  toLex (key.target.orderKey, [key.span.source, key.span.start, key.span.stop])

def ParameterCallRef.key (call : ParameterCallRef) : CallKey := ⟨call.target, call.span⟩

inductive ActionTraceDomain where
  | empty
  | event (event : ActionEvent)
  | parameterCall (target : ParameterCallTarget) (parameter : String) (span : Span)
  | parallel (parts : List ActionTraceDomain)
  | taskStart (taskSite : HirExprId) (body : ActionTraceDomain)
  | taskAwait (taskSite : HirExprId)
  | seq (parts : List ActionTraceDomain)
  | choice (parts : List ActionTraceDomain)
  | repeat (inner : ActionTraceDomain)
  | unknownOrder (actions : EffectSet)
  | widened (actions : EffectSet) (parameterCalls : List ParameterCallRef)

namespace ActionTraceDomain

mutual

def beq : ActionTraceDomain → ActionTraceDomain → Bool
  | .empty, .empty => true
  | .event a, .event b => a == b
  | .parameterCall t p s, .parameterCall t' p' s' => t == t' && p == p' && s == s'
  | .parallel a, .parallel b => beqParts a b
  | .taskStart s a, .taskStart s' b => s == s' && beq a b
  | .taskAwait s, .taskAwait s' => s == s'
  | .seq a, .seq b => beqParts a b
  | .choice a, .choice b => beqParts a b
  | .repeat a, .repeat b => beq a b
  | .unknownOrder a, .unknownOrder b => a == b
  | .widened a c, .widened b d => a == b && c == d
  | _, _ => false

def beqParts : List ActionTraceDomain → List ActionTraceDomain → Bool
  | [], [] => true
  | a :: as, b :: bs => beq a b && beqParts as bs
  | _, _ => false

end

mutual

theorem beq_iff : (a b : ActionTraceDomain) → (beq a b = true ↔ a = b)
  | .parallel a, b => by cases b <;> simp [beq, beqParts_iff a]
  | .seq a, b => by cases b <;> simp [beq, beqParts_iff a]
  | .choice a, b => by cases b <;> simp [beq, beqParts_iff a]
  | .repeat a, b => by cases b <;> simp [beq, beq_iff a]
  | .taskStart s a, b => by cases b <;> simp [beq, beq_iff a]
  | .empty, b => by cases b <;> simp [beq]
  | .event _, b => by cases b <;> simp [beq]
  | .parameterCall _ _ _, b => by cases b <;> simp [beq, and_assoc]
  | .taskAwait _, b => by cases b <;> simp [beq]
  | .unknownOrder _, b => by cases b <;> simp [beq]
  | .widened _ _, b => by cases b <;> simp [beq]

theorem beqParts_iff : (a b : List ActionTraceDomain) → (beqParts a b = true ↔ a = b)
  | [], b => by cases b <;> simp [beqParts]
  | a :: as, b => by cases b <;> simp [beqParts, beq_iff a, beqParts_iff as]

end

instance : DecidableEq ActionTraceDomain := fun a b => decidable_of_iff _ (beq_iff a b)

/-! The loops over a trace visit its nodes from a stack. -/

mutual

/-- Nodes in the order they are popped when the parts are pushed first to last. -/
def visited : ActionTraceDomain → List ActionTraceDomain
  | .parallel parts => .parallel parts :: visitedParts parts
  | .seq parts => .seq parts :: visitedParts parts
  | .choice parts => .choice parts :: visitedParts parts
  | .repeat inner => .repeat inner :: visited inner
  | .taskStart site body => .taskStart site body :: visited body
  | trace => [trace]

def visitedParts : List ActionTraceDomain → List ActionTraceDomain
  | [] => []
  | part :: parts => visitedParts parts ++ visited part

end

mutual

/-- Nodes in the order they are popped when the parts are pushed last to first. -/
def preorder : ActionTraceDomain → List ActionTraceDomain
  | .parallel parts => .parallel parts :: preorderParts parts
  | .seq parts => .seq parts :: preorderParts parts
  | .choice parts => .choice parts :: preorderParts parts
  | .repeat inner => .repeat inner :: preorder inner
  | .taskStart site body => .taskStart site body :: preorder body
  | trace => [trace]

def preorderParts : List ActionTraceDomain → List ActionTraceDomain
  | [] => []
  | part :: parts => preorder part ++ preorderParts parts

end

def fixpointTraceNodeLimit : ℕ := 32

/-- `node_count` stops as soon as the limit is passed. -/
def nodeCount (trace : ActionTraceDomain) : ℕ :=
  min trace.visited.length (fixpointTraceNodeLimit + 1)

def containsRepeat (trace : ActionTraceDomain) : Bool :=
  trace.visited.any fun
    | .repeat _ => true
    | _ => false

def hasParameterCalls (trace : ActionTraceDomain) : Bool :=
  trace.visited.any fun
    | .parameterCall _ _ _ => true
    | .widened _ calls => !calls.isEmpty
    | _ => false

/-- Actions and calls at a node itself. -/
def ownActions : ActionTraceDomain → EffectSet
  | .unknownOrder actions | .widened actions _ => actions
  | .event e => {e.action}
  | _ => ∅

def ownCalls : ActionTraceDomain → List ParameterCallRef
  | .parameterCall target parameter span => [⟨target, parameter, span⟩]
  | .widened _ calls => calls
  | _ => []

def collectActions (nodes : List ActionTraceDomain) : EffectSet :=
  nodes.foldl (fun actions node => actions ∪ node.ownActions) ∅

/-- Of calls with one key the one visited last is kept. -/
def collectParameterCalls (nodes : List ActionTraceDomain) : Map CallKey ParameterCallRef :=
  Map.ofList ((nodes.flatMap ownCalls).map fun call => (call.key, call))

def callValues (calls : Map CallKey ParameterCallRef) : List ParameterCallRef :=
  (calls.toList.insertionSort fun a b => a.1.orderKey ≤ b.1.orderKey).map Prod.snd

def actionSet (trace : ActionTraceDomain) : EffectSet := collectActions trace.visited

def parameterCalls (trace : ActionTraceDomain) : List ParameterCallRef :=
  callValues (collectParameterCalls trace.visited)

/-- The trace of the given nodes in no order. -/
def widenNodes (nodes : List ActionTraceDomain) : ActionTraceDomain :=
  let actions := collectActions nodes
  let calls := collectParameterCalls nodes
  if actions = ∅ ∧ calls.toList = [] then .empty else .widened actions (callValues calls)

def intoWidened (trace : ActionTraceDomain) : ActionTraceDomain := widenNodes trace.preorder

def mergeWidened (left right : ActionTraceDomain) : ActionTraceDomain :=
  widenNodes (left.preorder ++ right.preorder)

def widenIfNeeded (trace : ActionTraceDomain) : ActionTraceDomain :=
  if trace.nodeCount ≤ fixpointTraceNodeLimit ∧ trace.containsRepeat = false then trace
  else trace.intoWidened

def stabilizeForFixpoint (trace : ActionTraceDomain) (current : Option ActionTraceDomain) :
    ActionTraceDomain :=
  if fixpointTraceNodeLimit < trace.nodeCount || trace.containsRepeat ||
    current.any containsRepeat then trace.intoWidened
  else trace

/-- Unordered actions with another trace. -/
def absorb (left : EffectSet) (right : ActionTraceDomain) : ActionTraceDomain :=
  if (right matches .widened _ _) || !right.parameterCalls.isEmpty then
    mergeWidened (.unknownOrder left) right
  else .unknownOrder (left ∪ right.actionSet)

/-- The arms of `seq`, before the size is checked. -/
def seqArms : ActionTraceDomain → ActionTraceDomain → ActionTraceDomain
  | .empty, right => right
  | left, .empty => left
  | .unknownOrder left, .unknownOrder right => .unknownOrder (left ∪ right)
  | .widened actions calls, right => mergeWidened (.widened actions calls) right
  | right, .widened actions calls => mergeWidened (.widened actions calls) right
  | .unknownOrder left, right => absorb left right
  | right, .unknownOrder left => absorb left right
  | .seq left, .seq right => .seq (left ++ right)
  | .seq left, right => .seq (left ++ [right])
  | left, .seq right => .seq (left :: right)
  | left, right => .seq [left, right]

/-- The operation `seq`. -/
def seqTrace (left right : ActionTraceDomain) : ActionTraceDomain :=
  (seqArms left right).widenIfNeeded

section
variable (debug : ActionTraceDomain → String)

/-- Alternatives sorted by their printed form, adjacent repetitions dropped. -/
def sortDedup (items : List ActionTraceDomain) : List ActionTraceDomain :=
  (items.insertionSort fun a b => debug a ≤ debug b).destutter (· ≠ ·)

def choiceArms : ActionTraceDomain → ActionTraceDomain → ActionTraceDomain
  | .unknownOrder left, .unknownOrder right => .unknownOrder (left ∪ right)
  | .widened actions calls, right => mergeWidened (.widened actions calls) right
  | right, .widened actions calls => mergeWidened (.widened actions calls) right
  | .unknownOrder left, right => absorb left right
  | right, .unknownOrder left => absorb left right
  | .choice left, .choice right => .choice (sortDedup debug (left ++ right))
  | .choice left, right => .choice (sortDedup debug (left ++ [right]))
  | left, .choice right => .choice (sortDedup debug (left :: right))
  | left, right => .choice (sortDedup debug [left, right])

/-- The operation `choice`; `debug` is the derived printer. -/
def choiceTrace (left right : ActionTraceDomain) : ActionTraceDomain :=
  (if left = right then left else choiceArms debug left right).widenIfNeeded

end

/-- The operation `repeat`. -/
def repeatTrace : ActionTraceDomain → ActionTraceDomain
  | .empty => .empty
  | .repeat inner => .repeat inner
  | other => .repeat other

end ActionTraceDomain
end EtasFrontend.Effects
