import EtasFrontend.Effects.TraceSpec
import EtasFrontend.Hir.Program
import EtasFrontend.Lib.NormalForm
import EtasFrontend.Residual.Eligibility

/-! The alternatives of a trace expression. -/
namespace EtasFrontend.Residual
open Lib Effects

inductive HirSpecExpr where
  | atom (pattern : Hir.HirEffectRef)
  | allow (pattern : Hir.HirEffectRef) (span : Hir.Span)
  | deny (pattern : Hir.HirEffectRef) (span : Hir.Span)
  | and (lhs rhs : HirSpecExpr) (span : Hir.Span)
  | or (lhs rhs : HirSpecExpr) (span : Hir.Span)
  | before (before after : HirSpecExpr) (span : Hir.Span)
  | after (after before : HirSpecExpr) (span : Hir.Span)

def HirSpecExpr.span : HirSpecExpr → Hir.Span
  | .atom pattern => pattern.span
  | .allow _ span | .deny _ span | .and _ _ span | .or _ _ span | .before _ _ span
  | .after _ _ span => span

inductive TraceSpecClause where
  | allow (pattern : TraceSpecPattern) (span : Hir.Span) (sourcePath : Option (List ℕ))
    (sourceClause : Option ClauseId)
  | deny (pattern : TraceSpecPattern) (span : Hir.Span) (sourcePath : Option (List ℕ))
    (sourceClause : Option ClauseId)
  | requireBefore (guard target : TraceSpecPattern) (span : Hir.Span)
    (sourcePath : Option (List ℕ)) (sourceClause : Option ClauseId)
  | requireAfter (target obligation : TraceSpecPattern) (span : Hir.Span)
    (sourcePath : Option (List ℕ)) (sourceClause : Option ClauseId)
  | limit

def TraceSpecClause.sourceClause : TraceSpecClause → Option ClauseId
  | .allow _ _ _ id | .deny _ _ _ id | .requireBefore _ _ _ _ id | .requireAfter _ _ _ _ id => id
  | .limit => none

abbrev TraceSpecClauseAlternatives := List (List TraceSpecClause)

/-- The limits of the graphs of package metadata. -/
structure MetadataLimits where
  depth : ℕ
  nodes : ℕ
  /-- One clause is within the limit. -/
  two_le_nodes : 2 ≤ nodes
  nodes_lt : nodes < 2 ^ 64

/-! Sizes, in the arithmetic of a machine word. -/

def checkedAdd (a b : ℕ) : Option ℕ := if a + b < 2 ^ 64 then some (a + b) else none

def checkedMul (a b : ℕ) : Option ℕ := if a * b < 2 ^ 64 then some (a * b) else none

def checkedSub (a b : ℕ) : Option ℕ := if b ≤ a then some (a - b) else none

section
variable {α : Type}

def alternativesSize (alternatives : List (List α)) : Option ℕ :=
  alternatives.foldlM (fun size clauses => checkedAdd size clauses.length) alternatives.length

def conjunctionSize (left right : List (List α)) : Option (ℕ × ℕ) := do
  let count ← checkedMul left.length right.length
  let leftSize ← alternativesSize left
  let leftClauses ← checkedSub leftSize left.length
  let rightSize ← alternativesSize right
  let rightClauses ← checkedSub rightSize right.length
  let copiedLeft ← checkedMul leftClauses right.length
  let size ← checkedAdd count copiedLeft
  let copiedRight ← checkedMul rightClauses left.length
  let size ← checkedAdd size copiedRight
  return (count, size)

def conjoinAlternatives (limits : MetadataLimits) (left right : List (List α)) :
    Option (List (List α)) := do
  let (_, size) ← conjunctionSize left right
  if limits.nodes < size then none
  else
    let products ← left.mapM fun leftClauses => right.mapM fun rightClauses => do
      let _ ← checkedAdd leftClauses.length rightClauses.length
      return leftClauses ++ rightClauses
    return products.flatten

def disjunctionFits (limits : MetadataLimits) (left right : List (List α)) : Bool :=
  match (do
    let leftSize ← alternativesSize left
    let rightSize ← alternativesSize right
    checkedAdd leftSize rightSize) with
  | none => false
  | some size => size ≤ limits.nodes

end

structure Diagnostic where
  span : Hir.Span
  message : String

/-- Clause sites are opaque: a site is made from a checked source, and has an identity. -/
structure TraceSpecMaterializer (Site : Type) where
  patternFromEffectRef : Hir.HirEffectRef →
    Except EffectPipelineError (Option TraceSpecPattern × List Diagnostic)
  /-- There is none where the source has no checked snapshot. -/
  sourceSite : Hir.Span → List ℕ → Except EffectPipelineError (Option Site)
  siteId : Site → ClauseId
  limits : MetadataLimits

structure MaterializerState (Site : Type) where
  sourceClauseSites : Map ClauseId Site
  diagnostics : List Diagnostic

abbrev MaterializerM (Site : Type) := StateT (MaterializerState Site) (Except EffectPipelineError)

def depthMessage : String := "trace spec source structure exceeds the depth limit"

def alternativeLimitMessage : String :=
  "trace spec alternatives exceed the metadata graph node limit"

def operandMessage : String := "temporal trace spec operands must be action patterns"

namespace TraceSpecMaterializer
variable {Site : Type} [DecidableEq Site] (m : TraceSpecMaterializer Site)

def diagnostic (span : Hir.Span) (message : String) : MaterializerM Site Unit := fun state =>
  .ok ((), { state with diagnostics := state.diagnostics ++ [⟨span, message⟩] })

def pattern (effectRef : Hir.HirEffectRef) : MaterializerM Site (Option TraceSpecPattern) :=
  fun state =>
    match m.patternFromEffectRef effectRef with
    | .error error => .error error
    | .ok (pattern, diagnostics) =>
      .ok (pattern, { state with diagnostics := state.diagnostics ++ diagnostics })

def patternOperand : HirSpecExpr → MaterializerM Site (Option TraceSpecPattern)
  | .atom pattern | .allow pattern _ | .deny pattern _ => m.pattern pattern
  | expr => do
    diagnostic expr.span operandMessage
    return none

def sourceClause (span : Hir.Span) (path : List ℕ) : MaterializerM Site (Option ClauseId) :=
  fun state =>
    match m.sourceSite span path with
    | .error error => .error error
    | .ok none => .ok (none, state)
    | .ok (some site) =>
      let id := m.siteId site
      if (state.sourceClauseSites.get id).any fun previous => previous != site then
        .error (.other "conflicting clause source identities")
      else
        .ok (some id, { state with sourceClauseSites := state.sourceClauseSites.insert id site })

def patternClause (effectRef : Hir.HirEffectRef) (span : Hir.Span) (path : List ℕ)
    (clause : TraceSpecPattern → Option ClauseId → TraceSpecClause) :
    MaterializerM Site (Option TraceSpecClauseAlternatives) := do
  match ← m.pattern effectRef with
  | none => return none
  | some pattern =>
    let id ← m.sourceClause span path
    return some [[clause pattern id]]

def temporalClause (first second : HirSpecExpr) (span : Hir.Span) (path : List ℕ)
    (clause : TraceSpecPattern → TraceSpecPattern → Option ClauseId → TraceSpecClause) :
    MaterializerM Site (Option TraceSpecClauseAlternatives) := do
  match ← m.patternOperand first with
  | none => return none
  | some firstPattern =>
    match ← m.patternOperand second with
    | none => return none
    | some secondPattern =>
      let id ← m.sourceClause span path
      return some [[clause firstPattern secondPattern id]]

def alternativesFromExprAt (expr : HirSpecExpr) (sourcePath : List ℕ) :
    MaterializerM Site (Option TraceSpecClauseAlternatives) :=
  if m.limits.depth < sourcePath.length then do
    diagnostic expr.span depthMessage
    return none
  else
    match expr with
    | .atom pattern =>
      m.patternClause pattern pattern.span sourcePath fun row id =>
        .allow row pattern.span (some sourcePath) id
    | .allow pattern span =>
      m.patternClause pattern span sourcePath fun row id => .allow row span (some sourcePath) id
    | .deny pattern span =>
      m.patternClause pattern span sourcePath fun row id => .deny row span (some sourcePath) id
    | .and lhs rhs span => do
      match ← alternativesFromExprAt lhs (sourcePath ++ [0]) with
      | none => return none
      | some left =>
        match ← alternativesFromExprAt rhs (sourcePath ++ [1]) with
        | none => return none
        | some right =>
          match conjoinAlternatives m.limits left right with
          | some alternatives => return some alternatives
          | none =>
            diagnostic span alternativeLimitMessage
            return none
    | .or lhs rhs span => do
      match ← alternativesFromExprAt lhs (sourcePath ++ [0]) with
      | none => return none
      | some left =>
        match ← alternativesFromExprAt rhs (sourcePath ++ [1]) with
        | none => return none
        | some right =>
          if disjunctionFits m.limits left right then return some (left ++ right)
          else
            diagnostic span alternativeLimitMessage
            return none
    | .before before after span =>
      m.temporalClause before after span sourcePath fun guard target id =>
        .requireBefore guard target span (some sourcePath) id
    | .after after before span =>
      m.temporalClause before after span sourcePath fun target obligation id =>
        .requireAfter target obligation span (some sourcePath) id

def alternativesFromExpr (expr : HirSpecExpr) :
    MaterializerM Site (Option TraceSpecClauseAlternatives) :=
  m.alternativesFromExprAt expr []

end TraceSpecMaterializer

/-! What an expression says: a formula over its clauses, each at its place in the expression. -/

def HirSpecExpr.formula : HirSpecExpr → List ℕ → Formula (HirSpecExpr × List ℕ)
  | .and lhs rhs _, path => .and (lhs.formula (path ++ [0])) (rhs.formula (path ++ [1]))
  | .or lhs rhs _, path => .or (lhs.formula (path ++ [0])) (rhs.formula (path ++ [1]))
  | expr, path => .leaf (expr, path)

namespace TraceSpecMaterializer
variable {Site : Type} [DecidableEq Site] (m : TraceSpecMaterializer Site)

def resolved (effectRef : Hir.HirEffectRef) : Option TraceSpecPattern :=
  match m.patternFromEffectRef effectRef with
  | .ok (some pattern, []) => some pattern
  | _ => none

def resolvedOperand : HirSpecExpr → Option TraceSpecPattern
  | .atom pattern | .allow pattern _ | .deny pattern _ => m.resolved pattern
  | _ => none

def clauseId (span : Hir.Span) (path : List ℕ) : Option ClauseId :=
  match m.sourceSite span path with
  | .ok (some site) => some (m.siteId site)
  | _ => none

/-- The clause of a place, if its patterns resolve. -/
def clauseOf : HirSpecExpr × List ℕ → Option TraceSpecClause
  | (.atom pattern, path) => (m.resolved pattern).map fun row =>
    .allow row pattern.span (some path) (m.clauseId pattern.span path)
  | (.allow pattern span, path) => (m.resolved pattern).map fun row =>
    .allow row span (some path) (m.clauseId span path)
  | (.deny pattern span, path) => (m.resolved pattern).map fun row =>
    .deny row span (some path) (m.clauseId span path)
  | (.before before after span, path) => do
    let guard ← m.resolvedOperand before
    let target ← m.resolvedOperand after
    return .requireBefore guard target span (some path) (m.clauseId span path)
  | (.after after before span, path) => do
    let target ← m.resolvedOperand before
    let obligation ← m.resolvedOperand after
    return .requireAfter target obligation span (some path) (m.clauseId span path)
  | _ => none

/-- The sites of the recorded clauses are among `sites`. -/
def Recorded (sites : Set Site) (state : MaterializerState Site) : Prop :=
  ∀ id site, state.sourceClauseSites.get id = some site → site ∈ sites ∧ m.siteId site = id

/-- A place within the depth limit, with a site among `sites` where its source is checked. -/
structure Placed (sites : Set Site) (leaf : HirSpecExpr × List ℕ) : Prop where
  depth : leaf.2.length ≤ m.limits.depth
  site : ∃ site, m.sourceSite leaf.1.span leaf.2 = .ok site ∧ ∀ s ∈ site, s ∈ sites

end TraceSpecMaterializer
end EtasFrontend.Residual
