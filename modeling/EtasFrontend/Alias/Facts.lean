import EtasFrontend.Alias.SummaryLattice
import EtasFrontend.Lib.LastWrite
import EtasFrontend.Lib.StateWrites

/-! The facts that an alias analysis publishes, and what it keeps beside the states of its domain. -/
namespace EtasFrontend.Alias
open Lib
open Hir (HirExprId SymbolId)

/-- What a fact is about. -/
inductive Subject where
  | expr (expr : HirExprId)
  | symbol (symbol : SymbolId)
  deriving DecidableEq

/-- Nothing is ever added to the escaped places of the source. -/
structure AliasFacts where
  exprAliases : Map HirExprId AliasValue
  symbolAliases : Map SymbolId AliasValue
  unitSummaries : Map HirSemanticUnit UnitSummary
  unknownExprs : Finset HirExprId
  incompleteUnits : Finset HirSemanticUnit

namespace AliasFacts

def empty : AliasFacts := ⟨∅, ∅, ∅, ∅, ∅⟩

def recordExpr (facts : AliasFacts) (expr : HirExprId) (value : AliasValue) : AliasFacts :=
  { facts with
    unknownExprs := if value.isUnknown then insert expr facts.unknownExprs else facts.unknownExprs
    exprAliases := facts.exprAliases.insert expr value }

def recordSymbol (facts : AliasFacts) (symbol : SymbolId) (value : AliasValue) : AliasFacts :=
  { facts with symbolAliases := facts.symbolAliases.insert symbol value }

def recordSummary (facts : AliasFacts) (unit : HirSemanticUnit) (summary : UnitSummary) :
    AliasFacts :=
  let unknown := match summary.returnAlias with
    | .unknown => true
    | _ => false
  { facts with
    incompleteUnits := if summary.incomplete || unknown then insert unit facts.incompleteUnits
      else facts.incompleteUnits
    unitSummaries := facts.unitSummaries.insert unit summary }

def record (facts : AliasFacts) : Subject → AliasValue → AliasFacts
  | .expr e, value => facts.recordExpr e value
  | .symbol s, value => facts.recordSymbol s value

def recorded (facts : AliasFacts) : Subject → Option AliasValue
  | .expr e => facts.exprAliases.get e
  | .symbol s => facts.symbolAliases.get s

/-- The facts are safe to read for all values that were computed, the newest first. -/
structure Sound (facts : AliasFacts) (computed : List (Subject × AliasValue)) : Prop where
  above : ∀ subject value, (subject, value) ∈ computed →
    ∃ recorded, facts.recorded subject = some recorded ∧ value.lessEqual recorded = true
  unknown : ∀ expr, expr ∈ facts.unknownExprs ↔
    ∃ recorded, facts.recorded (.expr expr) = some recorded ∧ recorded.isUnknown = true

/-- The facts are those of the records. -/
structure Replays (facts : AliasFacts) (computed : List (Subject × AliasValue)) : Prop where
  recorded : ∀ subject, facts.recorded subject = lastWrite computed subject
  unknown : ∀ expr, expr ∈ facts.unknownExprs ↔
    ∃ value, (Subject.expr expr, value) ∈ computed ∧ value.isUnknown = true

variable {facts : AliasFacts} {computed : List (Subject × AliasValue)}

theorem recorded_record (facts : AliasFacts) (subject : Subject) (value : AliasValue)
    (other : Subject) : (facts.record subject value).recorded other =
      if other = subject then some value else facts.recorded other := by
  cases subject with
  | expr e =>
    cases other with
    | expr e' =>
      change (facts.exprAliases.insert e value).get e' = _
      rw [Map.get_insert]
      simp [recorded]
    | symbol s => rfl
  | symbol s =>
    cases other with
    | expr e => rfl
    | symbol s' =>
      change (facts.symbolAliases.insert s value).get s' = _
      rw [Map.get_insert]
      simp [recorded]

theorem mem_unknownExprs_record (facts : AliasFacts) (subject : Subject) (value : AliasValue)
    (expr : HirExprId) : expr ∈ (facts.record subject value).unknownExprs ↔
      (subject = .expr expr ∧ value.isUnknown = true) ∨ expr ∈ facts.unknownExprs := by
  cases subject with
  | symbol s => simp [record, recordSymbol]
  | expr e =>
    change expr ∈ (if value.isUnknown then insert e facts.unknownExprs else facts.unknownExprs) ↔ _
    cases value.isUnknown with
    | false => simp
    | true =>
      rw [if_pos rfl, Finset.mem_insert, Subject.expr.injEq]
      simp only [and_true, eq_comm]

theorem Replays.empty : AliasFacts.empty.Replays [] := by
  refine ⟨fun subject => ?_, fun expr => ?_⟩
  · cases subject with
    | expr e => rfl
    | symbol s => rfl
  · simp [AliasFacts.empty]

theorem Replays.record (h : facts.Replays computed) (subject : Subject) (value : AliasValue) :
    (facts.record subject value).Replays ((subject, value) :: computed) := by
  refine ⟨fun other => ?_, fun expr => ?_⟩
  · rw [recorded_record, h.recorded other]
    rfl
  · rw [mem_unknownExprs_record, h.unknown]
    constructor
    · intro hor
      rcases hor with ⟨hsubject, hvalue⟩ | ⟨v, hmem, hv⟩
      · subst hsubject
        exact ⟨value, List.mem_cons_self, hvalue⟩
      · exact ⟨v, List.mem_cons_of_mem _ hmem, hv⟩
    · intro hex
      obtain ⟨v, hmem, hv⟩ := hex
      rcases List.mem_cons.mp hmem with heq | hmem
      · cases heq
        exact Or.inl ⟨rfl, hv⟩
      · exact Or.inr ⟨v, hmem, hv⟩

theorem Replays.sound_iff (h : facts.Replays computed) :
    facts.Sound computed ↔ Dominated (fun a b => AliasValue.lessEqual a b = true) computed := by
  constructor
  · intro hsound subject value hmem
    obtain ⟨recorded, hrecorded, hle⟩ := hsound.above subject value hmem
    rw [h.recorded] at hrecorded
    exact ⟨recorded, hrecorded, hle⟩
  · intro hdominated
    refine ⟨fun subject value hmem => ?_, fun expr => ?_⟩
    · rw [h.recorded]
      exact hdominated subject value hmem
    · rw [h.unknown, h.recorded]
      constructor
      · intro hex
        obtain ⟨value, hmem, hvalue⟩ := hex
        obtain ⟨last, hlast, hle⟩ := hdominated _ value hmem
        exact ⟨last, hlast, AliasValue.isUnknown_of_lessEqual hle hvalue⟩
      · intro hex
        obtain ⟨last, hlast, hunknown⟩ := hex
        exact ⟨last, mem_of_lastWrite hlast, hunknown⟩

end AliasFacts
end EtasFrontend.Alias
