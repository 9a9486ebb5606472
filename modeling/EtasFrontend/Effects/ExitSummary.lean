import EtasFrontend.Effects.Summary
import EtasFrontend.Effects.TraceLanguage

/-! The exits of a callable, through every sequence of the operations that change them. -/
namespace EtasFrontend.Effects
open Lib EtasFrontend.Types

/-! The keys, with their derived orders. -/

/-- The end of a callable. What is observed of a value is only compared. -/
inductive CallableOutcome (Observation : Type) where
  | returned (ty : TypeId) (observation : Observation)
  | handlerFinished (ty : TypeId) (observation : Observation)
  | handlerResumed (ty : TypeId) (observation : Observation)
  | raised (error : TypeId)
  | nonReturn
  deriving DecidableEq

def CallableOutcome.orderKey {Observation : Type} :
    CallableOutcome Observation → ℕ ×ₗ TypeId ×ₗ WithBot Observation
  | .returned ty observation => toLex (0, toLex (ty, observation))
  | .handlerFinished ty observation => toLex (1, toLex (ty, observation))
  | .handlerResumed ty observation => toLex (2, toLex (ty, observation))
  | .raised error => toLex (3, toLex (error, ⊥))
  | .nonReturn => toLex (4, toLex (0, ⊥))

inductive ParameterArgumentValue where
  | bool (value : Bool)
  | integer (negative : Bool) (magnitude : ℕ)
  | input (position : ℕ)
  deriving DecidableEq

def ParameterArgumentValue.orderKey : ParameterArgumentValue → List ℕ
  | .bool value => [0, value.toNat]
  | .integer negative magnitude => [1, negative.toNat, magnitude]
  | .input position => [2, position]

structure ParameterExitArgument where
  name : Option String
  ty : TypeId
  source : Span
  value : Option ParameterArgumentValue
  deriving DecidableEq

/-- The order of `FrozenSourceLocation`. -/
def Span.orderKey (span : Span) : List ℕ := [span.source, span.start, span.stop]

def ParameterExitArgument.orderKey (argument : ParameterExitArgument) :
    WithBot String ×ₗ TypeId ×ₗ List ℕ ×ₗ WithBot (List ℕ) :=
  toLex (argument.name, toLex (argument.ty, toLex (argument.source.orderKey,
    argument.value.map ParameterArgumentValue.orderKey)))

inductive ParameterHandlerScopeRef where
  | native (expr : HirExprId)
  | external (graph : CodeFingerprint) (parameterCall callIndex scope : ℕ)
  deriving DecidableEq

def ParameterHandlerScopeRef.orderKey : ParameterHandlerScopeRef → List ℕ
  | .native expr => [0, expr]
  | .external graph parameterCall callIndex scope => [1, graph, parameterCall, callIndex, scope]

/-- What a parameter exit is recorded under. -/
structure ParameterExitSite where
  target : ParameterCallTarget
  output : TypeId
  source : Span
  arguments : Option (List ParameterExitArgument)
  enclosingHandlers : Option (List ParameterHandlerScopeRef)
  deriving DecidableEq

namespace ParameterExitSite

def orderKey (site : ParameterExitSite) : List ℕ ×ₗ TypeId ×ₗ List ℕ ×ₗ
    WithBot (List (WithBot String ×ₗ TypeId ×ₗ List ℕ ×ₗ WithBot (List ℕ))) ×ₗ
      WithBot (List (List ℕ)) :=
  toLex (site.target.orderKey, toLex (site.output, toLex (site.source.orderKey,
    toLex (site.arguments.map fun arguments => arguments.map ParameterExitArgument.orderKey,
      site.enclosingHandlers.map fun scopes => scopes.map ParameterHandlerScopeRef.orderKey))))

/-- The comparison of `stabilize`, which does not look at the enclosing handlers. -/
def sameCall (site other : ParameterExitSite) : Bool :=
  site.target = other.target && site.output = other.output && site.source = other.source &&
    site.arguments = other.arguments

end ParameterExitSite

section
variable (Observation : Type) [LinearOrder Observation] (rest : SummaryData)

/-- Outcomes and sites as they are in the source, and the other data. -/
abbrev exitData : SummaryData where
  Outcome := CallableOutcome Observation
  ExitSite := ParameterExitSite
  Gap := rest.Gap
  HandlerGap := rest.HandlerGap
  RequestSignature := rest.RequestSignature
  ResidualRef := rest.ResidualRef
  RequirementFact := rest.RequirementFact
  outcomeLe left right := decide (left.orderKey ≤ right.orderKey)
  exitSiteLe left right := decide (left.orderKey ≤ right.orderKey)
  effectLe := rest.effectLe
  debug := rest.debug

end

variable {Observation : Type} [LinearOrder Observation] {rest : SummaryData}

/-- The summary of a callable. -/
abbrev ExitSummary (Observation : Type) [LinearOrder Observation] (rest : SummaryData) :=
  CallableExitSummary (exitData Observation rest)

namespace CallableExitSummary

def empty {D : SummaryData} : CallableExitSummary D := ⟨[], ∅, [], ∅⟩

def record {D : SummaryData} (self : CallableExitSummary D) (exit : ExitTraceFact D) :
    CallableExitSummary D × Bool :=
  let (exits, changed) := (exitEntries D).record self.exits exit
  ({ self with exits }, changed)

def recordParameterExit {D : SummaryData} (self : CallableExitSummary D)
    (exit : ParameterExitFact D) : CallableExitSummary D × Bool :=
  let (parameterExits, changed) := (parameterExitEntries D).record self.parameterExits exit
  ({ self with parameterExits }, changed)

def stabilize (self : ExitSummary Observation rest)
    (previous : Option (ExitSummary Observation rest)) : ExitSummary Observation rest :=
  { self with
    exits := self.exits.map fun exit =>
      let old := previous.bind fun previous =>
        previous.exits.find? fun old => old.outcome = exit.outcome
      { exit with trace := exit.trace.stabilizeForFixpoint (old.map (·.trace)) }
    parameterExits := self.parameterExits.map fun exit =>
      let old := previous.bind fun previous =>
        previous.parameterExits.find? fun old => ParameterExitSite.sameCall old.site exit.site
      { exit with before := exit.before.stabilizeForFixpoint (old.map (·.before)) } }

end CallableExitSummary

/-! Sequences of operations. -/

/-- How a summary came about. A stabilization may look at an earlier summary. -/
inductive ExitHistory (Observation : Type) [LinearOrder Observation] (rest : SummaryData) where
  | empty
  | record (before : ExitHistory Observation rest)
      (exit : ExitTraceFact (exitData Observation rest))
  | recordParameterExit (before : ExitHistory Observation rest)
      (exit : ParameterExitFact (exitData Observation rest))
  | recordGap (before : ExitHistory Observation rest) (gap : rest.Gap)
  | recordHandlerGap (before : ExitHistory Observation rest) (gap : rest.HandlerGap)
  | join (left right : ExitHistory Observation rest)
  | stabilize (before : ExitHistory Observation rest)
  | stabilizeOver (before previous : ExitHistory Observation rest)

namespace ExitHistory

def summary : ExitHistory Observation rest → ExitSummary Observation rest
  | .empty => .empty
  | .record before exit => (before.summary.record exit).1
  | .recordParameterExit before exit => (before.summary.recordParameterExit exit).1
  | .recordGap before gap => { before.summary with gaps := insert gap before.summary.gaps }
  | .recordHandlerGap before gap =>
    { before.summary with handlerGaps := insert gap before.summary.handlerGaps }
  | .join left right => (left.summary.joinAssign right.summary).1
  | .stabilize before => before.summary.stabilize none
  | .stabilizeOver before previous => before.summary.stabilize (some previous.summary)

/-- All that was recorded, as it was. -/
def recorded : ExitHistory Observation rest → ExitSummary Observation rest
  | .empty => .empty
  | .record before exit => { before.recorded with exits := before.recorded.exits ++ [exit] }
  | .recordParameterExit before exit =>
    { before.recorded with parameterExits := before.recorded.parameterExits ++ [exit] }
  | .recordGap before gap => { before.recorded with gaps := insert gap before.recorded.gaps }
  | .recordHandlerGap before gap =>
    { before.recorded with handlerGaps := insert gap before.recorded.handlerGaps }
  | .join left right =>
    { exits := left.recorded.exits ++ right.recorded.exits
      gaps := left.recorded.gaps ∪ right.recorded.gaps
      parameterExits := left.recorded.parameterExits ++ right.recorded.parameterExits
      handlerGaps := left.recorded.handlerGaps ∪ right.recorded.handlerGaps }
  | .stabilize before => before.recorded
  | .stabilizeOver before _ => before.recorded

end ExitHistory

/-- The order of the outcomes. -/
def OutcomeLe (left right : CallableOutcome Observation) : Prop := left.orderKey ≤ right.orderKey

def SiteLe (left right : ParameterExitSite) : Prop := left.orderKey ≤ right.orderKey

instance : Std.Total (@OutcomeLe Observation _) :=
  ⟨fun left right => le_total left.orderKey right.orderKey⟩

instance : IsTrans (CallableOutcome Observation) OutcomeLe :=
  ⟨fun _ _ _ => le_trans⟩

instance : Std.Total SiteLe := ⟨fun left right => le_total left.orderKey right.orderKey⟩

instance : IsTrans ParameterExitSite SiteLe := ⟨fun _ _ _ => le_trans⟩

/-- The same end, with all the runs before it. -/
def ExitTraceFact.Within {D : SummaryData} (exit top : ExitTraceFact D) : Prop :=
  top.outcome = exit.outcome ∧ exit.trace.lang ≤ top.trace.lang

def ParameterExitFact.Within {D : SummaryData} (exit top : ParameterExitFact D) : Prop :=
  top.site = exit.site ∧ exit.before.lang ≤ top.before.lang

theorem lang_choiceAssign (debug : ActionTraceDomain → String) (a b : ActionTraceDomain) :
    a.lang ≤ (a.choiceAssign debug b).1.lang ∧ b.lang ≤ (a.choiceAssign debug b).1.lang := by
  have hsum : a.lang + b.lang ≤ (a.choiceAssign debug b).1.lang :=
    (ActionTraceDomain.approximates_choiceTrace a b debug).lang
  exact ⟨le_sup_left.trans hsum, le_sup_right.trans hsum⟩

theorem merges_exits :
    (exitEntries (exitData Observation rest)).Merges OutcomeLe ExitTraceFact.Within where
  key _ _ := rfl
  le _ _ := decide_eq_true_iff
  refl _ := ⟨rfl, le_rfl⟩
  trans _ _ _ hab hbc := ⟨hbc.1.trans hab.1, hab.2.trans hbc.2⟩
  join e n hkey := by
    have hlang := lang_choiceAssign rest.debug e.trace n.trace
    exact ⟨⟨rfl, hlang.1⟩, ⟨hkey, hlang.2⟩⟩

theorem merges_parameterExits :
    (parameterExitEntries (exitData Observation rest)).Merges SiteLe ParameterExitFact.Within where
  key _ _ := rfl
  le _ _ := decide_eq_true_iff
  refl _ := ⟨rfl, le_rfl⟩
  trans _ _ _ hab hbc := ⟨hbc.1.trans hab.1, hab.2.trans hbc.2⟩
  join e n hkey := by
    have hlang := lang_choiceAssign rest.debug e.before n.before
    exact ⟨⟨rfl, hlang.1⟩, ⟨hkey, hlang.2⟩⟩

/-- The summary is sorted without repeated keys, and keeps what was recorded and nothing else. -/
structure CallableExitSummary.Keeps (summary recorded : ExitSummary Observation rest) : Prop where
  exits : (exitEntries (exitData Observation rest)).Accounts OutcomeLe ExitTraceFact.Within
    recorded.exits summary.exits
  parameterExits : (parameterExitEntries (exitData Observation rest)).Accounts SiteLe
    ParameterExitFact.Within recorded.parameterExits summary.parameterExits
  gaps : summary.gaps = recorded.gaps
  handlerGaps : summary.handlerGaps = recorded.handlerGaps

namespace CallableExitSummary

theorem Keeps.stabilize {summary recorded : ExitSummary Observation rest}
    (h : summary.Keeps recorded) (previous : Option (ExitSummary Observation rest)) :
    (summary.stabilize previous).Keeps recorded where
  exits := h.exits.map merges_exits (fun _ => rfl) fun exit =>
    ⟨rfl, (ActionTraceDomain.approximates_stabilize exit.trace _).lang⟩
  parameterExits := h.parameterExits.map merges_parameterExits (fun _ => rfl) fun exit =>
    ⟨rfl, (ActionTraceDomain.approximates_stabilize exit.before _).lang⟩
  gaps := h.gaps
  handlerGaps := h.handlerGaps

/-- By induction over the history, with one case for each operation. -/
theorem keeps_history (history : ExitHistory Observation rest) :
    history.summary.Keeps history.recorded := by
  induction history with
  | empty => exact ⟨.nil _ _ _, .nil _ _ _, rfl, rfl⟩
  | record before exit ih => exact { ih with exits := ih.exits.record merges_exits exit }
  | recordParameterExit before exit ih =>
    exact { ih with parameterExits := ih.parameterExits.record merges_parameterExits exit }
  | recordGap before gap ih => exact { ih with gaps := congrArg (insert gap) ih.gaps }
  | recordHandlerGap before gap ih =>
    exact { ih with handlerGaps := congrArg (insert gap) ih.handlerGaps }
  | join left right ihl ihr =>
    constructor
    · exact ihl.exits.recordAll merges_exits ihr.exits
    · exact ihl.parameterExits.recordAll merges_parameterExits ihr.parameterExits
    · exact congrArg₂ (· ∪ ·) ihl.gaps ihr.gaps
    · exact congrArg₂ (· ∪ ·) ihl.handlerGaps ihr.handlerGaps
  | stabilize before ih => exact ih.stabilize none
  | stabilizeOver before previous ih _ => exact ih.stabilize _

/-- Two summaries with the same keys. -/
structure SameKeys (a b : ExitSummary Observation rest) : Prop where
  outcomes : ∀ outcome, outcome ∈ a.exits.map (·.outcome) ↔ outcome ∈ b.exits.map (·.outcome)
  sites : ∀ site, site ∈ a.parameterExits.map (·.site) ↔ site ∈ b.parameterExits.map (·.site)
  gaps : a.gaps = b.gaps
  handlerGaps : a.handlerGaps = b.handlerGaps

theorem sameKeys_joinAssign (a b : ExitSummary Observation rest) :
    SameKeys (a.joinAssign b).1 (b.joinAssign a).1 where
  outcomes _ := (Keyed.mem_keys_recordAll merges_exits.key).trans
    (or_comm.trans (Keyed.mem_keys_recordAll merges_exits.key).symm)
  sites _ := (Keyed.mem_keys_recordAll merges_parameterExits.key).trans
    (or_comm.trans (Keyed.mem_keys_recordAll merges_parameterExits.key).symm)
  gaps := Finset.union_comm ..
  handlerGaps := Finset.union_comm ..

/-- Whatever the operations and their order, the summary has each key once, in order, and loses
nothing; a join has the keys of the other join. -/
theorem operations_keep (Observation : Type) [LinearOrder Observation] (rest : SummaryData) :
    (∀ history : ExitHistory Observation rest, history.summary.Keeps history.recorded) ∧
      ∀ a b : ExitSummary Observation rest, SameKeys (a.joinAssign b).1 (b.joinAssign a).1 :=
  ⟨keeps_history, sameKeys_joinAssign⟩

end CallableExitSummary
end EtasFrontend.Effects
