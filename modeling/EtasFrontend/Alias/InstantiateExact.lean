import EtasFrontend.Alias.FactsExact
import EtasFrontend.Alias.SummaryExact
import EtasFrontend.Lib.Graph

/-! When the captures of a summary can be resolved at a call, whatever the tables hold. -/
namespace EtasFrontend.Alias
open Lib
open Analysis (Control)
open Hir (HirProgram HirExprId SymbolId)

/-- The expression reads the captured symbol. -/
inductive Mentions (symbol : SymbolId) : AliasValueExpr → Prop
  | captured : Mentions symbol (.captured symbol)
  | project {base : AliasValueExpr} (projection : Projection) (h : Mentions symbol base) :
      Mentions symbol (.project base projection)
  | union {values : List AliasValueExpr} {value : AliasValueExpr} (hmem : value ∈ values)
      (h : Mentions symbol value) : Mentions symbol (.union values)

/-- Resolving the one symbol comes to the other. -/
def Leads (captures : Map SymbolId AliasValueExpr) (symbol next : SymbolId) : Prop :=
  ∃ value, captures.get symbol = some value ∧ Mentions next value

/-- Neither a symbol nor made of parts. -/
def AliasValueExpr.IsLeaf : AliasValueExpr → Prop
  | .captured _ | .project _ _ | .union _ => False
  | _ => True

/-- How far a way to instantiate descends; `resolve` is the way for what a symbol stands for. -/
structure Descends (captures : Map SymbolId AliasValueExpr)
    (resolve instantiate : ℕ → AliasValueExpr → Option AliasValue) : Prop where
  zero : ∀ value, instantiate 0 value = none
  captured : ∀ n symbol, instantiate (n + 1) (.captured symbol) = none ↔
    ∃ value, captures.get symbol = some value ∧ resolve n value = none
  project : ∀ n base projection, instantiate (n + 1) (.project base projection) = none ↔
    instantiate n base = none
  union : ∀ n values, instantiate (n + 1) (.union values) = none ↔
    ∃ value ∈ values, instantiate n value = none
  leaf : ∀ n value, value.IsLeaf → instantiate (n + 2) value ≠ none

/-- With enough depth there is a result. -/
def Settles (instantiate : ℕ → AliasValueExpr → Option AliasValue) (value : AliasValueExpr) : Prop :=
  ∃ enough, ∀ n ≥ enough, instantiate n value ≠ none

/-- The resolution of everything that the expression reads comes to an end. -/
def Grounded (captures : Map SymbolId AliasValueExpr) (value : AliasValueExpr) : Prop :=
  ∀ symbol, Mentions symbol value → Acc (fun next symbol => Leads captures symbol next) symbol

section
variable {captures : Map SymbolId AliasValueExpr}
  {resolve instantiate : ℕ → AliasValueExpr → Option AliasValue}

theorem Descends.grounded_step (h : Descends captures resolve instantiate) {n : ℕ}
    (hresolve : ∀ value, resolve n value ≠ none → Grounded captures value)
    (hbelow : ∀ value, instantiate n value ≠ none → Grounded captures value)
    {value : AliasValueExpr} (hvalue : instantiate (n + 1) value ≠ none) :
    Grounded captures value := by
  intro symbol hmentions
  cases hmentions with
  | captured =>
    constructor
    intro next hnext
    obtain ⟨value, hget, hnext⟩ := hnext
    have hsome : resolve n value ≠ none :=
      fun hnone => hvalue ((h.captured n symbol).mpr ⟨value, hget, hnone⟩)
    exact hresolve value hsome next hnext
  | project projection hbase =>
    have hsome := fun hnone => hvalue ((h.project n _ projection).mpr hnone)
    exact hbelow _ hsome symbol hbase
  | @union values part hmem hpart =>
    have hsome : instantiate n part ≠ none :=
      fun hnone => hvalue ((h.union n values).mpr ⟨part, hmem, hnone⟩)
    exact hbelow part hsome symbol hpart

/-- By induction over the depth. -/
theorem Descends.grounded (hresolve : Descends captures resolve resolve)
    (h : Descends captures resolve instantiate) (n : ℕ) :
    (∀ value, resolve n value ≠ none → Grounded captures value) ∧
      ∀ value, instantiate n value ≠ none → Grounded captures value := by
  induction n with
  | zero =>
    exact ⟨fun value hvalue => absurd (hresolve.zero value) hvalue,
      fun value hvalue => absurd (h.zero value) hvalue⟩
  | succ n ih =>
    exact ⟨fun value hvalue => hresolve.grounded_step ih.1 ih.1 hvalue,
      fun value hvalue => h.grounded_step ih.1 ih.2 hvalue⟩

theorem exists_depth {values : List AliasValueExpr} (h : ∀ value ∈ values, Settles instantiate value) :
    ∃ enough, ∀ n ≥ enough, ∀ value ∈ values, instantiate n value ≠ none := by
  induction values with
  | nil => exact ⟨0, fun n _ => List.forall_mem_nil _⟩
  | cons value values ih =>
    rw [List.forall_mem_cons] at h
    obtain ⟨enough, henough⟩ := h.1
    obtain ⟨rest, hrest⟩ := ih h.2
    refine ⟨max enough rest, fun n hn => List.forall_mem_cons.mpr ⟨?_, ?_⟩⟩
    · exact henough n (by omega)
    · exact hrest n (by omega)

theorem Descends.settles_leaf (h : Descends captures resolve instantiate) {value : AliasValueExpr}
    (hleaf : value.IsLeaf) : Settles instantiate value := by
  refine ⟨2, fun n hn => ?_⟩
  obtain ⟨n, rfl⟩ : ∃ m, n = m + 2 := ⟨n - 2, by omega⟩
  exact h.leaf n value hleaf

/-- By recursion over the expression: what its symbols stand for has results. -/
theorem Descends.settles (h : Descends captures resolve instantiate) : ∀ value : AliasValueExpr,
    (∀ symbol, Mentions symbol value → ∀ target, captures.get symbol = some target →
      Settles resolve target) → Settles instantiate value
  | .captured symbol, hsymbols => by
    cases hget : captures.get symbol with
    | none =>
      refine ⟨1, fun n hn hnone => ?_⟩
      obtain ⟨n, rfl⟩ : ∃ m, n = m + 1 := ⟨n - 1, by omega⟩
      obtain ⟨target, htarget, -⟩ := (h.captured n symbol).mp hnone
      rw [hget] at htarget
      cases htarget
    | some target =>
      obtain ⟨enough, henough⟩ := hsymbols symbol .captured target hget
      refine ⟨enough + 1, fun n hn hnone => ?_⟩
      obtain ⟨n, rfl⟩ : ∃ m, n = m + 1 := ⟨n - 1, by omega⟩
      obtain ⟨other, hother, hresolve⟩ := (h.captured n symbol).mp hnone
      obtain rfl := Option.some.inj (hget.symm.trans hother)
      exact henough n (by omega) hresolve
  | .project base projection, hsymbols => by
    obtain ⟨enough, henough⟩ := h.settles base
      fun symbol hsymbol => hsymbols symbol (.project projection hsymbol)
    refine ⟨enough + 1, fun n hn hnone => ?_⟩
    obtain ⟨n, rfl⟩ : ∃ m, n = m + 1 := ⟨n - 1, by omega⟩
    exact henough n (by omega) ((h.project n base projection).mp hnone)
  | .union values, hsymbols => by
    have hparts : ∀ value ∈ values, Settles instantiate value :=
      fun value hmem => h.settles value
        fun symbol hsymbol => hsymbols symbol (.union hmem hsymbol)
    obtain ⟨enough, henough⟩ := exists_depth hparts
    refine ⟨enough + 1, fun n hn hnone => ?_⟩
    obtain ⟨n, rfl⟩ : ∃ m, n = m + 1 := ⟨n - 1, by omega⟩
    obtain ⟨value, hmem, hvalue⟩ := (h.union n values).mp hnone
    exact henough n (by omega) value hmem hvalue
  | .bottom, _ => h.settles_leaf trivial
  | .formalParam _, _ => h.settles_leaf trivial
  | .allocation _ _, _ => h.settles_leaf trivial
  | .allocationKind _ _, _ => h.settles_leaf trivial
  | .topLevel _, _ => h.settles_leaf trivial
  | .resourceHandle _, _ => h.settles_leaf trivial
  | .memoryPlace _, _ => h.settles_leaf trivial
  | .unknown, _ => h.settles_leaf trivial
termination_by value => sizeOf value

theorem Descends.settles_of_acc (h : Descends captures resolve resolve) {symbol : SymbolId}
    (hacc : Acc (fun next symbol => Leads captures symbol next) symbol) {target : AliasValueExpr}
    (htarget : captures.get symbol = some target) : Settles resolve target := by
  induction hacc generalizing target with
  | intro symbol _ ih =>
    have hnext : ∀ next, Mentions next target → ∀ value, captures.get next = some value →
        Settles resolve value := by
      intro next hmentions value hvalue
      exact ih next ⟨target, htarget, hmentions⟩ hvalue
    exact h.settles target hnext

theorem Descends.settles_iff (hresolve : Descends captures resolve resolve)
    (h : Descends captures resolve instantiate) (value : AliasValueExpr) :
    Settles instantiate value ↔
      ∀ symbol, Mentions symbol value → ¬ MeetsCycle (Leads captures) symbol := by
  constructor
  · intro ⟨enough, henough⟩ symbol hsymbol
    have hgrounded := (hresolve.grounded h enough).2 value (henough enough le_rfl)
    exact not_meetsCycle_of_acc (hgrounded symbol hsymbol)
  · intro hvalue
    have hsources : ∀ symbol next, Leads captures symbol next →
        symbol ∈ (captures.toList.map Prod.fst).toFinset := by
      intro symbol next hleads
      obtain ⟨target, htarget, -⟩ := hleads
      have hmem := List.mem_map_of_mem (f := Prod.fst) (Map.mem_toList.mpr htarget)
      exact List.mem_toFinset.mpr hmem
    refine h.settles value fun symbol hsymbol target htarget => ?_
    have hacc := acc_of_not_meetsCycle (Finset.finite_toSet _) hsources (hvalue symbol hsymbol)
    exact hresolve.settles_of_acc hacc htarget

end

/-! The two ways of the source. -/

section
variable {config : AliasPrecisionConfig} {le : AliasVar → AliasVar → Bool}
  {currentUnit : Option HirSemanticUnit} {captures : Map SymbolId AliasValueExpr}

theorem exists_solveProjectionValue (base : AliasValue) (projection : Projection) :
    ∃ result, solveProjectionValue config le base projection = some result := by
  obtain ⟨solution, hsolution⟩ := AliasConstraintFrame.solve_isSome config le
    [(.synthetic 0, base)] [.project (.synthetic 1) (.synthetic 0) projection]
  unfold solveProjectionValue
  rw [hsolution]
  exact ⟨_, rfl⟩

theorem projected_eq_none {base : Option AliasValue} {projection : Projection} :
    (base.bind fun base => (solveProjectionValue config le base projection).bind fun result =>
      some result.1) = none ↔ base = none := by
  cases base with
  | none => simp
  | some base =>
    have hsolve : ∃ result, solveProjectionValue config le base projection = some result :=
      exists_solveProjectionValue base projection
    obtain ⟨result, hresult⟩ := hsolve
    simp [hresult]

variable {f : AliasValueExpr → Option AliasValue}

theorem joined_eq_none {values : List AliasValueExpr} {join : List AliasValue → AliasValue} :
    ((values.mapM f).bind fun values => some (join values)) = none ↔
      ∃ value ∈ values, f value = none := by
  rw [← mapM_eq_none]
  cases values.mapM f <;> simp

theorem resolved_eq_none {found : Option AliasValueExpr} :
    (match found with | some value => f value | none => some .unknown) = none ↔
      ∃ value, found = some value ∧ f value = none := by
  cases found <;> simp

theorem instantiateValueAtCall_descends (call : HirExprId) (actuals : List AliasValue) :
    Descends captures (instantiateCapturedValue config le currentUnit captures)
      (instantiateValueAtCall config le currentUnit captures call actuals) where
  zero _ := rfl
  captured n symbol := by
    rw [instantiateValueAtCall]
    exact resolved_eq_none
  project n base projection := by
    rw [instantiateValueAtCall]
    exact projected_eq_none
  union n values := by
    rw [instantiateValueAtCall]
    exact joined_eq_none
  leaf n value hleaf := by
    cases value with
    | captured _ => exact hleaf.elim
    | project _ _ => exact hleaf.elim
    | union _ => exact hleaf.elim
    | allocation unit expr =>
      rw [instantiateValueAtCall]
      split <;> exact Option.some_ne_none _
    | _ => exact Option.some_ne_none _

theorem instantiateCapturedValue_descends :
    Descends captures (instantiateCapturedValue config le currentUnit captures)
      (instantiateCapturedValue config le currentUnit captures) where
  zero _ := rfl
  captured n symbol := by
    rw [instantiateCapturedValue]
    exact resolved_eq_none
  project n base projection := by
    rw [instantiateCapturedValue]
    exact projected_eq_none
  union n values := by
    rw [instantiateCapturedValue]
    exact joined_eq_none
  leaf n value hleaf := by
    cases value with
    | captured _ => exact hleaf.elim
    | project _ _ => exact hleaf.elim
    | union _ => exact hleaf.elim
    | allocation unit expr =>
      rw [instantiateCapturedValue, instantiateValueAtCall]
      · split <;> exact Option.some_ne_none _
      all_goals exact nofun
    | _ => exact Option.some_ne_none _

/-- A value is instantiated just when none of the captured symbols it comes to leads back to
itself in the table. -/
theorem instantiateValueAtCall_returns_iff (config : AliasPrecisionConfig)
    (le : AliasVar → AliasVar → Bool) (currentUnit : Option HirSemanticUnit)
    (captures : Map SymbolId AliasValueExpr) (call : HirExprId) (actuals : List AliasValue)
    (value : AliasValueExpr) :
    (∃ enough, ∀ n ≥ enough,
      instantiateValueAtCall config le currentUnit captures call actuals n value ≠ none) ↔
        ∀ symbol, Mentions symbol value → ¬ MeetsCycle (Leads captures) symbol :=
  instantiateCapturedValue_descends.settles_iff (instantiateValueAtCall_descends call actuals) value

theorem instantiate_captured_self {symbol : SymbolId}
    (h : captures.get symbol = some (.captured symbol)) (call : HirExprId)
    (actuals : List AliasValue) (n : ℕ) :
    instantiateValueAtCall config le currentUnit captures call actuals n (.captured symbol) =
      none := by
  have hresolve : ∀ n, instantiateCapturedValue config le currentUnit captures n
      (.captured symbol) = none := by
    intro n
    induction n with
    | zero => rfl
    | succ n ih =>
      rw [instantiateCapturedValue, h]
      exact ih
  cases n with
  | zero => rfl
  | succ n =>
    rw [instantiateValueAtCall, h]
    exact hresolve n

end

/-! A lambda in a lambda, both with the `x` of the flow around them: `|| ((|| x)(), x)`. -/

theorem valueToExpr_fromTarget [LinearOrder AliasValueExpr] (target : AliasTarget)
    (unit : HirSemanticUnit) :
    AliasValueExpr.valueToExpr (.fromTarget target) unit =
      AliasValueExpr.placeToExpr (.new target) unit := by
  have himage : ({Place.new target} : Finset Place).image
      (AliasValueExpr.placeToExpr · unit) = {AliasValueExpr.placeToExpr (.new target) unit} :=
    Finset.image_singleton ..
  have hsort : (({Place.new target} : Finset Place).image
      (AliasValueExpr.placeToExpr · unit)).sort (· ≤ ·) =
        [AliasValueExpr.placeToExpr (.new target) unit] := by
    rw [himage, Finset.sort_singleton]
  simp only [AliasValueExpr.valueToExpr, AliasValue.fromTarget, AliasValue.fromPlace, hsort]

namespace AliasSemantics
variable {self : AliasSemantics}

theorem beginUnit_captured (unit : ContextualAliasUnit) {symbol : SymbolId}
    (hparams : paramsForUnit self.hir self.declParams unit.semantic = [])
    (hcaptured : captureSymbolsForUnit self.hir self.depth unit.semantic = some {symbol}) :
    self.beginUnit unit = pure (enterCaptured unit.semantic (self.entryState unit) symbol) := by
  unfold beginUnit
  rw [hparams, hcaptured]
  have hsort : ({symbol} : Finset SymbolId).sort (· ≤ ·) = [symbol] := Finset.sort_singleton ..
  change (pure ((({symbol} : Finset SymbolId).sort (· ≤ ·)).foldl (enterCaptured unit.semantic)
    (self.entryState unit)) : AliasM AliasState) = _
  rw [hsort]
  rfl

theorem recordCaptureValues_singleton [LinearOrder AliasValueExpr] {state : AliasState}
    {current : HirSemanticUnit} (hunit : state.unit = some current) (unit : HirSemanticUnit)
    (symbol : SymbolId) : self.recordCaptureValues state unit {symbol} =
      modify fun analysis => { analysis with captures :=
        ⟨addCaptures analysis.captures.captures ⟨unit, state.context⟩
          [(symbol, self.captureValue state current symbol)],
        addCaptures analysis.captures.semanticCaptures unit
          [(symbol, self.captureValue state current symbol)]⟩ } := by
  unfold recordCaptureValues
  rw [hunit, Finset.sort_singleton]
  rfl

end AliasSemantics

def nestedProgram : HirProgram :=
  { HirProgram.empty with
    items := [.flow ⟨1, [0], .block 0, 0⟩]
    exprs := [.path ⟨["x"], .resolved 0, ⟨0, 0, 0⟩⟩, .lambda [] (.expr 0) 0,
      .call 1 [], .path ⟨["x"], .resolved 0, ⟨0, 0, 0⟩⟩, .tuple [2, 3], .lambda [] (.expr 4) 0]
    blocks := [⟨[], some 5, 0⟩] }

def outerLambda : HirSemanticUnit := .anonymousFlow 0 5 (.expr 4)

def innerLambda : HirSemanticUnit := .anonymousFlow 0 1 (.expr 0)

def nestedSemantics : AliasSemantics :=
  .new nestedProgram (fun _ => []) [.item 0, outerLambda, innerLambda] .precise
    ⟨.fullProjection, .keySensitive, .resourceAware⟩ .none (fun _ _ => true) 8

section
variable [LinearOrder Place] [LinearOrder AliasValueExpr]

/-- The outer lambda is entered and makes the inner one, which is entered and returns `x`. -/
def nestedRun : AliasM UnitSummary := do
  let outer ← nestedSemantics.beginUnit ⟨outerLambda, []⟩
  let _ ← nestedSemantics.lambdaBoundary 1 outer
  let inner ← nestedSemantics.beginUnit ⟨innerLambda, []⟩
  let exit ← nestedSemantics.afterExprControl 0 (.normal inner)
  nestedSemantics.endUnit ⟨innerLambda, []⟩ exit

theorem nestedRun_reached {analysis : AliasAnalysis} {summary : UnitSummary}
    (h : nestedRun .new = some (summary, analysis)) : nestedSemantics.Reached analysis := by
  obtain ⟨outer, _, houter, h⟩ := exists_of_bind h
  obtain ⟨made, _, hmade, h⟩ := exists_of_bind h
  obtain ⟨inner, _, hinner, h⟩ := exists_of_bind h
  obtain ⟨exit, _, hexit, h⟩ := exists_of_bind h
  exact AliasSemantics.Reached.new.after (.beginUnit _) rfl houter
    |>.after (.lambdaBoundary 1 _) rfl hmade
    |>.after (.beginUnit _) rfl hinner
    |>.after (.afterExprControl 0 _) rfl hexit
    |>.after (.endUnit _ _) rfl h

omit [LinearOrder Place] in
theorem lambdaBoundary_inner {state : AliasState} (hunit : state.unit = some outerLambda) :
    nestedSemantics.lambdaBoundary 1 state = (do
      modify fun analysis => { analysis with captures :=
        ⟨AliasSemantics.addCaptures analysis.captures.captures ⟨innerLambda, state.context⟩
          [(0, nestedSemantics.captureValue state outerLambda 0)],
        AliasSemantics.addCaptures analysis.captures.semanticCaptures innerLambda
          [(0, nestedSemantics.captureValue state outerLambda 0)]⟩ }
      let value ← nestedSemantics.allocationForUnit state.unit 1 .lambda
      setExprAlias state 1 value) := by
  have hcaptured : lambdaCaptures nestedProgram 8 [] (.expr 0) = some {0} := by decide
  have hrecord : nestedSemantics.recordLambdaCaptures state 1 =
      nestedSemantics.recordCaptureValues state innerLambda {0} := by
    change (monadLift (lambdaCaptures nestedProgram 8 [] (.expr 0)) >>= fun captured =>
      nestedSemantics.recordCaptureValues state innerLambda captured) = _
    rw [hcaptured]
    rfl
  unfold AliasSemantics.lambdaBoundary
  rw [hrecord, AliasSemantics.recordCaptureValues_singleton hunit]

theorem nestedRun_returns : ∃ summary analysis, nestedRun .new = some (summary, analysis) ∧
    summary.returnAlias = .captured 0 ∧
    ∃ captures, analysis.captures.captures.get ⟨innerLambda, []⟩ = some captures ∧
      captures.get 0 = some (.captured 0) := by
  have houter : captureSymbolsForUnit nestedProgram 8 outerLambda = some {0} := by decide
  have hinner : captureSymbolsForUnit nestedProgram 8 innerLambda = some {0} := by decide
  have hexpr (unit : HirSemanticUnit) : AliasValueExpr.valueToExpr
      (.fromTarget (.captured unit 0)) unit = .captured 0 := by
    rw [valueToExpr_fromTarget]
    simp [AliasValueExpr.placeToExpr, Place.new]
  unfold nestedRun
  rw [AliasSemantics.beginUnit_captured ⟨outerLambda, []⟩ rfl houter,
    AliasSemantics.beginUnit_captured ⟨innerLambda, []⟩ rfl hinner, pure_bind,
    lambdaBoundary_inner rfl]
  refine ⟨_, _, rfl, ?_, _, rfl, ?_⟩
  · exact hexpr innerLambda
  · exact congrArg some (hexpr outerLambda)

end

/-- The outer lambda calls the inner one: its result is the `x` of the inner lambda, which stands for
the `x` of the outer one, and that is looked up as the `x` of the inner one again. -/
theorem instantiate_nested : ∃ (_ : LinearOrder Place) (_ : LinearOrder AliasValueExpr),
    ∃ summary analysis, nestedRun .new = some (summary, analysis) ∧
      nestedSemantics.Reached analysis ∧
      ∀ n, instantiateValueAtCall nestedSemantics.config nestedSemantics.le (some outerLambda)
        (capturesForCall analysis.captures (some ⟨innerLambda, []⟩)
          (AliasSemantics.callSummary summary)) 2 [] n summary.returnAlias = none := by
  obtain ⟨placeOrder, -⟩ := exists_wellFoundedLT Place
  obtain ⟨exprOrder, -⟩ := exists_wellFoundedLT AliasValueExpr
  refine ⟨placeOrder, exprOrder, ?_⟩
  obtain ⟨summary, analysis, hrun, hreturn, captures, hcaptures, hself⟩ := nestedRun_returns
  have htable : capturesForCall analysis.captures (some ⟨innerLambda, []⟩)
      (AliasSemantics.callSummary summary) = captures := by
    unfold capturesForCall
    dsimp only
    rw [hcaptures]
    rfl
  refine ⟨summary, analysis, hrun, nestedRun_reached hrun, fun n => ?_⟩
  rw [htable, hreturn]
  exact instantiate_captured_self hself 2 [] n
end EtasFrontend.Alias
