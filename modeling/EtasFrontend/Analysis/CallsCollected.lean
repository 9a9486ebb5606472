import EtasFrontend.Analysis.CallsCovered

/-! By recursion over the tree: a transfer of a unit reads the summaries of its dependencies in the
call graph, and no others. -/
namespace EtasFrontend.Analysis
open Lib HirAbstractInterpreter

variable {U D S : Type} [LinearOrder U] [AbstractDomain D]

/-- As `Within`, but the normal exit may be opened where this is allowed. -/
structure Control.WithinOr (passes : Prop) (control other : Control D) : Prop where
  normal : control.normalState.isSome → other.normalState.isSome ∨ passes
  breaks : control.breakState.isSome → other.breakState.isSome
  continues : control.continueState.isSome → other.continueState.isSome

omit [AbstractDomain D] in
theorem Control.Within.withinOr {a b : Control D} (h : a.Within b) (passes : Prop) :
    a.WithinOr passes b :=
  ⟨fun hnormal => Or.inl (h.normal hnormal), h.breaks, h.continues⟩

omit [AbstractDomain D] in
theorem Control.WithinOr.trans {passes : Prop} {a b c : Control D} (h : a.WithinOr passes b)
    (h' : b.WithinOr passes c) : a.WithinOr passes c := by
  refine ⟨fun hnormal => ?_, h'.breaks ∘ h.breaks, h'.continues ∘ h.continues⟩
  rcases h.normal hnormal with hb | hpasses
  · exact h'.normal hb
  · exact Or.inr hpasses

namespace SummarySolver
variable (solver : SummarySolver U D S) (unit : U)

/-- The collecting pass leaves an expression by its normal exit, from any state. -/
def PassesThrough (expr : HirExprId) : Prop :=
  ∀ state remaining graph, (collected ((solver.collector unit).plainControl (.expr expr) state)
    remaining graph).1.1.normalState.isSome

/-- The analysis only goes on where the collecting pass goes on: no hook opens an exit of an
expression, except for the normal exit of one that the collecting pass passes through. -/
structure KeepsExits : Prop where
  afterExpr : ∀ expr control,
    Control.WithinOr (solver.PassesThrough unit expr)
      (solver.semantics.hooks.afterExprControl expr control) control
  tryExpr : ∀ expr entry control,
    Control.WithinOr (solver.PassesThrough unit expr)
      (solver.semantics.hooks.tryExprControl expr entry control) control
  handleExpr : ∀ expr entry parts,
    Control.WithinOr (solver.PassesThrough unit expr)
      (solver.semantics.hooks.handleExprControl expr entry parts) (parts.body.join parts.handler)
  captured : ∀ expr state, solver.semantics.hooks.stageTargetsAreCaptured expr state = true →
    solver.PassesThrough unit expr

/-- The target of a call does not depend on the state, nor on the pass. -/
structure ResolvesAlike : Prop where
  call : ∀ call callee state state',
    solver.semantics.callTarget ⟨unit, .solveSummaries⟩ call callee state' =
      solver.semantics.callTarget ⟨unit, .discoverCalls⟩ call callee state
  methodCall : ∀ call state state',
    solver.semantics.methodCallTarget ⟨unit, .solveSummaries⟩ call state' =
      solver.semantics.methodCallTarget ⟨unit, .discoverCalls⟩ call state
  specMethodCall : ∀ call state state',
    solver.semantics.specMethodCallTarget ⟨unit, .solveSummaries⟩ call state' =
      solver.semantics.specMethodCallTarget ⟨unit, .discoverCalls⟩ call state

variable {self : SummarySolver U D S} {unit : U}

theorem collected_addCalls {α : Type} (callees : List U) (value : α) (remaining : ℕ)
    (graph : CallGraph U) :
    collected (liftM (do
      InterproceduralSemantics.addCalls unit callees
      pure value : CollectM U α) : Traversal (CollectM U) α) remaining graph =
      ((value, remaining), callees.foldl (fun graph callee => graph.addCall unit callee) graph) :=
  rfl

theorem grows_addCalls {α : Type} (callees : List U) (value : α) :
    Grows (liftM (do
      InterproceduralSemantics.addCalls unit callees
      pure value : CollectM U α) : Traversal (CollectM U) α) := by
  intro remaining graph
  rw [collected_addCalls]
  exact CallGraph.foldl_le (fun graph callee => CallGraph.le_addCall graph unit callee) _ _

theorem covered_addCalls {α β : Type} (callees : List U) (a : α) (b : β) :
    Covered unit (fun _ _ => True)
      (liftM (do
        InterproceduralSemantics.addCalls unit callees
        pure a : CollectM U α) : Traversal (CollectM U) α)
      (liftM (pure b : SummaryM U S β) : Traversal (SummaryM U S) β) :=
  covered_right_pure (grows_addCalls callees a) fun _ _ => trivial

omit [AbstractDomain D] in
theorem readsOnly_applySummary (semantics : InterproceduralSemantics U D S) (site : CallSite U)
    (call : HirExprId) (callee : U) (state : D) {units : List U} (h : callee ∈ units) :
    ReadsOnly units (liftM (semantics.applySummary unit site call callee state) :
      Traversal (SummaryM U S) (AnalysisStep D)) := by
  intro remaining summaries summaries' diagnostics diagnostics' hget
  change (applied (liftM (semantics.callWith unit site call callee state (summaries.get callee)) :
      Traversal (SummaryM U S) (AnalysisStep D)) remaining summaries diagnostics).1 =
    (applied (liftM (semantics.callWith unit site call callee state (summaries'.get callee)) :
      Traversal (SummaryM U S) (AnalysisStep D)) remaining summaries' diagnostics').1
  rw [← hget callee h]
  cases summaries.get callee with
  | none => rfl
  | some summary => rfl

omit [AbstractDomain D] in
/-- A call of a unit that is noted, and applied at its summary. -/
theorem covered_applySummary (semantics : InterproceduralSemantics U D S) (site : CallSite U)
    (call : HirExprId) (callee : U) (state state' : D) :
    Covered unit (fun _ _ => True)
      (liftM (do
        InterproceduralSemantics.addCalls unit [callee]
        pure (.handled state) : CollectM U (AnalysisStep D)) :
          Traversal (CollectM U) (AnalysisStep D))
      (liftM (semantics.applySummary unit site call callee state') :
        Traversal (SummaryM U S) (AnalysisStep D)) := by
  intro remaining graph
  refine ⟨grows_addCalls [callee] _ remaining graph, ?_, fun _ _ _ => trivial⟩
  apply readsOnly_applySummary
  rw [collected_addCalls]
  exact CallGraph.mem_dependencies_addCall.mpr (Or.inr ⟨rfl, rfl⟩)

theorem program_collector : (self.collector unit).program = self.program := rfl

omit [AbstractDomain D] in
theorem program_transferrer : (self.transferrer unit).program = self.program := rfl

section
variable (hresolves : self.ResolvesAlike unit)
include hresolves

theorem directCall_covered (call callee : HirExprId)
    (state state' : D) : Covered unit (fun _ _ => True)
      (liftM ((self.collector unit).semantics.directCall call callee state) :
        Traversal (CollectM U) (AnalysisStep D))
      (liftM ((self.transferrer unit).semantics.directCall call callee state') :
        Traversal (SummaryM U S) (AnalysisStep D)) := by
  dsimp only [collector, transferrer, InterproceduralSemantics.collectionAdapter,
    InterproceduralSemantics.summaryAdapter]
  rw [hresolves.call call callee state state']
  cases self.semantics.callTarget ⟨unit, .discoverCalls⟩ call callee state with
  | direct target => exact covered_applySummary _ _ _ _ _ _
  | dynamic => exact covered_addCalls [] _ _
  | external => exact covered_addCalls [] _ _
  | incomplete => exact covered_addCalls [] _ _

theorem methodCall_covered (call : HirExprId)
    (state state' : D) : Covered unit (fun _ _ => True)
      (liftM ((self.collector unit).semantics.methodCall call state) :
        Traversal (CollectM U) (AnalysisStep D))
      (liftM ((self.transferrer unit).semantics.methodCall call state') :
        Traversal (SummaryM U S) (AnalysisStep D)) := by
  dsimp only [collector, transferrer, InterproceduralSemantics.collectionAdapter,
    InterproceduralSemantics.summaryAdapter]
  rw [hresolves.methodCall call state state']
  cases self.semantics.methodCallTarget ⟨unit, .discoverCalls⟩ call state with
  | some target => exact covered_applySummary _ _ _ _ _ _
  | none => exact covered_addCalls [] _ _

theorem specMethodCall_covered (call : HirExprId)
    (state state' : D) : Covered unit (fun _ _ => True)
      (liftM ((self.collector unit).semantics.specMethodCall call state) :
        Traversal (CollectM U) (AnalysisStep D))
      (liftM ((self.transferrer unit).semantics.specMethodCall call state') :
        Traversal (SummaryM U S) (AnalysisStep D)) := by
  dsimp only [collector, transferrer, InterproceduralSemantics.collectionAdapter,
    InterproceduralSemantics.summaryAdapter]
  rw [hresolves.specMethodCall call state state']
  cases self.semantics.specMethodCallTarget ⟨unit, .discoverCalls⟩ call state with
  | some target => exact covered_applySummary _ _ _ _ _ _
  | none => exact covered_addCalls [] _ _

end

theorem requireHandled_covered (step step' : AnalysisStep D) : Covered unit (fun _ _ => True)
    (liftM ((self.collector unit).requireHandled step) : Traversal (CollectM U) D)
    (liftM ((self.transferrer unit).requireHandled step') : Traversal (SummaryM U S) D) := by
  cases step <;> cases step' <;> exact covered_hook _ _

variable {a b : Control D}

theorem applyNormalStep_covered {f : D → CollectM U (AnalysisStep D)}
    {f' : D → SummaryM U S (AnalysisStep D)}
    (hf : ∀ state state', Covered unit (fun _ _ => True)
      (liftM (f state) : Traversal (CollectM U) (AnalysisStep D))
      (liftM (f' state') : Traversal (SummaryM U S) (AnalysisStep D)))
    (h : Exits a b) : Covered unit Exits ((self.collector unit).applyNormalStep a f)
      ((self.transferrer unit).applyNormalStep b f') := by
  apply covered_withNormalProcessed h
  intro state state'
  apply (hf state state').bind
  intro step step' _
  apply (requireHandled_covered step step').bind
  intro state state' _
  exact covered_pure (Control.within_normal state' state)

/-- The exits of a statement, next to its flag. -/
abbrev StmtExits (left right : Control D × Bool) : Prop := right.1.Within left.1

omit [AbstractDomain D] in
theorem covered_flag {x : Traversal (CollectM U) (Control D)}
    {y : Traversal (SummaryM U S) (Control D)} (h : Covered unit Exits x y) :
    Covered unit StmtExits (do let control ← x; pure (control, false))
      (do let control ← y; pure (control, false)) :=
  h.bind fun _ _ hcontrol => covered_pure hcontrol

omit [AbstractDomain D] in
theorem Stays.within (h : Stays b) (hnormal : a.normalState.isSome) : b.Within a := by
  refine ⟨fun _ => hnormal, ?_, ?_⟩
  · rw [h.1]
    exact nofun
  · rw [h.2]
    exact nofun

omit [AbstractDomain D] in
theorem Stays.withinOr {passes : Prop} (h : Stays b) (hpasses : passes) : b.WithinOr passes a := by
  refine ⟨fun _ => Or.inr hpasses, ?_, ?_⟩
  · rw [h.1]
    exact nofun
  · rw [h.2]
    exact nofun

variable {limit limit' : ℕ}

section
variable {eval : HirNode → D → Traversal (CollectM U) (Control D)}
  {eval' : HirNode → D → Traversal (SummaryM U S) (Control D)}

/-- What a `for` does once its body can begin. -/
def forEnd {m : Type → Type} [Monad m] (interpreter : HirAbstractInterpreter m D)
    (block : D → Traversal m (Control D)) (stmt : HirStmtId) (body : HirBlockId)
    (control : Control D) (bounded : Option ℕ) : Traversal m (Control D × Bool) :=
  match bounded, control.normalState with
  | _, none => pure (control, false)
  | some bound, some state => do
    let (result, complete) ← interpreter.boundedForControl block stmt body state bound
    pure (control.withoutNormal.join result, complete)
  | none, some state => do
    let result ← interpreter.loopBlockControl block body state
    pure (control.withoutNormal.join result, false)

section
variable (hengine : self.utils.collectEngine = FixpointEngine.withLimit limit)
  (hengine' : self.utils.summaryEngine = FixpointEngine.withLimit limit')
include hengine hengine'

theorem forEnd_covered {block : D → Traversal (CollectM U) (Control D)}
    {block' : D → Traversal (SummaryM U S) (Control D)}
    (hbody : ∀ state state', Covered unit Exits (block state) (block' state')) (stmt : HirStmtId)
    (body : HirBlockId) (bounded : Option ℕ) {a b : Control D} (h : Exits a b) :
    Covered unit StmtExits (forEnd (self.collector unit) block stmt body a none)
      (forEnd (self.transferrer unit) block' stmt body b bounded) := by
  cases ha : a.normalState with
  | none =>
    cases hb : b.normalState with
    | none =>
      unfold forEnd
      rw [ha, hb]
      exact covered_pure h
    | some state' =>
      have hsome := h.normal (by rw [hb]; rfl)
      rw [ha] at hsome
      cases hsome
  | some state =>
    cases hb : b.normalState with
    | none =>
      unfold forEnd
      rw [ha, hb]
      apply covered_right_pure
      · have hloop : Covered unit (fun _ _ => True)
            ((self.collector unit).loopBlockControl block body state)
            (pure () : Traversal (SummaryM U S) Unit) := by
          apply loopBlockControl_covered hengine hbody
          · exact fun units _ => readsOnly_pure units ()
          · exact fun _ _ => yields_pure trivial
        exact hloop.grows.bind fun _ => grows_pure _
      · intro remaining graph
        change Control.Within b (a.withoutNormal.join _)
        apply Control.Within.trans _ (Control.within_join_left _ _)
        exact ⟨by rw [hb]; exact nofun, h.breaks, h.continues⟩
    | some state' =>
      unfold forEnd
      rw [ha, hb]
      cases bounded with
      | none =>
        have hloop : Covered unit (fun a b => a.normalState.isSome ∧ Stays b)
            ((self.collector unit).loopBlockControl block body state)
            ((self.transferrer unit).loopBlockControl block' body state') := by
          apply loopBlockControl_covered hengine hbody
          · exact fun units hreads => readsOnly_loopBlockControl hengine' hreads body state'
          · exact fun control hnormal remaining summaries diagnostics =>
              ⟨hnormal, yields_loopBlockControl body state' remaining summaries diagnostics⟩
        apply hloop.bind
        intro result result' hresult
        exact covered_pure (h.withoutNormal.join (hresult.2.within hresult.1))
      | some bound =>
        have hloop : Covered unit (fun a b => a.normalState.isSome ∧ Stays b.1)
            ((self.collector unit).loopBlockControl block body state)
            ((self.transferrer unit).boundedForControl block' stmt body state' bound) := by
          apply loopBlockControl_covered hengine hbody
          · exact fun units hreads => readsOnly_boundedForLoop hengine' hreads stmt body bound _ _
          · exact fun control hnormal remaining summaries diagnostics =>
              ⟨hnormal, yields_boundedForLoop stmt body bound ⟨rfl, rfl⟩ (some state') remaining
                summaries diagnostics⟩
        apply hloop.bind
        intro result result' hresult
        exact covered_pure (h.withoutNormal.join (hresult.2.within hresult.1))

theorem forControl_covered {stmt : HirStmtId} {pat : HirPatId} {iter : HirExprId}
    {limits : List HirExprId} {body : HirBlockId} (hiter : NodeCovered unit eval eval' (.expr iter))
    (hlimits : ∀ expr ∈ limits, NodeCovered unit eval eval' (.expr expr))
    (hbody : NodeCovered unit eval eval' (.block body)) (state state' : D) :
    Covered unit StmtExits
      ((self.collector unit).forControl eval stmt pat iter limits body state)
      ((self.transferrer unit).forControl eval' stmt pat iter limits body state') := by
  apply (exprsControl_covered hlimits (Control.within_normal state' state)).bind
  intro a b h
  apply (covered_withNormalProcessed h hiter).bind
  intro a b h
  have hbegin : ∀ state state', Covered unit Exits
      (do
        let state ← (self.collector unit).semantics.beginForBody stmt iter pat state
        pure (Control.normal state) : Traversal (CollectM U) (Control D))
      (do
        let state ← (self.transferrer unit).semantics.beginForBody stmt iter pat state'
        pure (Control.normal state) : Traversal (SummaryM U S) (Control D)) :=
    fun state state' => covered_pure (Control.within_normal _ _)
  apply (covered_withNormalProcessed h hbegin).bind
  intro a b h
  exact forEnd_covered hengine hengine' hbody stmt body
    (self.semantics.hooks.boundedForIterations stmt) h

theorem stmtNext_covered {stmt : HirStmtId}
    (hc : ∀ child ∈ self.program.children (.stmt stmt), NodeCovered unit eval eval' child)
    (state state' : D) : Covered unit StmtExits
      ((self.collector unit).stmtNext eval stmt state)
      ((self.transferrer unit).stmtNext eval' stmt state') := by
  unfold stmtNext
  rw [program_collector, program_transferrer]
  rw [HirArenas.children] at hc
  cases hstmt : self.program.stmts stmt <;> rw [hstmt] at hc <;>
    simp only [HirStmt.children, List.mem_cons, List.mem_map, List.not_mem_nil, or_false,
      forall_eq_or_imp, forall_eq, Option.mem_toList, forall_exists_index, and_imp,
      forall_apply_eq_imp_iff₂] at hc <;> dsimp only
  case «for» pat iter limits body =>
    exact forControl_covered hengine hengine' hc.1 hc.2.2 hc.2.1 state state'
  case «while» cond limits body =>
    apply (exprsControl_covered hc.2.2 (Control.within_normal state' state)).bind
    intro a b h
    apply covered_flag
    apply covered_withNormalProcessed h
    exact whileLoopControl_covered hengine hengine' hc.1 hc.2.1 body
  case retry limits body =>
    apply (exprsControl_covered hc.2 (Control.within_normal state' state)).bind
    intro a b h
    apply covered_flag
    apply covered_withNormalProcessed h
    intro state state'
    apply loopBlockControl_covered hengine hc.1
    · exact fun units hreads => readsOnly_loopBlockControl hengine' hreads body state'
    · exact fun control hnormal remaining summaries diagnostics =>
        Stays.within (yields_loopBlockControl body state' remaining summaries diagnostics) hnormal
  case resume value =>
    apply (valueControl_covered hc state state').bind
    intro a b h
    apply covered_flag
    apply covered_withNormalProcessed h
    exact fun _ _ => covered_pure (Control.within_of_left rfl rfl rfl _)
  case «return» value =>
    apply (valueControl_covered hc state state').bind
    intro a b h
    apply covered_flag
    apply covered_withNormalProcessed h
    exact fun _ _ => covered_pure (Control.within_of_left rfl rfl rfl _)
  case finish value =>
    apply (hc state state').bind
    intro a b h
    apply covered_flag
    apply covered_withNormalProcessed h
    exact fun _ _ => covered_pure (Control.within_of_left rfl rfl rfl _)
  case assign target value =>
    apply (hc.1 state state').bind
    intro a b h
    exact covered_flag (covered_withNormalProcessed h hc.2)
  case «break» => exact covered_pure (Control.within_breaking state' state)
  case «continue» => exact covered_pure (Control.within_continuing state' state)
  case error => exact covered_pure (Control.within_of_left rfl rfl rfl _)
  all_goals exact covered_flag (hc state state')

end

omit [AbstractDomain D] in
theorem mapStates_covered {f : D → Traversal (CollectM U) D} {k : D → Traversal (SummaryM U S) D}
    (hf : ∀ state, ∃ next, f state = pure next) (hk : ∀ state, ∃ next, k state = pure next)
    {a b : Control D} (h : Exits a b) :
    Covered unit Exits (a.mapStates f) (b.mapStates k) := by
  obtain ⟨f', hf'⟩ := Classical.skolem.mp hf
  obtain ⟨k', hk'⟩ := Classical.skolem.mp hk
  rw [funext hf', funext hk', Control.mapStates_pure, Control.mapStates_pure]
  apply covered_pure
  constructor
  · simpa only [Option.isSome_map] using h.normal
  · simpa only [Option.isSome_map] using h.breaks
  · simpa only [Option.isSome_map] using h.continues

theorem stmtControl_covered (hengine : self.utils.collectEngine = FixpointEngine.withLimit limit)
    (hengine' : self.utils.summaryEngine = FixpointEngine.withLimit limit') {stmt : HirStmtId}
    (hc : ∀ child ∈ self.program.children (.stmt stmt), NodeCovered unit eval eval' child)
    (state state' : D) : Covered unit Exits
      ((self.collector unit).stmtControl eval stmt state)
      ((self.transferrer unit).stmtControl eval' stmt state') := by
  refine (covered_hook state (self.semantics.hooks.beforeStmt stmt state')).bind
    fun state state' _ => ?_
  apply (stmtNext_covered hengine hengine' hc state state').bind
  intro a b h
  apply mapStates_covered _ _ h
  · intro state
    split
    · exact ⟨state, rfl⟩
    · exact ⟨state, rfl⟩
  · intro state
    split
    · exact ⟨self.semantics.hooks.afterBoundedFor stmt state, rfl⟩
    · exact ⟨self.semantics.hooks.afterStmt stmt state, rfl⟩

theorem blockControl_covered {block : HirBlockId}
    (hc : ∀ child ∈ self.program.children (.block block), NodeCovered unit eval eval' child)
    (state state' : D) : Covered unit Exits
      ((self.collector unit).blockControl eval block state)
      ((self.transferrer unit).blockControl eval' block state') := by
  unfold blockControl
  rw [program_collector, program_transferrer]
  simp only [HirArenas.children, HirBlock.children, List.mem_append, List.mem_map] at hc
  apply (stmtsControl_covered (fun stmt hs => hc _ (Or.inl ⟨stmt, hs, rfl⟩))
    (Control.within_normal state' state)).bind
  intro a b h
  cases hfinal : (self.program.blocks block).finalExpr with
  | none => exact covered_pure h
  | some expr =>
    apply covered_withNormalProcessed h
    exact hc (.expr expr) (Or.inr ⟨expr, by simp [hfinal], rfl⟩)

theorem armsControl_covered {expr scrutinee : HirExprId} {arms : List HirMatchArm}
    (hc : ∀ arm ∈ arms, NodeCovered unit eval eval' arm.body.node) (base base' : D) :
    Covered unit Exits ((self.collector unit).armsControl eval expr scrutinee arms base)
      ((self.transferrer unit).armsControl eval' expr scrutinee arms base') := by
  apply covered_foldlM _ (Control.Within.refl _)
  intro arm harm a b h
  refine (covered_hook base
    (self.semantics.hooks.beginMatchArm expr scrutinee arm.pat base')).bind fun state state' _ => ?_
  apply (hc arm harm state state').bind
  intro a' b' h'
  exact covered_pure (h.join h')

variable {expr : HirExprId}

section
variable (hc : ∀ child ∈ self.program.children (.expr expr), NodeCovered unit eval eval' child)
include hc

theorem plainIf_covered
    (state state' : D) : Covered unit Exits
      ((self.collector unit).plainIf eval expr state)
      ((self.transferrer unit).plainIf eval' expr state') := by
  unfold plainIf
  rw [program_collector, program_transferrer]
  rw [HirArenas.children] at hc
  split
  next cond thenBlock elseBranch hexpr =>
    rw [hexpr] at hc
    apply (hc (.expr cond) (by simp [HirExpr.children]) state state').bind
    intro a b h
    apply covered_withNormalProcessed h
    intro base base'
    apply (hc (.block thenBlock) (by simp [HirExpr.children]) base base').bind
    intro a b h
    have helse : ∀ branch ∈ elseBranch, NodeCovered unit eval eval' branch.node :=
      fun branch hbranch => hc _ (by simp [HirExpr.children, Option.mem_def.mp hbranch])
    apply (elseControl_covered helse base base').bind
    intro a' b' h'
    exact covered_pure (h.join h')
  next => exact covered_pure (Control.Within.refl _)

theorem plainStructural_covered
    (state state' : D) : Covered unit Exits
      ((self.collector unit).plainStructural eval expr state)
      ((self.transferrer unit).plainStructural eval' expr state') := by
  unfold plainStructural
  rw [program_collector, program_transferrer]
  cases hops : (self.program.exprs expr).operands with
  | none => exact covered_pure (Control.Within.refl _)
  | some operands =>
    rw [HirArenas.children, children_of_operands hops] at hc
    apply exprsControl_covered _ (Control.within_normal state' state)
    intro operand hoperand
    exact hc _ (List.mem_map_of_mem hoperand)

theorem plainMethodCall_covered (hresolves : self.ResolvesAlike unit)
    (state state' : D) : Covered unit Exits
      ((self.collector unit).plainMethodCall eval expr state)
      ((self.transferrer unit).plainMethodCall eval' expr state') := by
  unfold plainMethodCall
  rw [program_collector, program_transferrer]
  rw [HirArenas.children] at hc
  split
  next receiver args hexpr =>
    rw [hexpr] at hc
    apply (hc (.expr receiver) List.mem_cons_self state state').bind
    intro a b h
    have hargs : ∀ arg ∈ args, NodeCovered unit eval eval' (.expr arg.expr) := by
      intro arg harg
      apply hc
      simp only [HirExpr.children, List.mem_cons, List.mem_map]
      exact Or.inr ⟨arg, harg, rfl⟩
    apply (argsControl_covered hargs h).bind
    intro a b h
    exact applyNormalStep_covered (methodCall_covered hresolves expr) h
  next => exact covered_pure (Control.Within.refl _)

end

/-- A hook of the collecting pass that only adds calls. -/
def Notes {α : Type} (hook : CollectM U α) (value : α) : Prop :=
  ∀ graph, ∃ graph', hook.run graph = (value, graph') ∧ CallGraph.Le graph graph'

theorem notes_pure {α : Type} (value : α) : Notes (pure value : CollectM U α) value :=
  fun graph => ⟨graph, rfl, CallGraph.Le.refl graph⟩

theorem Notes.bind {α β : Type} {hook : CollectM U α} {next : α → CollectM U β} {a : α} {b : β}
    (h : Notes hook a) (hnext : Notes (next a) b) : Notes (hook >>= next) b := by
  intro graph
  obtain ⟨graph', hrun, hle⟩ := h graph
  obtain ⟨graph'', hrun', hle'⟩ := hnext graph'
  refine ⟨graph'', ?_, hle.trans hle'⟩
  rw [StateT.run_bind, hrun]
  exact hrun'

omit [AbstractDomain D] in
theorem notes_mapM {f : D → CollectM U D} (hf : ∀ state, Notes (f state) state) (slot : Option D) :
    Notes (slot.mapM f) slot := by
  cases slot with
  | none => exact notes_pure none
  | some state =>
    change Notes (f state >>= fun state => pure (some state)) (some state)
    exact (hf state).bind (notes_pure _)

omit [AbstractDomain D] in
theorem notes_mapStates {f : D → CollectM U D} (hf : ∀ state, Notes (f state) state)
    (control : Control D) : Notes (control.mapStates f) control := by
  unfold Control.mapStates
  apply (notes_mapM hf _).bind
  apply (notes_mapM hf _).bind
  apply (notes_mapM hf _).bind
  apply (notes_mapM hf _).bind
  apply (notes_mapM hf _).bind
  apply (notes_mapM hf _).bind
  apply (notes_mapM hf _).bind
  exact notes_pure _

theorem Notes.covered {α β : Type} {related : α → β → Prop} {hook : CollectM U α} {a : α} {b : β}
    (h : Notes hook a) (hrelated : related a b) : Covered unit related
      (liftM hook : Traversal (CollectM U) α) (pure b : Traversal (SummaryM U S) β) := by
  have hrun : ∀ remaining graph, ∃ graph',
      collected (liftM hook : Traversal (CollectM U) α) remaining graph =
        ((a, remaining), graph') ∧ CallGraph.Le graph graph' := by
    intro remaining graph
    obtain ⟨graph', hrun, hle⟩ := h graph
    refine ⟨graph', ?_, hle⟩
    change ((hook >>= fun value => pure (value, remaining)).run graph : (α × ℕ) × CallGraph U) = _
    rw [StateT.run_bind, hrun]
    rfl
  apply covered_right_pure
  · intro remaining graph
    obtain ⟨graph', hrun, hle⟩ := hrun remaining graph
    rw [hrun]
    exact hle
  · intro remaining graph
    obtain ⟨graph', hrun, _⟩ := hrun remaining graph
    rw [hrun]
    exact hrelated

theorem afterExprControl_notes (expr : HirExprId) (control : Control D) :
    Notes ((self.collector unit).semantics.afterExprControl expr control) control := by
  apply notes_mapStates
  intro state graph
  refine ⟨_, rfl, ?_⟩
  exact CallGraph.foldl_le (fun graph callee => CallGraph.le_addCall graph unit callee) _ _

theorem tryExprControl_notes (expr : HirExprId) (entry : D) (control : Control D) :
    Notes ((self.collector unit).semantics.tryExprControl expr entry control) control := by
  change Notes (control.withNormalProcessed fun state => pure (Control.normal state)) control
  have hsame : control.withNormalProcessed
      (fun state => (pure (Control.normal state) : CollectM U (Control D))) = pure control := by
    unfold Control.withNormalProcessed
    cases hnormal : control.normalState with
    | none => rfl
    | some state =>
      cases control
      cases hnormal
      rfl
  rw [hsame]
  exact notes_pure control

/-- The exits of an expression, before its completion hook. -/
abbrev ExitsAt (solver : SummarySolver U D S) (unit : U) (expr : HirExprId)
    (left right : Control D) : Prop :=
  right.WithinOr (solver.PassesThrough unit expr) left

omit [AbstractDomain D] in
theorem readsOnly_requireHandled {units : List U} (step : AnalysisStep D) :
    ReadsOnly units (liftM ((self.transferrer unit).requireHandled step) :
      Traversal (SummaryM U S) D) := by
  cases step <;> exact fun _ _ _ _ _ _ => rfl

theorem readsOnly_applyNormalStep {units : List U} (hook : D → AnalysisStep D) (state : D) :
    ReadsOnly units ((self.transferrer unit).applyNormalStep (Control.normal state)
      fun state => pure (hook state)) := by
  unfold applyNormalStep
  rw [Control.withNormalProcessed_normal]
  have hhook : ReadsOnly units (liftM (pure (hook state) : SummaryM U S (AnalysisStep D)) :
      Traversal (SummaryM U S) (AnalysisStep D)) := fun _ _ _ _ _ _ => rfl
  apply hhook.bind
  intro step
  apply (readsOnly_requireHandled step).bind
  exact fun state => readsOnly_pure units _

theorem yields_applyNormalStep (hook : D → AnalysisStep D) (state : D) :
    Yields Stays ((self.transferrer unit).applyNormalStep (Control.normal state)
      fun state => pure (hook state)) := by
  unfold applyNormalStep
  rw [Control.withNormalProcessed_normal]
  apply yields_of_next
  intro step
  apply yields_of_next
  intro state
  exact yields_pure ⟨rfl, rfl⟩

/-- Captured stages are not walked by the summary pass. -/
theorem stageCompose_covered (hkeeps : self.KeepsExits unit) {stages : List HirStage}
    {state state' : D}
    (hstages : Covered unit Exits (stagesControl eval stages (Control.normal state))
      (stagesControl eval' stages (Control.normal state'))) :
    Covered unit (self.ExitsAt unit expr)
      (do
        let captured ← (self.collector unit).semantics.stageTargetsAreCaptured expr state
        let control ← if captured then pure (Control.normal state)
          else stagesControl eval stages (Control.normal state)
        (self.collector unit).applyNormalStep control
          ((self.collector unit).semantics.stageCompose expr) :
        Traversal (CollectM U) (Control D))
      (do
        let captured ← (self.transferrer unit).semantics.stageTargetsAreCaptured expr state'
        let control ← if captured then pure (Control.normal state')
          else stagesControl eval' stages (Control.normal state')
        (self.transferrer unit).applyNormalStep control
          ((self.transferrer unit).semantics.stageCompose expr) :
        Traversal (SummaryM U S) (Control D)) := by
  have hwalked : Covered unit Exits
      (stagesControl eval stages (Control.normal state) >>= fun control =>
        (self.collector unit).applyNormalStep control
          ((self.collector unit).semantics.stageCompose expr))
      (stagesControl eval' stages (Control.normal state') >>= fun control =>
        (self.transferrer unit).applyNormalStep control
          ((self.transferrer unit).semantics.stageCompose expr)) := by
    apply hstages.bind
    intro a b h
    exact applyNormalStep_covered (fun _ _ => covered_hook _ _) h
  cases hcaptured : self.semantics.hooks.stageTargetsAreCaptured expr state' with
  | false =>
    have hright : (self.transferrer unit).semantics.stageTargetsAreCaptured expr state' =
        pure false := congrArg pure hcaptured
    rw [hright]
    exact hwalked.mono fun a b hab => hab.withinOr _
  | true =>
    have hright : (self.transferrer unit).semantics.stageTargetsAreCaptured expr state' =
        pure true := congrArg pure hcaptured
    have hpasses := hkeeps.captured expr state' hcaptured
    rw [hright]
    intro remaining graph
    refine ⟨hwalked.grows remaining graph, ?_, ?_⟩
    · exact readsOnly_applyNormalStep (self.semantics.hooks.stageCompose expr) state'
    · intro remaining' summaries diagnostics
      apply Stays.withinOr _ hpasses
      exact yields_applyNormalStep (self.semantics.hooks.stageCompose expr) state' remaining'
        summaries diagnostics

theorem exprNext_covered (hresolves : self.ResolvesAlike unit) (hkeeps : self.KeepsExits unit)
    (hc : ∀ child ∈ self.program.children (.expr expr), NodeCovered unit eval eval' child)
    (state state' : D) : Covered unit (self.ExitsAt unit expr)
      ((self.collector unit).exprNext eval ((self.collector unit).plainChains eval) expr state)
      ((self.transferrer unit).exprNext eval' ((self.transferrer unit).plainChains eval') expr
        state') := by
  have hstart := Control.within_normal state' state
  have hat : ∀ {x : Traversal (CollectM U) (Control D)} {y : Traversal (SummaryM U S) (Control D)},
      Covered unit Exits x y → Covered unit (self.ExitsAt unit expr) x y :=
    fun h => h.mono fun a b hab => hab.withinOr _
  have hmethod := plainMethodCall_covered hc hresolves state state'
  have hif := plainIf_covered hc state state'
  have hstructural := plainStructural_covered hc state state'
  unfold exprNext
  rw [program_collector, program_transferrer]
  rw [HirArenas.children] at hc
  cases hexpr : self.program.exprs expr <;> rw [hexpr] at hc <;>
    simp only [HirExpr.children, List.mem_cons, List.mem_map, List.not_mem_nil, or_false,
      List.mem_flatMap, forall_eq_or_imp, forall_eq, forall_exists_index, and_imp,
      forall_apply_eq_imp_iff₂] at hc <;> dsimp only
  case record fields =>
    apply hat
    apply recordFieldsControl_covered _ hstart
    intro name value hfield
    exact hc _ _ hfield List.mem_cons_self
  case map entries =>
    apply hat
    apply mapEntriesControl_covered _ hstart
    intro entry hentry
    exact ⟨hc _ entry hentry (Or.inl rfl), hc _ entry hentry (Or.inr rfl)⟩
  case «match» scrutinee arms =>
    apply hat
    apply (hc.1 state state').bind
    intro a b h
    exact covered_withNormalProcessed h (armsControl_covered hc.2)
  case stageCompose stages =>
    have hstages := stagesControl_covered (stages_of_children hc) hstart
    exact stageCompose_covered hkeeps hstages
  case pipeline input stages =>
    apply hat
    apply (hc.1 state state').bind
    intro a b h
    apply (stagesControl_covered (stages_of_children hc.2) h).bind
    intro a b h
    exact applyNormalStep_covered (fun _ _ => covered_hook _ _) h
  case call callee args =>
    apply hat
    apply (hc.1 state state').bind
    intro a b h
    apply (argsControl_covered hc.2 h).bind
    intro a b h
    exact applyNormalStep_covered (directCall_covered hresolves expr callee) h
  case specMethodCall receiver args =>
    apply hat
    apply (hc.1 state state').bind
    intro a b h
    apply (argsControl_covered hc.2 h).bind
    intro a b h
    exact applyNormalStep_covered (specMethodCall_covered hresolves expr) h
  case perform args =>
    apply hat
    apply (argsControl_covered hc hstart).bind
    intro a b h
    exact applyNormalStep_covered (fun _ _ => covered_hook _ _) h
  case infer args => exact hat (argsControl_covered hc hstart)
  case handle body handler =>
    refine (covered_hook _ _).bind fun bodyState bodyState' _ => ?_
    apply (hc.1 bodyState bodyState').bind
    intro a b h
    apply (hc.2 state state').bind
    intro a' b' h'
    apply covered_pure
    have hparts := hkeeps.handleExpr expr state' ⟨b, handler, b'⟩
    exact hparts.trans ((h.join h').withinOr _)
  case «try» base =>
    refine (covered_hook _ _).bind fun operand operand' _ => ?_
    apply (hc operand operand').bind
    intro a b h
    apply (tryExprControl_notes expr state a).covered
    exact (hkeeps.tryExpr expr state' b).trans (h.withinOr _)
  case lambda =>
    apply hat
    refine (covered_addCalls _ _ _).bind fun step step' _ => ?_
    refine (requireHandled_covered step step').bind fun state state' _ => ?_
    exact covered_pure (Control.within_normal state' state)
  case handler arms =>
    apply hat
    refine (covered_addCalls _ _ _).bind fun step step' _ => ?_
    refine (requireHandled_covered step step').bind fun state state' _ => ?_
    exact covered_pure (Control.within_normal state' state)
  case block block => exact hat (hc state state')
  case «if» cond thenBlock elseBranch => exact hat hif
  case methodCall receiver args => exact hat hmethod
  case listCons | range | binary | field | unary | index | slice => exact hat hstructural
  case tuple | array | list | set => exact hat (exprsControl_covered hc hstart)
  all_goals exact hat (covered_pure hstart)

theorem exprControl_covered (hresolves : self.ResolvesAlike unit) (hkeeps : self.KeepsExits unit)
    (hc : ∀ child ∈ self.program.children (.expr expr), NodeCovered unit eval eval' child)
    (state state' : D) : Covered unit (self.ExitsAt unit expr)
      ((self.collector unit).exprControl eval ((self.collector unit).plainChains eval) expr state)
      ((self.transferrer unit).exprControl eval' ((self.transferrer unit).plainChains eval') expr
        state') := by
  refine (covered_hook _ _).bind fun state state' _ => ?_
  apply (exprNext_covered hresolves hkeeps hc state state').bind
  intro a b h
  apply (afterExprControl_notes expr a).covered
  exact (hkeeps.afterExpr expr b).trans h

end

theorem plainControl_covered (hengine : self.utils.collectEngine = FixpointEngine.withLimit limit)
    (hengine' : self.utils.summaryEngine = FixpointEngine.withLimit limit')
    (hresolves : self.ResolvesAlike unit) (hkeeps : self.KeepsExits unit) (node : HirNode) :
    NodeCovered unit (self.collector unit).plainControl (self.transferrer unit).plainControl
      node := by
  induction node using self.program.wellFounded.induction with
  | _ node ih =>
    intro state state'
    rw [plainControl_eq, plainControl_eq]
    cases node with
    | expr expr =>
      have hcovered := exprControl_covered hresolves hkeeps ih state state'
      intro remaining graph
      refine ⟨(hcovered remaining graph).1, (hcovered remaining graph).2.1, ?_⟩
      intro remaining' summaries diagnostics
      have hexits := (hcovered remaining graph).2.2 remaining' summaries diagnostics
      refine ⟨fun hnormal => ?_, hexits.breaks, hexits.continues⟩
      rcases hexits.normal hnormal with hsome | hpasses
      · exact hsome
      · have hthrough := hpasses state remaining graph
        rw [plainControl_eq] at hthrough
        exact hthrough
    | stmt stmt => exact stmtControl_covered hengine hengine' ih state state'
    | block block => exact blockControl_covered ih state state'

end SummarySolver
end EtasFrontend.Analysis
