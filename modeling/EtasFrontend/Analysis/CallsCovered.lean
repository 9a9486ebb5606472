import EtasFrontend.Analysis.Covered

/-! The calls that the collecting pass notes for a unit are all that a transfer of it reads. -/
namespace EtasFrontend.Analysis
open Lib

variable {U D S : Type} [LinearOrder U] [AbstractDomain D]

/-- The exits of the summary pass are exits of the collecting pass. -/
abbrev Exits (left right : Control D) : Prop := right.Within left

section
variable {unit : U}

theorem covered_hook {α β : Type} (a : α) (b : β) : Covered unit (fun _ _ => True)
    (liftM (pure a : CollectM U α) : Traversal (CollectM U) α)
    (liftM (pure b : SummaryM U S β) : Traversal (SummaryM U S) β) :=
  covered_pure trivial

theorem covered_withNormalProcessed {a b : Control D} (h : Exits a b)
    {f : D → Traversal (CollectM U) (Control D)} {k : D → Traversal (SummaryM U S) (Control D)}
    (hf : ∀ state state', Covered unit Exits (f state) (k state')) :
    Covered unit Exits (a.withNormalProcessed f) (b.withNormalProcessed k) := by
  unfold Control.withNormalProcessed
  cases ha : a.normalState with
  | none =>
    cases hb : b.normalState with
    | none => exact covered_pure h
    | some state' =>
      have hsome := h.normal (by rw [hb]; rfl)
      rw [ha] at hsome
      cases hsome
  | some state =>
    cases hb : b.normalState with
    | none =>
      -- the summary pass has stopped; the collecting pass goes on
      apply covered_right_pure
      · exact (hf state state).grows.bind fun processed => grows_pure _
      · intro remaining graph
        change Control.Within b (a.withoutNormal.join _)
        apply Control.Within.trans _ (Control.within_join_left _ _)
        exact ⟨by rw [hb]; exact nofun, h.breaks, h.continues⟩
    | some state' =>
      apply (hf state state').bind
      intro processed processed' hprocessed
      exact covered_pure (h.withoutNormal.join hprocessed)

omit [AbstractDomain D] in
theorem covered_foldlM {α : Type} {items : List α}
    {f : Control D → α → Traversal (CollectM U) (Control D)}
    {k : Control D → α → Traversal (SummaryM U S) (Control D)}
    (hf : ∀ item ∈ items, ∀ a b, Exits a b → Covered unit Exits (f a item) (k b item))
    {a b : Control D} (h : Exits a b) :
    Covered unit Exits (items.foldlM f a) (items.foldlM k b) := by
  induction items generalizing a b with
  | nil => exact covered_pure h
  | cons item items ih =>
    rw [List.foldlM_cons, List.foldlM_cons]
    apply (hf item List.mem_cons_self a b h).bind
    intro a' b' h'
    exact ih (fun other hother => hf other (List.mem_cons_of_mem _ hother)) h'

end

namespace HirAbstractInterpreter

section
variable {unit : U} {eval : HirNode → D → Traversal (CollectM U) (Control D)}
  {eval' : HirNode → D → Traversal (SummaryM U S) (Control D)}

variable (unit eval eval') in
/-- The two evaluators at a node. -/
def NodeCovered (node : HirNode) : Prop :=
  ∀ state state', Covered unit Exits (eval node state) (eval' node state')

variable {a b : Control D}

theorem exprsControl_covered {exprs : List HirExprId}
    (hc : ∀ expr ∈ exprs, NodeCovered unit eval eval' (.expr expr))
    (h : Exits a b) : Covered unit Exits (exprsControl eval exprs a) (exprsControl eval' exprs b) :=
  covered_foldlM (fun expr hexpr _ _ h => covered_withNormalProcessed h (hc expr hexpr)) h

theorem argsControl_covered {args : List HirArg}
    (hc : ∀ arg ∈ args, NodeCovered unit eval eval' (.expr arg.expr))
    (h : Exits a b) : Covered unit Exits (argsControl eval args a) (argsControl eval' args b) :=
  covered_foldlM (fun arg harg _ _ h => covered_withNormalProcessed h (hc arg harg)) h

theorem recordFieldsControl_covered {fields : List HirFieldInit}
    (hc : ∀ name value, .named name value ∈ fields → NodeCovered unit eval eval' (.expr value))
    (h : Exits a b) :
    Covered unit Exits (recordFieldsControl eval fields a) (recordFieldsControl eval' fields b) := by
  apply covered_foldlM _ h
  intro field hfield a b h
  cases field with
  | shorthand name => exact covered_pure h
  | named name value => exact covered_withNormalProcessed h (hc name value hfield)

theorem mapEntriesControl_covered {entries : List HirMapEntry}
    (hc : ∀ entry ∈ entries, NodeCovered unit eval eval' (.expr entry.key) ∧
      NodeCovered unit eval eval' (.expr entry.value)) (h : Exits a b) :
    Covered unit Exits (mapEntriesControl eval entries a) (mapEntriesControl eval' entries b) := by
  apply covered_foldlM _ h
  intro entry hentry a b h
  apply (covered_withNormalProcessed h (hc entry hentry).1).bind
  intro a b h
  exact covered_withNormalProcessed h (hc entry hentry).2

theorem stagesControl_covered {stages : List HirStage}
    (hc : ∀ stage ∈ stages, ∀ expr ∈ stage.expr :: stage.limits,
      NodeCovered unit eval eval' (.expr expr)) (h : Exits a b) :
    Covered unit Exits (stagesControl eval stages a) (stagesControl eval' stages b) := by
  apply covered_foldlM _ h
  intro stage hstage a b h
  apply (covered_withNormalProcessed h (hc stage hstage _ List.mem_cons_self)).bind
  intro a b h
  exact exprsControl_covered
    (fun expr hexpr => hc stage hstage expr (List.mem_cons_of_mem _ hexpr)) h

theorem foldlM_stopped {m : Type → Type} [Monad m] [LawfulMonad m] {α : Type}
    (f : α → D → m (Control D)) (items : List α) {control : Control D}
    (h : control.normalState = none) :
    items.foldlM (fun control item => control.withNormalProcessed (f item)) control =
      pure control := by
  induction items with
  | nil => rfl
  | cons item items ih =>
    have hstop : control.withNormalProcessed (f item) = pure control := by
      rw [Control.withNormalProcessed, h]
    rw [List.foldlM_cons, hstop, pure_bind, ih]

theorem stmtsControl_eq_foldlM {m : Type → Type} [Monad m] [LawfulMonad m]
    (eval : HirNode → D → Traversal m (Control D)) (stmts : List HirStmtId) (control : Control D) :
    stmtsControl eval stmts control =
      stmts.foldlM (fun control stmt => control.withNormalProcessed (eval (.stmt stmt))) control := by
  induction stmts generalizing control with
  | nil => rfl
  | cons stmt stmts ih =>
    rw [stmtsControl, List.foldlM_cons]
    apply bind_congr
    intro control
    split
    next h => exact (foldlM_stopped (fun stmt => eval (.stmt stmt)) stmts
      (Option.isNone_iff_eq_none.mp h)).symm
    next => exact ih control

theorem stmtsControl_covered {stmts : List HirStmtId}
    (hc : ∀ stmt ∈ stmts, NodeCovered unit eval eval' (.stmt stmt))
    (h : Exits a b) :
    Covered unit Exits (stmtsControl eval stmts a) (stmtsControl eval' stmts b) := by
  rw [stmtsControl_eq_foldlM, stmtsControl_eq_foldlM]
  exact covered_foldlM (fun stmt hstmt _ _ h => covered_withNormalProcessed h (hc stmt hstmt)) h

omit [AbstractDomain D] in
theorem valueControl_covered {value : Option HirExprId}
    (hc : ∀ expr ∈ value, NodeCovered unit eval eval' (.expr expr)) (state state' : D) :
    Covered unit Exits (valueControl eval value state) (valueControl eval' value state') := by
  cases value with
  | none => exact covered_pure (Control.within_normal state' state)
  | some expr => exact hc expr rfl state state'

omit [AbstractDomain D] in
theorem elseControl_covered {elseBranch : Option HirElseBranch}
    (hc : ∀ branch ∈ elseBranch, NodeCovered unit eval eval' branch.node) (state state' : D) :
    Covered unit Exits (elseControl eval elseBranch state) (elseControl eval' elseBranch state') := by
  cases elseBranch with
  | none => exact covered_pure (Control.within_normal state' state)
  | some branch => exact hc branch rfl state state'

end

/-! Loops. Both passes run the body at least once, from any state. -/

variable {unit : U} {block : D → Traversal (CollectM U) (Control D)}
  {block' : D → Traversal (SummaryM U S) (Control D)}

omit [AbstractDomain D] in
/-- The loop of the one pass, and any traversal that only uses the body in the other: the body has
noted all that it reads. -/
theorem covered_of_body {α : Type} {related : Control D → α → Prop}
    (hbody : ∀ state state', Covered unit Exits (block state) (block' state'))
    {run : Traversal (SummaryM U S) α}
    (hreads : ∀ units, (∀ state, ReadsOnly units (block' state)) → ReadsOnly units run)
    (state : D) (wrap : Control D → Control D)
    (hrelated : ∀ control remaining summaries diagnostics,
      related (wrap control) (applied run remaining summaries diagnostics).1.1) :
    Covered unit related (do let control ← block state; pure (wrap control)) run := by
  intro remaining graph
  refine ⟨(hbody state state remaining graph).1, ?_, ?_⟩
  · apply hreads
    intro state'
    exact (hbody state state' remaining graph).2.1
  · exact fun remaining' summaries diagnostics => hrelated _ remaining' summaries diagnostics

end HirAbstractInterpreter

section
variable {α β : Type}

/-- Every value that a traversal of the summary pass can return. -/
def Yields (values : α → Prop) (run : Traversal (SummaryM U S) α) : Prop :=
  ∀ remaining summaries diagnostics, values (applied run remaining summaries diagnostics).1.1

omit [LinearOrder U] in
theorem yields_pure {values : α → Prop} {value : α} (h : values value) :
    Yields values (pure value : Traversal (SummaryM U S) α) :=
  fun _ _ _ => h

variable {next : α → Traversal (SummaryM U S) β}

omit [LinearOrder U] in
theorem Yields.bind {values : α → Prop} {values' : β → Prop} {run : Traversal (SummaryM U S) α}
    (h : Yields values run)
    (hnext : ∀ value, values value → Yields values' (next value)) : Yields values' (run >>= next) :=
  fun remaining summaries diagnostics =>
    hnext _ (h remaining summaries diagnostics) _ summaries _

omit [LinearOrder U] in
theorem yields_of_next {values : β → Prop} {run : Traversal (SummaryM U S) α}
    (hnext : ∀ value, Yields values (next value)) :
    Yields values (run >>= next) := by
  have hany : Yields (fun _ => True) run := fun _ _ _ => trivial
  exact hany.bind fun value _ => hnext value

end

namespace SummarySolver
variable {self : SummarySolver U D S} {unit : U} {limit : ℕ}

section
variable {block' : D → Traversal (SummaryM U S) (Control D)} {units : List U}

omit [AbstractDomain D] in
theorem readsOnly_fixedState (body : HirBlockId) (solved : D × ConvergenceStatus) :
    ReadsOnly units ((self.transferrer unit).fixedState body solved) := by
  obtain ⟨value, status⟩ := solved
  cases status with
  | converged => exact readsOnly_pure units value
  | iterationLimitReached => exact fun _ _ _ _ _ _ => rfl

theorem readsOnly_loopStep (h : ∀ state, ReadsOnly units (block' state)) (state : D) :
    ReadsOnly units (HirAbstractInterpreter.loopStep block' state) :=
  (h state).bind fun _ => readsOnly_pure units _

theorem readsOnly_loopBlockControl
    (hengine : self.utils.summaryEngine = FixpointEngine.withLimit limit)
    (h : ∀ state, ReadsOnly units (block' state)) (body : HirBlockId) (state : D) :
    ReadsOnly units ((self.transferrer unit).loopBlockControl block' body state) := by
  have hsolve : ReadsOnly units ((self.transferrer unit).engine.trySolve state
      (HirAbstractInterpreter.loopStep block')) := by
    change ReadsOnly units (self.utils.summaryEngine.trySolve state _)
    rw [hengine]
    exact ReadsOnly.solveLoop (readsOnly_loopStep h) limit state
  apply hsolve.bind
  intro solved
  apply (readsOnly_fixedState body solved).bind
  intro fixed
  exact (h fixed).bind fun _ => readsOnly_pure units _

/-- A loop is not left by `break` or `continue`. -/
def Stays (control : Control D) : Prop :=
  control.breakState = none ∧ control.continueState = none

theorem yields_loopBlockControl (body : HirBlockId) (state : D) :
    Yields Stays ((self.transferrer unit).loopBlockControl block' body state) := by
  apply yields_of_next
  intro solved
  apply yields_of_next
  intro fixed
  apply yields_of_next
  intro bodyControl
  exact yields_pure ⟨rfl, rfl⟩

omit [AbstractDomain D] in
theorem readsOnly_break (stmt : HirStmtId) (slot : Option D) :
    ReadsOnly units (slot.mapM fun state =>
      (liftM ((self.transferrer unit).semantics.boundedForBreak stmt state) :
        Traversal (SummaryM U S) D)) := by
  cases slot with
  | none => exact readsOnly_pure units none
  | some state => exact fun _ _ _ _ _ _ => rfl

theorem readsOnly_boundedForLoop
    (hengine : self.utils.summaryEngine = FixpointEngine.withLimit limit)
    (h : ∀ state, ReadsOnly units (block' state)) (stmt : HirStmtId) (body : HirBlockId)
    (iterations : ℕ) (result : Control D) (active : Option D) :
    ReadsOnly units
      ((self.transferrer unit).boundedForLoop block' stmt body iterations result active) := by
  induction iterations generalizing result active with
  | zero => exact readsOnly_pure units _
  | succ iterations ih =>
    cases active with
    | none => exact readsOnly_pure units _
    | some state =>
      have hget : ReadsOnly units (get : Traversal (SummaryM U S) ℕ) := fun _ _ _ _ _ _ => rfl
      apply hget.bind
      intro remaining
      split
      · apply (readsOnly_loopBlockControl hengine h body state).bind
        exact fun rest => readsOnly_pure units _
      · have hset : ReadsOnly units (set (remaining - 1) : Traversal (SummaryM U S) PUnit) :=
          fun _ _ _ _ _ _ => rfl
        apply hset.bind
        intro _
        apply (h state).bind
        intro iteration
        apply (readsOnly_break stmt iteration.breakState).bind
        exact fun broken => ih _ _

theorem yields_boundedForLoop (stmt : HirStmtId) (body : HirBlockId) (iterations : ℕ)
    {result : Control D} (hresult : Stays result) (active : Option D) :
    Yields (fun outcome => Stays outcome.1)
      ((self.transferrer unit).boundedForLoop block' stmt body iterations result active) := by
  induction iterations generalizing result active with
  | zero => exact yields_pure hresult
  | succ iterations ih =>
    cases active with
    | none => exact yields_pure hresult
    | some state =>
      apply yields_of_next
      intro remaining
      split
      · refine Yields.bind (yields_loopBlockControl body state) fun rest hrest => ?_
        apply yields_pure
        constructor
        · exact (congrArg₂ joinSlot hresult.1 hrest.1).trans rfl
        · exact (congrArg₂ joinSlot hresult.2 hrest.2).trans rfl
      · apply yields_of_next
        intro _
        apply yields_of_next
        intro iteration
        apply yields_of_next
        intro broken
        apply ih
        exact hresult

end

variable {block : D → Traversal (CollectM U) (Control D)}
  {block' : D → Traversal (SummaryM U S) (Control D)}

theorem grows_fixedState (body : HirBlockId) (solved : D × ConvergenceStatus) :
    Grows ((self.collector unit).fixedState body solved) := by
  obtain ⟨value, status⟩ := solved
  cases status with
  | converged => exact grows_pure value
  | iterationLimitReached => exact grows_pure value

/-- The loop of the collecting pass against a traversal of the summary pass that uses the body. -/
theorem loopBlockControl_covered {α : Type} {related : Control D → α → Prop}
    (hengine : self.utils.collectEngine = FixpointEngine.withLimit limit)
    (hbody : ∀ state state', Covered unit Exits (block state) (block' state'))
    {run : Traversal (SummaryM U S) α}
    (hreads : ∀ units, (∀ state, ReadsOnly units (block' state)) → ReadsOnly units run)
    (hrelated : ∀ control : Control D, control.normalState.isSome → Yields (related control) run)
    (body : HirBlockId) (state : D) :
    Covered unit related ((self.collector unit).loopBlockControl block body state) run := by
  have hgrows : ∀ state, Grows (block state) := fun state => (hbody state state).grows
  have hsolve : Grows ((self.collector unit).engine.trySolve state
      (HirAbstractInterpreter.loopStep block)) := by
    change Grows (self.utils.collectEngine.trySolve state _)
    rw [hengine]
    apply Grows.solveLoop
    exact fun state => (hgrows state).bind fun _ => grows_pure _
  apply Covered.after hsolve
  intro solved
  apply Covered.after (grows_fixedState body solved)
  intro fixed
  apply HirAbstractInterpreter.covered_of_body hbody hreads fixed
    fun control => ((Control.normal fixed).joinNormal control.breakState).joinExits control
  intro control
  apply hrelated
  exact (Control.isSome_joinSlot _ _).mpr (Or.inl rfl)

variable {condition : D → Traversal (CollectM U) (Control D)}
  {condition' : D → Traversal (SummaryM U S) (Control D)}

/-- The last part of a `while`: its body, where the condition can hold. -/
def whileEnd {m : Type → Type} [Monad m] (block : D → Traversal m (Control D))
    (result : Control D) : Traversal m (Control D) :=
  match result.normalState with
  | none => pure result
  | some conditionState => do
    let bodyControl ← block conditionState
    pure ((result.joinNormal bodyControl.breakState).joinExits bodyControl)

theorem readsOnly_whileEnd {units : List U} {result : Control D}
    (h : result.normalState.isSome → ∀ state, ReadsOnly units (block' state)) :
    ReadsOnly units (whileEnd block' result) := by
  unfold whileEnd
  cases hnormal : result.normalState with
  | none => exact readsOnly_pure units result
  | some conditionState =>
    rw [hnormal] at h
    exact (h rfl conditionState).bind fun _ => readsOnly_pure units _

theorem readsOnly_whileLoopControl {units : List U}
    (hengine : self.utils.summaryEngine = FixpointEngine.withLimit limit)
    (hcondition : ∀ state, ReadsOnly units (condition' state))
    (hblock : ∀ state, Yields
      (fun control => control.normalState.isSome → ∀ state, ReadsOnly units (block' state))
      (condition' state)) (body : HirBlockId) (state : D) :
    ReadsOnly units ((self.transferrer unit).whileLoopControl condition' block' body state) := by
  have hstep : ∀ state, ReadsOnly units
      (HirAbstractInterpreter.whileStep condition' block' state) := by
    intro state
    apply (hcondition state).bind_of
    intro remaining summaries diagnostics
    have hholds := hblock state remaining summaries diagnostics
    generalize (applied (condition' state) remaining summaries diagnostics).1.1 = control at hholds
    split
    next => exact readsOnly_pure units _
    next conditionState heq =>
      rw [heq] at hholds
      exact (hholds rfl conditionState).bind fun _ => readsOnly_pure units _
  have hsolve : ReadsOnly units ((self.transferrer unit).engine.trySolve state
      (HirAbstractInterpreter.whileStep condition' block')) := by
    change ReadsOnly units (self.utils.summaryEngine.trySolve state _)
    rw [hengine]
    exact ReadsOnly.solveLoop hstep limit state
  apply (hcondition state).bind_of
  intro remaining summaries diagnostics
  have hfirst := hblock state remaining summaries diagnostics
  generalize (applied (condition' state) remaining summaries diagnostics).1.1 = first at hfirst
  apply hsolve.bind
  intro solved
  apply (readsOnly_fixedState body solved).bind
  intro fixed
  apply (hcondition fixed).bind_of
  intro remaining' summaries' diagnostics'
  have hlast := hblock fixed remaining' summaries' diagnostics'
  generalize (applied (condition' fixed) remaining' summaries' diagnostics').1.1 = last at hlast
  change ReadsOnly units (whileEnd block' (first.join last))
  apply readsOnly_whileEnd
  intro hnormal
  rcases (Control.isSome_joinSlot _ _).mp hnormal with h | h
  · exact hfirst h
  · exact hlast h

theorem within_whileEnd (result : Control D) (slot : Option D) (body : Control D)
    (h : result.normalState.isSome) :
    ((result.joinNormal slot).joinExits body).Within result ∧
      result.Within ((result.joinNormal slot).joinExits body) := by
  refine ⟨⟨fun _ => h, id, id⟩, ⟨fun _ => ?_, id, id⟩⟩
  exact (Control.isSome_joinSlot _ _).mpr (Or.inl h)

theorem yields_whileLoopControl {outer : Control D}
    (hcondition : ∀ state, Yields (Exits outer) (condition' state)) (body : HirBlockId)
    (state : D) : Yields (Exits outer)
      ((self.transferrer unit).whileLoopControl condition' block' body state) := by
  refine (hcondition state).bind fun first hfirst => ?_
  apply yields_of_next
  intro solved
  apply yields_of_next
  intro fixed
  refine (hcondition fixed).bind fun last hlast => ?_
  have hresult : (first.join last).Within outer := by
    have hjoin := hfirst.join hlast
    rwa [Control.join_idem] at hjoin
  change Yields (Exits outer) (whileEnd block' (first.join last))
  unfold whileEnd
  cases hnormal : (first.join last).normalState with
  | none => exact yields_pure hresult
  | some conditionState =>
    apply yields_of_next
    intro bodyControl
    apply yields_pure
    exact (within_whileEnd _ _ _ (by rw [hnormal]; rfl)).1.trans hresult

variable (unit) in
/-- What a `while` of the collecting pass does after its first condition. -/
theorem grows_whileRest (hengine : self.utils.collectEngine = FixpointEngine.withLimit limit)
    (hcondition : ∀ state, Grows (condition state)) (hblock : ∀ state, Grows (block state))
    (body : HirBlockId) (state : D) : Grows (do
      let solved ← (self.collector unit).engine.trySolve state
        (HirAbstractInterpreter.whileStep condition block)
      let fixed ← (self.collector unit).fixedState body solved
      condition fixed) := by
  have hstep : ∀ state, Grows (HirAbstractInterpreter.whileStep condition block state) := by
    intro state
    apply (hcondition state).bind
    intro control
    split
    · exact grows_pure _
    · exact (hblock _).bind fun _ => grows_pure _
  have hsolve : Grows ((self.collector unit).engine.trySolve state
      (HirAbstractInterpreter.whileStep condition block)) := by
    change Grows (self.utils.collectEngine.trySolve state _)
    rw [hengine]
    exact Grows.solveLoop hstep limit state
  apply hsolve.bind
  intro solved
  apply (grows_fixedState body solved).bind
  exact hcondition

/-- The rest of a `while`, after a condition that has noted all that conditions read. -/
theorem whileEnd_covered (hengine : self.utils.summaryEngine = FixpointEngine.withLimit limit)
    (hbody : ∀ state state', Covered unit Exits (block state) (block' state')) {first : Control D}
    {rest : Traversal (CollectM U) (Control D)} (hrest : Grows rest) {graph : CallGraph U}
    (hreads : ∀ state, ReadsOnly (graph.dependencies unit) (condition' state))
    (hyields : ∀ state, Yields (Exits first) (condition' state)) (remaining : ℕ) (body : HirBlockId)
    (state : D) {whole : (Control D × ℕ) × CallGraph U}
    (hwhole : collected (rest >>= fun last => whileEnd block (first.join last)) remaining graph =
      whole) :
    graph.Le whole.2 ∧ ReadsOnly (whole.2.dependencies unit)
      ((self.transferrer unit).whileLoopControl condition' block' body state) ∧
      first.Within whole.1.1 := by
  subst hwhole
  have hgrow := hrest remaining graph
  change graph.Le (collected (whileEnd block (first.join (collected rest remaining graph).1.1))
      (collected rest remaining graph).1.2 (collected rest remaining graph).2).2 ∧
    ReadsOnly ((collected (whileEnd block (first.join (collected rest remaining graph).1.1))
      (collected rest remaining graph).1.2 (collected rest remaining graph).2).2.dependencies unit)
        _ ∧
    first.Within (collected (whileEnd block (first.join (collected rest remaining graph).1.1))
      (collected rest remaining graph).1.2 (collected rest remaining graph).2).1.1
  generalize collected rest remaining graph = out at hgrow
  obtain ⟨⟨last, left⟩, graph'⟩ := out
  dsimp only at hgrow ⊢
  have hwithin := Control.within_join_left first last
  unfold whileEnd
  cases hnormal : (first.join last).normalState with
  | none =>
    refine ⟨hgrow, ?_, hwithin⟩
    apply readsOnly_whileLoopControl hengine
    · exact fun state => (hreads state).mono (hgrow.2 unit)
    · intro state remaining summaries diagnostics hsome
      have hjoin := hwithin.normal ((hyields state remaining summaries diagnostics).normal hsome)
      rw [hnormal] at hjoin
      cases hjoin
  | some conditionState =>
    have hblock := fun state => hbody conditionState state left graph'
    have hle := hgrow.trans (hblock conditionState).1
    refine ⟨hle, ?_, ?_⟩
    · apply readsOnly_whileLoopControl hengine
      · exact fun state => (hreads state).mono (hle.2 unit)
      · exact fun _ _ _ _ _ state => (hblock state).2.1
    · exact hwithin.trans (within_whileEnd _ _ _ (by rw [hnormal]; rfl)).2

theorem whileLoopControl_covered {limit limit' : ℕ}
    (hengine : self.utils.collectEngine = FixpointEngine.withLimit limit)
    (hengine' : self.utils.summaryEngine = FixpointEngine.withLimit limit')
    (hcondition : ∀ state state', Covered unit Exits (condition state) (condition' state'))
    (hbody : ∀ state state', Covered unit Exits (block state) (block' state'))
    (body : HirBlockId) (state state' : D) :
    Covered unit Exits ((self.collector unit).whileLoopControl condition block body state)
      ((self.transferrer unit).whileLoopControl condition' block' body state') := by
  intro remaining graph
  have hfirst := fun other => hcondition state other remaining graph
  have hyields : ∀ other, Yields (Exits (collected (condition state) remaining graph).1.1)
      (condition' other) := fun other => (hfirst other).2.2
  have hrest := grows_whileRest unit hengine (fun state => (hcondition state state).grows)
    (fun state => (hbody state state).grows) body state
  obtain ⟨hle, hreads, hwithin⟩ := whileEnd_covered hengine' hbody hrest
    (fun other => (hfirst other).2.1) hyields (collected (condition state) remaining graph).1.2
    body state' rfl
  refine ⟨(hfirst state).1.trans hle, hreads, ?_⟩
  intro remaining' summaries diagnostics
  apply Control.Within.trans _ hwithin
  exact yields_whileLoopControl hyields body state' remaining' summaries diagnostics

end SummarySolver
end EtasFrontend.Analysis
