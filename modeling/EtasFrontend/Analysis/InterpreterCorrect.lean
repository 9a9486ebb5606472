import EtasFrontend.Analysis.Plain
import Mathlib.Algebra.Order.BigOperators.Group.List
import Mathlib.Algebra.Group.Action.Defs
import Mathlib.Algebra.Order.Ring.Nat

/-! The interpreter gives what the plain evaluator gives, and calls the hooks in the same order. -/
namespace EtasFrontend.Analysis

variable {m : Type → Type} [Monad m] [LawfulMonad m] {D : Type} [AbstractDomain D]

namespace HirAbstractInterpreter
variable (self : HirAbstractInterpreter m D)

/-! The plain evaluator at the three kinds of expression. -/

omit [LawfulMonad m] in
theorem plainControl_expr (expr : HirExprId) (state : D) :
    self.plainControl (.expr expr) state =
      self.exprControl self.plainControl (self.plainChains self.plainControl) expr state := by
  rw [plainControl_eq]
  rfl

variable {operands : List HirExprId} {expr : HirExprId}

omit [LawfulMonad m] in
theorem plainControl_next {next : D → Traversal m (Control D)}
    (h : ∀ state, self.exprNext self.plainControl (self.plainChains self.plainControl) expr state =
      next state) (state : D) :
    self.plainControl (.expr expr) state = (do
      let state ← self.semantics.beforeExpr expr state
      let next ← next state
      self.semantics.afterExprControl expr next) := by
  rw [plainControl_expr, exprControl]
  exact bind_congr fun state => by rw [h]

omit [LawfulMonad m] in
theorem plainControl_structural (h : (self.program.exprs expr).operands = some operands)
    (state : D) :
    self.plainControl (.expr expr) state = (do
      let state ← self.semantics.beforeExpr expr state
      let next ← exprsControl self.plainControl operands (Control.normal state)
      self.semantics.afterExprControl expr next) := by
  refine self.plainControl_next (fun state => ?_) state
  have hnext : self.exprNext self.plainControl (self.plainChains self.plainControl) expr state =
      self.plainStructural self.plainControl expr state := by
    unfold exprNext
    cases hexpr : self.program.exprs expr <;> rw [hexpr] at h <;> first | rfl | cases h
  rw [hnext, plainStructural, h]

omit [LawfulMonad m] in
theorem plainControl_if (h : isIf (self.program.exprs expr)) (state : D) :
    self.plainControl (.expr expr) state = (do
      let state ← self.semantics.beforeExpr expr state
      let next ← self.plainIf self.plainControl expr state
      self.semantics.afterExprControl expr next) := by
  refine self.plainControl_next (fun state => ?_) state
  unfold exprNext
  cases hexpr : self.program.exprs expr <;> rw [hexpr] at h <;> first | rfl | cases h

omit [LawfulMonad m] in
theorem plainControl_methodCall (h : isMethodCall (self.program.exprs expr)) (state : D) :
    self.plainControl (.expr expr) state = (do
      let state ← self.semantics.beforeExpr expr state
      let next ← self.plainMethodCall self.plainControl expr state
      self.semantics.afterExprControl expr next) := by
  refine self.plainControl_next (fun state => ?_) state
  unfold exprNext
  cases hexpr : self.program.exprs expr <;> rw [hexpr] at h <;> first | rfl | cases h

/-- What a task does, with a call for an expression. -/
noncomputable def runTask (control : Control D) : Task D → Traversal m (Control D)
  | .enter expr => control.withNormalProcessed (self.plainControl (.expr expr))
  | .complete expr => self.semantics.afterExprControl expr control
  | .merge inherited => pure (control.join inherited)

/-- A bound on the turns that a task takes: an expression has at most three operands. -/
def taskWeight (rank : HirNode → ℕ) : Task D → ℕ
  | .enter expr => 6 ^ (rank (.expr expr) + 1)
  | .complete _ => 1
  | .merge _ => 1

def tasksWeight (rank : HirNode → ℕ) (tasks : List (Task D)) : ℕ :=
  (tasks.map (taskWeight rank)).sum

omit [AbstractDomain D] in
theorem taskWeight_pos (rank : HirNode → ℕ) (task : Task D) : 0 < taskWeight rank task := by
  cases task with
  | enter expr => exact Nat.pow_pos (by decide)
  | complete expr => exact Nat.one_pos
  | merge inherited => exact Nat.one_pos

theorem length_operands {expr : HirExpr} (h : expr.operands = some operands) :
    operands.length ≤ 3 := by
  cases expr <;> cases h <;> simp

omit [AbstractDomain D] in
theorem tasksWeight_operands (rank : HirNode → ℕ) {expr : HirExpr}
    (h : expr.operands = some operands) {k : ℕ}
    (hrank : ∀ operand ∈ operands, rank (.expr operand) < k) :
    tasksWeight rank (operands.map (Task.enter (D := D))) ≤ 3 * 6 ^ k := by
  have hsum := List.sum_le_card_nsmul ((operands.map (Task.enter (D := D))).map (taskWeight rank))
    (6 ^ k) (by
      intro weight hweight
      simp only [List.map_map, List.mem_map, Function.comp_apply] at hweight
      obtain ⟨operand, hoperand, rfl⟩ := hweight
      exact Nat.pow_le_pow_right (by decide) (hrank operand hoperand))
  have hlength := length_operands h
  simp only [List.length_map, smul_eq_mul] at hsum
  exact hsum.trans (Nat.mul_le_mul_right _ hlength)

theorem foldlM_mergeTask (inherited control : Control D) :
    (mergeTask inherited).foldlM self.runTask control = pure (inherited.join control) := by
  unfold mergeTask
  split_ifs with h
  · rw [Control.eq_bottom_of_isEmpty h, Control.bottom_join]
    rfl
  · rw [List.foldlM_cons, runTask, Control.join_comm, pure_bind]
    rfl

omit [LawfulMonad m] in
theorem foldlM_enter (operands : List HirExprId) (control : Control D) :
    (operands.map Task.enter).foldlM self.runTask control =
      exprsControl self.plainControl operands control := by
  rw [List.foldlM_map]
  rfl

/-- The tasks an expression leaves do what a call does. -/
theorem foldlM_structural (hops : (self.program.exprs expr).operands = some operands)
    (inherited : Control D) (tasks : List (Task D)) (state : D) : (do
      let state ← self.semantics.beforeExpr expr state
      (operands.map Task.enter ++ Task.complete expr :: mergeTask inherited ++ tasks).foldlM
        self.runTask (Control.normal state) : Traversal m (Control D)) = (do
      let processed ← self.plainControl (.expr expr) state
      tasks.foldlM self.runTask (inherited.join processed)) := by
  rw [self.plainControl_structural hops]
  simp only [bind_assoc, List.foldlM_append, List.foldlM_cons, foldlM_enter, foldlM_mergeTask,
    runTask, pure_bind]

section
variable {eval : HirNode → D → Traversal m (Control D)} {rank : HirNode → ℕ} {k : ℕ}

variable (hrank : ∀ node, ∀ child ∈ self.program.children node, rank child < rank node)

omit [Monad m] [LawfulMonad m] [AbstractDomain D] in
include hrank in
theorem rank_operand (hops : (self.program.exprs expr).operands = some operands) :
    ∀ operand ∈ operands, rank (.expr operand) < rank (.expr expr) := by
  intro operand hoperand
  apply hrank
  rw [HirArenas.children, children_of_operands hops]
  exact List.mem_map_of_mem hoperand

variable {turns : ℕ}

include hrank in
/-- The loop does what its tasks do in turn. -/
theorem structuralLoop_eq
    (hbelow : ∀ node, rank node < k → eval node = self.plainControl node) {tasks : List (Task D)}
    (htasks : ∀ expr, .enter expr ∈ tasks → rank (.expr expr) < k)
    (hturns : tasksWeight rank tasks ≤ turns) (control : Control D) :
    self.structuralLoop eval turns tasks control = tasks.foldlM self.runTask control := by
  induction turns generalizing tasks control with
  | zero =>
    cases tasks with
    | nil => rfl
    | cons task tasks =>
      have hpos := taskWeight_pos rank task
      simp only [tasksWeight, List.map_cons, List.sum_cons] at hturns
      omega
  | succ turns ih =>
    cases tasks with
    | nil => rfl
    | cons task tasks =>
      simp only [tasksWeight, List.map_cons, List.sum_cons] at hturns
      have hrest : ∀ expr, .enter expr ∈ tasks → rank (.expr expr) < k :=
        fun expr hexpr => htasks expr (List.mem_cons_of_mem _ hexpr)
      have hstep : ∀ control, self.structuralLoop eval turns tasks control =
          tasks.foldlM self.runTask control := by
        apply ih hrest
        have hpos := taskWeight_pos rank task
        unfold tasksWeight
        omega
      rw [List.foldlM_cons]
      cases task with
      | complete expr =>
        rw [structuralLoop, runTask]
        exact bind_congr fun next => hstep next
      | merge inherited =>
        rw [structuralLoop, runTask, pure_bind]
        exact hstep _
      | enter expr =>
        have hexpr := htasks expr List.mem_cons_self
        rw [structuralLoop, runTask, Control.withNormalProcessed]
        cases hnormal : control.normalState with
        | none =>
          dsimp only
          rw [pure_bind]
          exact hstep control
        | some state =>
          dsimp only
          cases hops : (self.program.exprs expr).operands with
          | none =>
            dsimp only
            rw [hbelow _ hexpr, bind_assoc]
            apply bind_congr
            intro next
            rw [pure_bind, Control.join_comm]
            exact hstep _
          | some operands =>
            have hoperands := self.rank_operand hrank hops
            have hweight := tasksWeight_operands (D := D) rank hops hoperands
            dsimp only
            rw [bind_assoc]
            simp only [pure_bind]
            rw [← self.foldlM_structural hops]
            apply bind_congr
            intro state
            apply ih
            · intro operand hmem
              simp only [mergeTask, List.mem_append, List.mem_map, List.mem_cons] at hmem
              rcases hmem with (⟨other, hother, heq⟩ | heq | hmerge) | htail
              · cases heq
                exact (hoperands operand hother).trans hexpr
              · cases heq
              · split_ifs at hmerge
                · cases hmerge
                · cases List.mem_singleton.mp hmerge
              · exact hrest operand htail
            · have hmerge : tasksWeight rank (mergeTask control.withoutNormal) ≤ 1 := by
                unfold mergeTask
                split_ifs <;> simp [tasksWeight, taskWeight]
              have hpow : 1 ≤ 6 ^ rank (.expr expr) := Nat.one_le_pow _ _ (by decide)
              simp only [taskWeight, pow_succ] at hturns
              simp only [tasksWeight, List.map_append, List.map_cons, List.sum_append,
                List.sum_cons, taskWeight] at hweight hmerge ⊢
              omega

variable {root : HirExprId}

variable (hbelow : ∀ node, rank node < rank (.expr root) → eval node = self.plainControl node)

include hrank hbelow in
theorem structuralExprControl_eq
    (hturns : 3 * 6 ^ rank (.expr root) ≤ turns)
    (hroot : (self.program.exprs root).operands.isSome) :
    self.structuralExprControl eval turns root = self.plainStructural self.plainControl root := by
  funext state
  obtain ⟨operands, hops⟩ := Option.isSome_iff_exists.mp hroot
  have hoperands := self.rank_operand hrank hops
  unfold structuralExprControl plainStructural
  rw [hops]
  dsimp only
  rw [self.structuralLoop_eq hrank hbelow, foldlM_enter]
  · intro operand hmem
    obtain ⟨other, hother, heq⟩ := List.mem_map.mp hmem
    cases heq
    exact hoperands operand hother
  · exact (tasksWeight_operands rank hops hoperands).trans hturns

/-! Chains of method calls. -/

theorem exists_of_isMethodCall {e : HirExpr} (h : isMethodCall e) :
    ∃ receiver args, e = .methodCall receiver args := by
  cases e with
  | methodCall receiver args => exact ⟨receiver, args, rfl⟩
  | _ => cases h

/-- What follows the way down. -/
def leaveReceivers (eval : HirNode → D → Traversal m (Control D)) (root : HirExprId)
    (entered : HirExprId × D × List HirExprId) : Traversal m (Control D) := do
  let control ← eval (.expr entered.1) entered.2.1
  entered.2.2.foldlM (self.leaveReceiver eval root) control

/-- A call of the chain; the hooks of the root are not the chain's. -/
noncomputable def receiverControl (root current : HirExprId) (state : D) :
    Traversal m (Control D) :=
  if current = root then self.plainMethodCall self.plainControl root state
  else self.plainControl (.expr current) state

theorem receiverControl_methodCall {root current receiver : HirExprId} {args : List HirArg}
    (h : self.program.exprs current = .methodCall receiver args) (state : D) :
    self.receiverControl root current state = (do
      let state ← self.beforeInner root current state
      let control ← self.plainControl (.expr receiver) state
      let control ← argsControl self.plainControl args control
      let control ← self.applyNormalStep control (self.semantics.methodCall current)
      self.afterInner root current control : Traversal m (Control D)) := by
  unfold receiverControl beforeInner afterInner
  by_cases hcurrent : current = root
  · subst hcurrent
    simp [plainMethodCall, h]
  · have hmethod : isMethodCall (self.program.exprs current) := by simp [h, isMethodCall]
    simp [hcurrent, self.plainControl_methodCall hmethod, plainMethodCall, h]

include hrank hbelow in
theorem enterReceivers_eq (hroot : isMethodCall (self.program.exprs root))
    {current : HirExprId} (hcurrent : rank (.expr current) ≤ rank (.expr root))
    (hne : current ≠ root → rank (.expr current) < rank (.expr root))
    (hturns : rank (.expr current) < turns) (state : D) (chain : List HirExprId) :
    self.enterReceivers root turns current state chain >>= self.leaveReceivers eval root = (do
      let control ← self.receiverControl root current state
      chain.foldlM (self.leaveReceiver eval root) control) := by
  induction turns generalizing current state chain with
  | zero => exact absurd hturns (Nat.not_lt_zero _)
  | succ turns ih =>
    rw [enterReceivers]
    split
    next receiver args hexpr =>
      have hchildren := hrank (.expr current)
      rw [HirArenas.children, hexpr] at hchildren
      have hreceiver : rank (.expr receiver) < rank (.expr current) :=
        hchildren _ List.mem_cons_self
      have hargs : ∀ arg ∈ args, eval (.expr arg.expr) = self.plainControl (.expr arg.expr) := by
        intro arg harg
        apply hbelow
        refine (hchildren _ ?_).trans_le hcurrent
        simp only [HirExpr.children, List.mem_cons, List.mem_map]
        exact Or.inr ⟨arg, harg, rfl⟩
      have hinner : receiver ≠ root := by
        rintro rfl
        exact absurd hreceiver (Nat.not_lt.mpr hcurrent)
      rw [self.receiverControl_methodCall hexpr]
      simp only [bind_assoc]
      apply bind_congr
      intro state
      rw [ih (hreceiver.trans_le hcurrent).le (fun _ => hreceiver.trans_le hcurrent) (by omega),
        receiverControl, if_neg hinner]
      apply bind_congr
      intro control
      rw [List.foldlM_cons, leaveReceiver, callArgs, hexpr]
      dsimp only
      rw [argsControl_congr hargs]
      simp only [bind_assoc]
    next hexpr =>
      have hinner : current ≠ root := by
        rintro rfl
        obtain ⟨receiver, args, heq⟩ := exists_of_isMethodCall hroot
        exact hexpr receiver args heq
      rw [pure_bind, leaveReceivers, receiverControl, if_neg hinner, hbelow _ (hne hinner)]

include hrank hbelow in
theorem methodCallChainControl_eq
    (hturns : rank (.expr root) < turns) (hroot : isMethodCall (self.program.exprs root)) :
    self.methodCallChainControl eval turns root =
      self.plainMethodCall self.plainControl root := by
  funext state
  have h := self.enterReceivers_eq hrank hbelow hroot le_rfl (fun h => absurd rfl h) hturns state []
  rw [receiverControl, if_pos rfl] at h
  simp only [List.foldlM_nil, bind_pure] at h
  exact h

theorem exists_of_isIf {e : HirExpr} (h : isIf e) :
    ∃ cond thenBlock elseBranch, e = .if cond thenBlock elseBranch := by
  cases e with
  | «if» cond thenBlock elseBranch => exact ⟨cond, thenBlock, elseBranch, rfl⟩
  | _ => cases h

omit [Monad m] [LawfulMonad m] [AbstractDomain D] in
theorem tailIf_spec {block : HirBlockId} {next : HirExprId}
    (h : self.tailIfExprInEmptyBlock block = some next) :
    (self.program.blocks block).stmts = [] ∧
      (self.program.blocks block).finalExpr = some next ∧ isIf (self.program.exprs next) := by
  unfold tailIfExprInEmptyBlock at h
  split_ifs at h with hstmts
  obtain ⟨hfinal, hif⟩ := Option.filter_eq_some_iff.mp h
  exact ⟨List.isEmpty_iff.mp hstmts, hfinal, hif⟩

theorem plainControl_tailIf {block : HirBlockId} {next : HirExprId}
    (h : self.tailIfExprInEmptyBlock block = some next) (base : D) :
    self.plainControl (.block block) base = self.plainControl (.expr next) base := by
  obtain ⟨hstmts, hfinal, -⟩ := self.tailIf_spec h
  rw [plainControl_eq, plainNode, blockControl, hstmts, hfinal, stmtsControl, pure_bind]
  dsimp only
  rw [Control.withNormalProcessed_normal]

include hrank in
/-- An `else` that goes on with an `if` is that `if`. -/
theorem elseIfExpr_spec
    {current cond next : HirExprId} {thenBlock : HirBlockId} {elseBranch : Option HirElseBranch}
    (hexpr : self.program.exprs current = .if cond thenBlock elseBranch)
    (h : self.elseIfExpr elseBranch = some next) :
    isIf (self.program.exprs next) ∧ rank (.expr next) < rank (.expr current) ∧
      ∀ base, elseControl self.plainControl elseBranch base =
        self.plainControl (.expr next) base := by
  have hchildren := hrank (.expr current)
  rw [HirArenas.children, hexpr] at hchildren
  cases elseBranch with
  | none => cases h
  | some branch =>
    have hbranch : rank branch.node < rank (.expr current) :=
      hchildren _ (by simp [HirExpr.children])
    cases branch with
    | «if» expr =>
      cases h
      obtain ⟨cond', thenBlock', elseBranch', hnext⟩ := self.program.elseIf _ _ _ _ hexpr
      refine ⟨?_, hbranch, fun base => rfl⟩
      rw [hnext]
      rfl
    | block block =>
      obtain ⟨-, hfinal, hif⟩ := self.tailIf_spec h
      refine ⟨hif, lt_trans ?_ hbranch, self.plainControl_tailIf h⟩
      apply hrank
      simp [HirArenas.children, HirBlock.children, HirElseBranch.node, hfinal]

/-- What follows the way down. -/
def leaveIfs (root : HirExprId) (entered : Control D × List (IfFrame D)) :
    Traversal m (Control D) :=
  entered.2.foldlM (self.leaveIf root) entered.1

include hrank hbelow in
theorem enterIfs_eq {current : HirExprId} (hif : isIf (self.program.exprs current))
    (hcurrent : rank (.expr current) ≤ rank (.expr root)) (hturns : rank (.expr current) < turns)
    (entry : D) (frames : List (IfFrame D)) :
    self.enterIfs eval root turns current entry frames >>= self.leaveIfs root = (do
      let control ← self.plainIf self.plainControl current entry
      let control ← self.afterInner root current control
      frames.foldlM (self.leaveIf root) control) := by
  induction turns generalizing current entry frames with
  | zero => exact absurd hturns (Nat.not_lt_zero _)
  | succ turns ih =>
    obtain ⟨cond, thenBlock, elseBranch, hexpr⟩ := exists_of_isIf hif
    have hchildren := hrank (.expr current)
    rw [HirArenas.children, hexpr] at hchildren
    have hcond : eval (.expr cond) = self.plainControl (.expr cond) :=
      hbelow _ ((hchildren _ (by simp [HirExpr.children])).trans_le hcurrent)
    have hthen : eval (.block thenBlock) = self.plainControl (.block thenBlock) :=
      hbelow _ ((hchildren _ (by simp [HirExpr.children])).trans_le hcurrent)
    have helse : ∀ branch ∈ elseBranch, eval branch.node = self.plainControl branch.node := by
      intro branch hbranch
      apply hbelow
      refine (hchildren _ ?_).trans_le hcurrent
      simp [HirExpr.children, Option.mem_def.mp hbranch]
    rw [enterIfs, plainIf, hexpr]
    dsimp only
    rw [hcond, hthen]
    simp only [bind_assoc]
    apply bind_congr
    intro condition
    rw [Control.withNormalProcessed]
    cases hnormal : condition.normalState with
    | none => simp [leaveIfs]
    | some base =>
      dsimp only
      simp only [bind_assoc]
      apply bind_congr
      intro thenControl
      cases hnext : self.elseIfExpr elseBranch with
      | none =>
        dsimp only
        rw [elseControl_congr helse]
        simp [leaveIfs, leaveIf, Control.join_assoc]
      | some next =>
        obtain ⟨hnextIf, hnextRank, hcontrol⟩ := self.elseIfExpr_spec hrank hexpr hnext
        have hinner : next ≠ root := by
          rintro rfl
          exact absurd hnextRank (Nat.not_lt.mpr hcurrent)
        dsimp only
        rw [hcontrol, self.plainControl_if hnextIf]
        simp only [bind_assoc]
        apply bind_congr
        intro entry
        rw [ih hnextIf (hnextRank.trans_le hcurrent).le (by omega)]
        apply bind_congr
        intro control
        simp [afterInner, hinner, leaveIf, Control.join_assoc]

include hrank hbelow in
theorem ifChainControl_eq
    (hturns : rank (.expr root) < turns) (hroot : isIf (self.program.exprs root)) :
    self.ifChainControl eval turns root = self.plainIf self.plainControl root := by
  funext state
  have h := self.enterIfs_eq hrank hbelow hroot le_rfl hturns state []
  simp only [afterInner, if_true, List.foldlM_nil, bind_pure, liftM_pure] at h
  exact h

end

theorem control_eq_of_rank {rank : HirNode → ℕ}
    (hrank : ∀ node, ∀ child ∈ self.program.children node, rank child < rank node) (fuel : ℕ)
    (node : HirNode) (hfuel : 6 ^ (rank node + 1) ≤ fuel) :
    self.control fuel node = self.plainControl node := by
  induction fuel generalizing node with
  | zero => exact absurd hfuel (Nat.not_le.mpr (Nat.pow_pos (by decide)))
  | succ fuel ih =>
    have hpow : 6 ^ (rank node + 1) = 6 * 6 ^ rank node := pow_succ' 6 (rank node)
    have hpos : rank node < 6 ^ rank node := Nat.lt_pow_self (by decide)
    have hbelow : ∀ other, rank other < rank node →
        self.control fuel other = self.plainControl other := by
      intro other hother
      apply ih
      have hle : 6 ^ (rank other + 1) ≤ 6 ^ rank node := Nat.pow_le_pow_right (by decide) hother
      omega
    have hchildren : ∀ child ∈ self.program.children node,
        self.control fuel child = self.plainControl child :=
      fun child hchild => hbelow child (hrank node child hchild)
    rw [plainControl_eq]
    funext state
    cases node with
    | expr expr =>
      rw [control, plainNode]
      apply self.exprControl_congr hchildren
      · exact fun h => self.structuralExprControl_eq hrank hbelow (by omega) h
      · exact fun h => self.ifChainControl_eq hrank hbelow (by omega) h
      · exact fun h => self.methodCallChainControl_eq hrank hbelow (by omega) h
    | stmt stmt => exact self.stmtControl_congr hchildren state
    | block block => exact self.blockControl_congr hchildren state

/-- For every program the interpreter returns, with enough fuel, the control of the plain evaluator
from every state; as both are one action of the monad of the hooks, the hooks are called alike. -/
theorem control_eq_plainControl (node : HirNode) :
    ∃ enough, ∀ fuel, enough ≤ fuel → ∀ state,
      self.control fuel node state = self.plainControl node state := by
  obtain ⟨rank, hrank⟩ := self.program.acyclic
  refine ⟨6 ^ (rank node + 1), fun fuel hfuel state => ?_⟩
  rw [self.control_eq_of_rank hrank fuel node hfuel]

/-! A program with the three kinds of chain in each other. -/

def nestedExprs : HirExprId → HirExpr
  | 1 => .methodCall 0 [.positional 0]
  | 2 => .methodCall 1 []
  | 3 => .if 0 0 none
  | 4 => .if 2 0 (some (.if 3))
  | 5 => .binary 4 2
  | 6 => .unary 5
  | _ => .literal

def nestedRank : HirNode → ℕ
  | .expr e => e + 1
  | .stmt _ => 0
  | .block _ => 0

def nestedProgram : HirProgram where
  exprs := nestedExprs
  stmts := fun _ => .break
  blocks := fun _ => ⟨[], none⟩
  handlerArms := fun _ => ⟨0⟩
  acyclic := by
    refine ⟨nestedRank, fun node child h => ?_⟩
    cases node with
    | expr e =>
      dsimp only [HirArenas.children] at h
      unfold nestedExprs at h
      split at h <;> simp [HirExpr.children, HirArg.expr, HirElseBranch.node] at h <;>
        rcases h with rfl | rfl | rfl | rfl <;> decide
    | stmt s => cases h
    | block b => cases h
  elseIf := by
    intro expr cond thenBlock next h
    unfold nestedExprs at h
    split at h <;> cases h
    exact ⟨0, 0, none, rfl⟩

instance : AbstractDomain Bool where
  toSemilatticeSup := (@instDistribLatticeOfLinearOrder Bool Bool.linearOrder).toSemilatticeSup
  bottom := false
  joinChanges a b := !a && b

/-- Notes every expression that is entered and left. -/
def notingSemantics : HirAnalysisSemantics (StateM (List HirExprId)) Bool :=
  { HirAnalysisSemantics.idle with
    beforeExpr := fun expr state => do
      modify (expr :: ·)
      pure state
    afterExprControl := fun expr control => do
      modify (expr :: ·)
      pure control }

def nestedInterpreter : HirAbstractInterpreter (StateM (List HirExprId)) Bool :=
  ⟨nestedProgram, notingSemantics, FixpointEngine.withLimit 100⟩

theorem control_eq_plainControl_nested :
    ∃ enough, ∀ fuel, enough ≤ fuel → ∀ state, nestedInterpreter.control fuel (.expr 6) state =
      nestedInterpreter.plainControl (.expr 6) state :=
  control_eq_plainControl nestedInterpreter (.expr 6)

end HirAbstractInterpreter
end EtasFrontend.Analysis
