import EtasFrontend.Analysis.Interpreter
import EtasFrontend.Lib.Fallible

/-! The plain recursive evaluator: each node from its children, one call for each. -/
namespace EtasFrontend.Analysis
open Lib

variable {m : Type → Type} [Monad m] {D : Type} [AbstractDomain D]

namespace HirProgram

theorem wellFounded (program : HirProgram) :
    WellFounded fun child node => child ∈ program.children node := by
  obtain ⟨rank, hrank⟩ := program.acyclic
  exact Subrelation.wf (fun h => hrank _ _ h) (measure rank).wf

end HirProgram

namespace HirAbstractInterpreter
variable (self : HirAbstractInterpreter m D)

section
variable (eval : HirNode → D → Traversal m (Control D))

def plainStructural (expr : HirExprId) (state : D) : Traversal m (Control D) :=
  match (self.program.exprs expr).operands with
  | some operands => exprsControl eval operands (Control.normal state)
  | none => pure Control.bottom

def plainIf (expr : HirExprId) (state : D) : Traversal m (Control D) :=
  match self.program.exprs expr with
  | .if cond thenBlock elseBranch => do
    let condition ← eval (.expr cond) state
    condition.withNormalProcessed fun base => do
      let thenControl ← eval (.block thenBlock) base
      let elseControl ← elseControl eval elseBranch base
      pure (thenControl.join elseControl)
  | _ => pure Control.bottom

def isMethodCall : HirExpr → Bool
  | .methodCall _ _ => true
  | _ => false

def plainMethodCall (expr : HirExprId) (state : D) : Traversal m (Control D) :=
  match self.program.exprs expr with
  | .methodCall receiver args => do
    let control ← eval (.expr receiver) state
    let control ← argsControl eval args control
    self.applyNormalStep control (self.semantics.methodCall expr)
  | _ => pure Control.bottom

def plainChains : ChainEvaluators m D :=
  ⟨self.plainStructural eval, self.plainIf eval, self.plainMethodCall eval⟩

/-- One node, from the controls of its children. -/
def plainNode : HirNode → D → Traversal m (Control D)
  | .expr expr => self.exprControl eval (self.plainChains eval) expr
  | .stmt stmt => self.stmtControl eval stmt
  | .block block => self.blockControl eval block

end

/-- The recursion over the tree. -/
noncomputable def plainControl : HirNode → D → Traversal m (Control D) :=
  open Classical in
  self.program.wellFounded.fix fun node below => self.plainNode
    (fun child => if h : child ∈ self.program.children node then below child h
      else fun _ => pure Control.bottom) node

/-! A node only depends on its children. -/

section
variable {eval other : HirNode → D → Traversal m (Control D)}

theorem exprsControl_congr {exprs : List HirExprId}
    (h : ∀ expr ∈ exprs, eval (.expr expr) = other (.expr expr)) (control : Control D) :
    exprsControl eval exprs control = exprsControl other exprs control := by
  apply foldlM_congr_mem
  intro expr hexpr control
  rw [h expr hexpr]

theorem argsControl_congr {args : List HirArg}
    (h : ∀ arg ∈ args, eval (.expr arg.expr) = other (.expr arg.expr)) (control : Control D) :
    argsControl eval args control = argsControl other args control := by
  apply foldlM_congr_mem
  intro arg harg control
  rw [h arg harg]

theorem stagesControl_congr {stages : List HirStage}
    (h : ∀ stage ∈ stages, ∀ expr ∈ stage.expr :: stage.limits,
      eval (.expr expr) = other (.expr expr)) (control : Control D) :
    stagesControl eval stages control = stagesControl other stages control := by
  apply foldlM_congr_mem
  intro stage hstage control
  rw [h stage hstage _ List.mem_cons_self]
  apply bind_congr
  intro control
  exact exprsControl_congr (fun expr hexpr => h stage hstage expr (List.mem_cons_of_mem _ hexpr)) _

theorem mapEntriesControl_congr {entries : List HirMapEntry}
    (h : ∀ entry ∈ entries, eval (.expr entry.key) = other (.expr entry.key) ∧
      eval (.expr entry.value) = other (.expr entry.value)) (control : Control D) :
    mapEntriesControl eval entries control = mapEntriesControl other entries control := by
  apply foldlM_congr_mem
  intro entry hentry control
  rw [(h entry hentry).1, (h entry hentry).2]

theorem recordFieldsControl_congr {fields : List HirFieldInit}
    (h : ∀ name value, .named name value ∈ fields → eval (.expr value) = other (.expr value))
    (control : Control D) :
    recordFieldsControl eval fields control = recordFieldsControl other fields control := by
  apply foldlM_congr_mem
  intro field hfield control
  cases field with
  | shorthand name => rfl
  | named name value =>
    dsimp only
    rw [h name value hfield]

theorem armsControl_congr {arms : List HirMatchArm}
    (h : ∀ arm ∈ arms, eval arm.body.node = other arm.body.node) (expr scrutinee : HirExprId)
    (base : D) : self.armsControl eval expr scrutinee arms base =
      self.armsControl other expr scrutinee arms base := by
  apply foldlM_congr_mem
  intro arm harm control
  rw [h arm harm]

theorem stmtsControl_congr {stmts : List HirStmtId}
    (h : ∀ stmt ∈ stmts, eval (.stmt stmt) = other (.stmt stmt)) (control : Control D) :
    stmtsControl eval stmts control = stmtsControl other stmts control := by
  induction stmts generalizing control with
  | nil => rfl
  | cons stmt stmts ih =>
    rw [stmtsControl, stmtsControl, h stmt List.mem_cons_self]
    apply bind_congr
    intro control
    rw [ih fun stmt hstmt => h stmt (List.mem_cons_of_mem _ hstmt)]

omit [AbstractDomain D] in
theorem valueControl_congr {value : Option HirExprId}
    (h : ∀ expr ∈ value, eval (.expr expr) = other (.expr expr)) (state : D) :
    valueControl eval value state = valueControl other value state := by
  cases value with
  | none => rfl
  | some expr =>
    dsimp only [valueControl]
    rw [h expr rfl]

variable {stmt : HirStmtId}

theorem forControl_congr {pat : HirPatId} {iter : HirExprId}
    {limits : List HirExprId} {body : HirBlockId} (hiter : eval (.expr iter) = other (.expr iter))
    (hlimits : ∀ expr ∈ limits, eval (.expr expr) = other (.expr expr))
    (hbody : eval (.block body) = other (.block body)) (state : D) :
    self.forControl eval stmt pat iter limits body state =
      self.forControl other stmt pat iter limits body state := by
  unfold forControl
  rw [exprsControl_congr hlimits, hiter, hbody]

theorem blockControl_congr {block : HirBlockId}
    (h : ∀ child ∈ self.program.children (.block block), eval child = other child) (state : D) :
    self.blockControl eval block state = self.blockControl other block state := by
  simp only [HirArenas.children, HirBlock.children, List.mem_append, List.mem_map] at h
  have hstmts : ∀ stmt ∈ (self.program.blocks block).stmts,
      eval (.stmt stmt) = other (.stmt stmt) := fun stmt hs => h _ (Or.inl ⟨stmt, hs, rfl⟩)
  unfold blockControl
  rw [stmtsControl_congr hstmts]
  apply bind_congr
  intro control
  cases hfinal : (self.program.blocks block).finalExpr with
  | none => rfl
  | some expr =>
    dsimp only
    rw [h (.expr expr) (Or.inr ⟨expr, by simp [hfinal], rfl⟩)]

theorem stmtNext_congr
    (h : ∀ child ∈ self.program.children (.stmt stmt), eval child = other child) (state : D) :
    self.stmtNext eval stmt state = self.stmtNext other stmt state := by
  unfold stmtNext
  rw [HirArenas.children] at h
  cases hstmt : self.program.stmts stmt <;> rw [hstmt] at h <;>
    simp only [HirStmt.children, List.mem_cons, List.mem_map, List.not_mem_nil, or_false,
      forall_eq_or_imp, forall_eq, Option.mem_toList, forall_exists_index, and_imp,
      forall_apply_eq_imp_iff₂] at h <;> dsimp only
  case «for» pat iter limits body => exact self.forControl_congr h.1 h.2.2 h.2.1 state
  case «while» cond limits body => rw [exprsControl_congr h.2.2, h.1, h.2.1]
  case retry limits body => rw [exprsControl_congr h.2, h.1]
  case resume value => rw [valueControl_congr h]
  case «return» value => rw [valueControl_congr h]
  case assign target value => rw [h.1, h.2]
  all_goals first | rfl | rw [h]

theorem stmtControl_congr
    (h : ∀ child ∈ self.program.children (.stmt stmt), eval child = other child) (state : D) :
    self.stmtControl eval stmt state = self.stmtControl other stmt state := by
  unfold stmtControl
  apply bind_congr
  intro state
  rw [self.stmtNext_congr h]

omit [AbstractDomain D] in
theorem elseControl_congr {elseBranch : Option HirElseBranch}
    (h : ∀ branch ∈ elseBranch, eval branch.node = other branch.node) (base : D) :
    elseControl eval elseBranch base = elseControl other elseBranch base := by
  cases elseBranch with
  | none => rfl
  | some branch =>
    dsimp only [elseControl]
    rw [h branch rfl]

theorem stages_of_children {p : HirNode → Prop} {stages : List HirStage}
    (h : ∀ child, ∀ stage ∈ stages, (child = HirNode.expr stage.expr ∨
      ∃ limit, limit ∈ stage.limits ∧ HirNode.expr limit = child) → p child) :
    ∀ stage ∈ stages, ∀ expr ∈ stage.expr :: stage.limits, p (.expr expr) := by
  intro stage hstage expr hexpr
  rcases List.mem_cons.mp hexpr with rfl | hlimit
  · exact h _ stage hstage (Or.inl rfl)
  · exact h _ stage hstage (Or.inr ⟨expr, hlimit, rfl⟩)

variable {expr : HirExprId}

section
variable {chains chains' : ChainEvaluators m D}
  (h : ∀ child ∈ self.program.children (.expr expr), eval child = other child)
  (hstructural : (self.program.exprs expr).operands.isSome →
    chains.structural expr = chains'.structural expr)
  (hif : isIf (self.program.exprs expr) → chains.ifChain expr = chains'.ifChain expr)
  (hmethod : isMethodCall (self.program.exprs expr) →
    chains.methodCallChain expr = chains'.methodCallChain expr)
include h hstructural hif hmethod

/-- The chains only matter at the expressions they are for. -/
theorem exprNext_congr (state : D) :
    self.exprNext eval chains expr state = self.exprNext other chains' expr state := by
  unfold exprNext
  rw [HirArenas.children] at h
  cases hexpr : self.program.exprs expr <;> rw [hexpr] at h hstructural hif hmethod <;>
    simp only [HirExpr.children, List.mem_cons, List.mem_map, List.not_mem_nil, or_false,
      List.mem_flatMap, forall_eq_or_imp, forall_eq, forall_exists_index, and_imp,
      forall_apply_eq_imp_iff₂] at h <;> dsimp only
  case record fields =>
    apply recordFieldsControl_congr
    intro name value hfield
    exact h _ _ hfield List.mem_cons_self
  case map entries =>
    apply mapEntriesControl_congr
    intro entry hentry
    exact ⟨h _ entry hentry (Or.inl rfl), h _ entry hentry (Or.inr rfl)⟩
  case «match» scrutinee arms =>
    rw [h.1]
    apply bind_congr
    intro control
    have harms : self.armsControl eval expr scrutinee arms =
        self.armsControl other expr scrutinee arms :=
      funext fun base => self.armsControl_congr h.2 expr scrutinee base
    rw [harms]
  case stageCompose stages => rw [stagesControl_congr (stages_of_children h)]
  case pipeline input stages =>
    rw [h.1]
    apply bind_congr
    intro control
    rw [stagesControl_congr (stages_of_children h.2)]
  case call callee args =>
    rw [h.1]
    apply bind_congr
    intro control
    rw [argsControl_congr h.2]
  case specMethodCall receiver args =>
    rw [h.1]
    apply bind_congr
    intro control
    rw [argsControl_congr h.2]
  case perform args => rw [argsControl_congr h]
  case infer args => rw [argsControl_congr h]
  case handle body handler => rw [h.1, h.2]
  case «try» base => rw [h]
  case block block => rw [h]
  case «if» cond thenBlock elseBranch => rw [hif rfl]
  case methodCall receiver args => rw [hmethod rfl]
  all_goals first | rfl | rw [hstructural rfl] | rw [exprsControl_congr h]

theorem exprControl_congr (state : D) :
    self.exprControl eval chains expr state = self.exprControl other chains' expr state := by
  unfold exprControl
  apply bind_congr
  intro state
  rw [self.exprNext_congr h hstructural hif hmethod]

end

/-! The recursion equation. -/

theorem children_of_operands {e : HirExpr} {operands : List HirExprId}
    (h : e.operands = some operands) : e.children = operands.map .expr := by
  cases e <;> cases h <;> rfl

section
variable (h : ∀ child ∈ self.program.children (.expr expr), eval child = other child)
include h

theorem plainStructural_congr :
    self.plainStructural eval expr = self.plainStructural other expr := by
  funext state
  unfold plainStructural
  cases hops : (self.program.exprs expr).operands with
  | none => rfl
  | some operands =>
    rw [HirArenas.children, children_of_operands hops] at h
    apply exprsControl_congr
    intro operand hoperand
    exact h _ (List.mem_map_of_mem hoperand)

theorem plainIf_congr : self.plainIf eval expr = self.plainIf other expr := by
  funext state
  unfold plainIf
  rw [HirArenas.children] at h
  split
  next cond thenBlock elseBranch hexpr =>
    rw [hexpr] at h
    have helse : elseControl eval elseBranch = elseControl other elseBranch := by
      funext base
      apply elseControl_congr
      intro branch hbranch
      exact h _ (by simp [HirExpr.children, Option.mem_def.mp hbranch])
    rw [h (.expr cond) (by simp [HirExpr.children]),
      h (.block thenBlock) (by simp [HirExpr.children]), helse]
  next => rfl

theorem plainMethodCall_congr :
    self.plainMethodCall eval expr = self.plainMethodCall other expr := by
  funext state
  unfold plainMethodCall
  rw [HirArenas.children] at h
  split
  next receiver args hexpr =>
    rw [hexpr] at h
    have hargs : ∀ arg ∈ args, eval (.expr arg.expr) = other (.expr arg.expr) := by
      intro arg harg
      apply h
      simp only [HirExpr.children, List.mem_cons, List.mem_map]
      exact Or.inr ⟨arg, harg, rfl⟩
    rw [h (.expr receiver) List.mem_cons_self]
    apply bind_congr
    intro control
    rw [argsControl_congr hargs]
  next => rfl

end

theorem plainNode_congr {node : HirNode}
    (h : ∀ child ∈ self.program.children node, eval child = other child) :
    self.plainNode eval node = self.plainNode other node := by
  funext state
  cases node with
  | expr expr =>
    exact self.exprControl_congr h (fun _ => self.plainStructural_congr h)
      (fun _ => self.plainIf_congr h) (fun _ => self.plainMethodCall_congr h) state
  | stmt stmt => exact self.stmtControl_congr h state
  | block block => exact self.blockControl_congr h state

end

theorem plainControl_eq (node : HirNode) :
    self.plainControl node = self.plainNode self.plainControl node := by
  rw [plainControl, WellFounded.fix_eq]
  apply plainNode_congr
  intro child hchild
  exact dif_pos hchild

end HirAbstractInterpreter
end EtasFrontend.Analysis
