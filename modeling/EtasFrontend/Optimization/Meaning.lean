import EtasFrontend.Hir.TreeWalk
import EtasFrontend.Lib.Cells
import EtasFrontend.Lib.Compositional
import EtasFrontend.Optimization.IterationLimit

/-! What a program does, above any monad of effects: every node means what its constructor makes of
the meanings of its parts. The constructs that the passes rely on are written out, and the others
may mean anything. -/
namespace EtasFrontend.Optimization
open Hir (HirExprId HirStmtId HirPatId HirBlockId HirHandlerArmId SymbolId ResolvedPath
  HirLiteral HirArg HirElseBranch HirBinaryOp HirStmt HirPat HirBlock HirHandlerArm HirTreeChild)
open Lib
open EtasFrontend.Types (TypeId checkedIntegerLiteral)

/-- The parts of an expression that it keeps in bodies of their own. -/
def HirExpr.bodies : HirExpr → List HirTreeChild
  | .lambda _ body _ => [body.child]
  | .match _ arms => arms.map fun arm => arm.body.child
  | .stageCompose stages | .pipeline _ stages =>
    stages.flatMap fun stage => stage.limits.map .expr
  | _ => []

namespace HirProgram

def parts (program : HirProgram) : HirTreeChild → List HirTreeChild
  | .expr expr => (program.exprs expr).children ++ (program.exprs expr).bodies
  | .block block =>
    (program.blocks block).stmts.map .stmt ++ (program.blocks block).finalExpr.toList.map .expr
  | .stmt stmt => (program.stmts stmt).children
  | .handlerArm arm =>
    let data := program.handlerArms arm
    data.patterns.map .pattern ++ data.continuation.toList.map .pattern ++ [.block data.body]
  | .pattern pat => (program.pats pat).children

end HirProgram

/-- The value of a node, what it does to store a value, and the symbols it binds. -/
structure Meaning (V : Type) (n : Type → Type) where
  eval : StateT (SymbolId → V) n V
  store : V → StateT (SymbolId → V) n Unit
  binds : List SymbolId

/-- What the passes leave open. A literal takes its value at the type that it was checked at, and a
path to an item stands for the item itself. -/
structure Semantics (V : Type) (n : Type → Type) where
  unit : V
  bool : Bool → V
  typeOf : HirExprId → TypeId
  literal : TypeId → HirLiteral → V
  item : HirExprId → SymbolId → Option V
  sequence : HirExprId → List V → V
  elements : V → n (List V)
  truth : V → n Bool
  binary : HirExprId → HirBinaryOp → V → V → n V
  call : HirExprId → List HirGenericArg → V → List (Option String × V) → n V
  loop : HirStmtId → List HirExprId → List (Meaning V n) → List V →
    (V → StateT (SymbolId → V) n Unit) → StateT (SymbolId → V) n Unit
  expr : HirExprId → HirExpr → List (Meaning V n) → Meaning V n
  stmt : HirStmtId → HirStmt → List (Meaning V n) → Meaning V n
  pat : HirPatId → HirPat → List (Meaning V n) → Meaning V n
  handlerArm : HirHandlerArmId → HirHandlerArm → List (Meaning V n) → Meaning V n

namespace Semantics
variable {V : Type} {n : Type → Type} [Monad n] (S : Semantics V n)

/-- A node that is evaluated and binds nothing. -/
def evaluated (eval : StateT (SymbolId → V) n V) : Meaning V n := ⟨eval, fun _ => pure (), []⟩

def symbolMeaning (symbol : SymbolId) : Meaning V n := ⟨read symbol, write symbol, []⟩

def exprMeaning (id : HirExprId) (data : HirExpr) (m : HirTreeChild → Meaning V n) : Meaning V n :=
  match data with
  | .literal literal => evaluated (pure (S.literal (S.typeOf id) literal))
  | .path path =>
    match path.resolution with
    | .resolved symbol =>
      match S.item id symbol with
      | some value => evaluated (pure value)
      | none => symbolMeaning symbol
    | _ => S.expr id (.path path) []
  | .array elems | .list elems => evaluated do
    let values ← elems.mapM fun elem => (m (.expr elem)).eval
    pure (S.sequence id values)
  | .binary op lhs rhs =>
    if op = .andAnd ∨ op = .orOr then S.expr id data [m (.expr lhs), m (.expr rhs)]
    else evaluated do
      let left ← (m (.expr lhs)).eval
      let right ← (m (.expr rhs)).eval
      S.binary id op left right
  | .call callee genericArgs args => evaluated do
    let target ← (m (.expr callee)).eval
    let values ← args.mapM fun arg => do
      let value ← (m (.expr arg.expr)).eval
      pure (match arg with
        | .positional _ => none
        | .named name _ => some name, value)
    S.call id genericArgs target values
  | .if cond thenBlock elseBranch => evaluated do
    let value ← (m (.expr cond)).eval
    if ← S.truth value then (m (.block thenBlock)).eval
    else
      match elseBranch with
      | some branch => (m branch.child).eval
      | none => pure S.unit
  | .block block => evaluated (m (.block block)).eval
  | _ => S.expr id data ((data.children ++ data.bodies).map m)

def stmtMeaning (id : HirStmtId) (data : HirStmt) (m : HirTreeChild → Meaning V n) : Meaning V n :=
  match data with
  | .let pat value | .var pat value => evaluated do
    let value ← (m (.expr value)).eval
    (m (.pattern pat)).store value
    pure S.unit
  | .assign target value => evaluated do
    let value ← (m (.expr value)).eval
    (m (.expr target)).store value
    pure S.unit
  | .if expr | .match expr | .expr expr => evaluated do
    let _ ← (m (.expr expr)).eval
    pure S.unit
  | .for pat iter limits body => evaluated do
    let values ← S.elements (← (m (.expr iter)).eval)
    inScope (m (.pattern pat)).binds (S.loop id limits (limits.map fun e => m (.expr e)) values
      fun value => do
        (m (.pattern pat)).store value
        let _ ← (m (.block body)).eval
        pure ())
    pure S.unit
  | _ => S.stmt id data (data.children.map m)

def blockMeaning (data : HirBlock) (m : HirTreeChild → Meaning V n) : Meaning V n :=
  evaluated do
    data.stmts.forM fun stmt => do
      let _ ← (m (.stmt stmt)).eval
      pure ()
    match data.finalExpr with
    | some expr => (m (.expr expr)).eval
    | none => pure S.unit

def patMeaning (id : HirPatId) (data : HirPat) (m : HirTreeChild → Meaning V n) : Meaning V n :=
  match data with
  | .binding symbol => ⟨pure S.unit, write symbol, [symbol]⟩
  | _ => S.pat id data (data.children.map m)

def nodeMeaning (program : HirProgram) (node : HirTreeChild) (m : HirTreeChild → Meaning V n) :
    Meaning V n :=
  match node with
  | .expr e => S.exprMeaning e (program.exprs e) m
  | .stmt s => S.stmtMeaning s (program.stmts s) m
  | .block b => S.blockMeaning (program.blocks b) m
  | .pattern p => S.patMeaning p (program.pats p) m
  | .handlerArm a =>
    S.handlerArm a (program.handlerArms a) ((program.parts (.handlerArm a)).map m)

/-- The meaning of a node of the program. -/
abbrev NodeMeans (program : HirProgram) : HirTreeChild → Meaning V n → Prop :=
  Means program.parts (S.nodeMeaning program)

/-- The symbol is a variable. -/
def IsCell (symbol : SymbolId) : Prop := ∀ id, S.item id symbol = none

/-- What the language fixes about literals and conditions. -/
structure Laws : Prop where
  elements_sequence : ∀ id values, S.elements (S.sequence id values) = pure values
  truth_bool : ∀ b, S.truth (S.bool b) = pure b
  literal_bool : ∀ ty b, S.literal ty (.bool b) = S.bool b
  eqEq_literal : ∀ id ty left right, ∃ same : Bool,
    S.binary id .eqEq (S.literal ty left) (S.literal ty right) = pure (S.bool same) ∧
      (left = right → same = true)

/-- What it fixes about the symbols of a program and about the limits of its loops. -/
structure Lawful (program : HirProgram) : Prop extends S.Laws where
  item_var : ∀ symbol, program.isVar symbol = true → S.IsCell symbol
  item_patternBinding : ∀ symbol name kind,
    program.symbols symbol = some ⟨name, kind, .patternBinding⟩ → S.IsCell symbol
  item_item : ∀ id symbol name kind item,
    program.symbols symbol = some ⟨name, kind, .item item⟩ → (S.item id symbol).isSome
  /-- A loop within its limit runs its body for every element. -/
  loop_within : ∀ id limits path text primitive count meanings values body,
    program.limitCall limits = some ([], path, text) →
    path.segments.getLast? = some "Iterations" →
    checkedIntegerLiteral text.toList primitive = .ok ⟨false, count⟩ → values.length ≤ count →
      S.loop id limits meanings values body = values.forM body

end Semantics

section
variable {V : Type} {n : Type → Type} [Monad n] [LawfulMonad n] {S : Semantics V n}

theorem mapM_congr_mem {ι α : Type} {m : Type → Type} [Monad m] [LawfulMonad m]
    {l : List ι} {f g : ι → m α} (h : ∀ i ∈ l, f i = g i) : l.mapM f = l.mapM g := by
  induction l with
  | nil => rw [List.mapM_nil, List.mapM_nil]
  | cons i l ih =>
    rw [List.mapM_cons, List.mapM_cons, h i List.mem_cons_self,
      ih fun j hj => h j (List.mem_cons_of_mem _ hj)]

theorem forM_congr_mem {ι : Type} {m : Type → Type} [Monad m] {l : List ι}
    {f g : ι → m PUnit} (h : ∀ i ∈ l, f i = g i) : l.forM f = l.forM g := by
  induction l with
  | nil => rfl
  | cons i l ih =>
    change (f i >>= fun _ => l.forM f) = (g i >>= fun _ => l.forM g)
    rw [h i List.mem_cons_self, ih fun j hj => h j (List.mem_cons_of_mem _ hj)]

theorem exprMeaning_congr {id : HirExprId} {data : HirExpr} {m m' : HirTreeChild → Meaning V n}
    (h : ∀ c ∈ data.children ++ data.bodies, m c = m' c) :
    S.exprMeaning id data m = S.exprMeaning id data m' := by
  have hchild {c : HirTreeChild} (hc : c ∈ data.children) : m c = m' c :=
    h c (List.mem_append_left _ hc)
  cases data with
  | array elems | list elems =>
    simp only [Semantics.exprMeaning]
    rw [mapM_congr_mem fun e he => by rw [hchild (List.mem_map_of_mem he)]]
  | binary op lhs rhs =>
    simp only [Semantics.exprMeaning]
    rw [hchild (c := .expr lhs) (by simp [HirExpr.children]),
      hchild (c := .expr rhs) (by simp [HirExpr.children])]
  | call callee genericArgs args =>
    simp only [Semantics.exprMeaning]
    rw [hchild (c := .expr callee) (by simp [HirExpr.children]),
      mapM_congr_mem fun arg harg => by
        rw [hchild (List.mem_cons_of_mem _ (List.mem_map_of_mem harg))]]
  | «if» cond thenBlock elseBranch =>
    simp only [Semantics.exprMeaning]
    rw [hchild (c := .expr cond) (by simp [HirExpr.children]),
      hchild (c := .block thenBlock) (by simp [HirExpr.children])]
    cases elseBranch with
    | none => rfl
    | some branch =>
      simp only
      rw [hchild (c := branch.child) (by simp [HirExpr.children])]
  | block block =>
    simp only [Semantics.exprMeaning]
    rw [hchild (c := .block block) (by simp [HirExpr.children])]
  | literal | path => rfl
  | _ =>
    simp only [Semantics.exprMeaning]
    rw [List.map_congr_left h]

omit [LawfulMonad n] in
theorem stmtMeaning_congr {id : HirStmtId} {data : HirStmt} {m m' : HirTreeChild → Meaning V n}
    (h : ∀ c ∈ data.children, m c = m' c) : S.stmtMeaning id data m = S.stmtMeaning id data m' := by
  cases data with
  | «let» pat value | var pat value =>
    simp only [Semantics.stmtMeaning]
    rw [h (.expr value) (by simp [HirStmt.children]), h (.pattern pat) (by simp [HirStmt.children])]
  | assign target value =>
    simp only [Semantics.stmtMeaning]
    rw [h (.expr value) (by simp [HirStmt.children]), h (.expr target) (by simp [HirStmt.children])]
  | «if» expr | «match» expr | expr expr =>
    simp only [Semantics.stmtMeaning]
    rw [h (.expr expr) (by simp [HirStmt.children])]
  | «for» pat iter limits body =>
    simp only [Semantics.stmtMeaning]
    rw [h (.pattern pat) (by simp [HirStmt.children]), h (.expr iter) (by simp [HirStmt.children]),
      h (.block body) (by simp [HirStmt.children]),
      List.map_congr_left fun e he => h (.expr e) (by simp [HirStmt.children, he])]
  | _ =>
    simp only [Semantics.stmtMeaning]
    rw [List.map_congr_left h]

theorem nodeMeaning_looksAtParts (program : HirProgram) :
    LooksAtParts program.parts (S.nodeMeaning program) := by
  intro node m m' h
  cases node with
  | expr e => exact exprMeaning_congr h
  | stmt s => exact stmtMeaning_congr h
  | block b =>
    simp only [Semantics.nodeMeaning, Semantics.blockMeaning]
    rw [forM_congr_mem fun s hs => by rw [h (.stmt s) (by simp [HirProgram.parts, hs])]]
    cases hfinal : (program.blocks b).finalExpr with
    | none => rfl
    | some e =>
      simp only
      rw [h (.expr e) (by simp [HirProgram.parts, hfinal])]
  | pattern p =>
    simp only [Semantics.nodeMeaning, Semantics.patMeaning]
    split
    · rfl
    · have hparts : ∀ c ∈ (program.pats p).children, m c = m' c := h
      rw [List.map_congr_left hparts]
  | handlerArm a =>
    simp only [Semantics.nodeMeaning]
    rw [List.map_congr_left h]

end

/-! A semantics to run small programs with. -/

/-- The node is a tree of at most this depth. -/
def HirProgram.depthAtMost (program : HirProgram) : ℕ → HirTreeChild → Bool
  | 0, _ => false
  | k + 1, node => (program.parts node).all (program.depthAtMost k)

theorem HirProgram.acc_of_depthAtMost {program : HirProgram} {k : ℕ} {node : HirTreeChild}
    (h : program.depthAtMost k node = true) :
    Acc (fun child parent => child ∈ program.parts parent) node := by
  induction k generalizing node with
  | zero => cases h
  | succ k ih =>
    rw [HirProgram.depthAtMost, List.all_eq_true] at h
    exact .intro node fun c hc => ih (h c hc)

/-- The meaning of a finite tree. -/
def Semantics.meaningAt {V : Type} {n : Type → Type} [Monad n] (S : Semantics V n)
    (program : HirProgram) : ℕ → HirTreeChild → Meaning V n
  | 0, _ => Semantics.evaluated (pure S.unit)
  | k + 1, node => S.nodeMeaning program node (S.meaningAt program k)

theorem Semantics.nodeMeans_meaningAt {V : Type} {n : Type → Type} [Monad n] (S : Semantics V n)
    {program : HirProgram} {k : ℕ} {node : HirTreeChild} (h : program.depthAtMost k node = true) :
    S.NodeMeans program node (S.meaningAt program k node) := by
  induction k generalizing node with
  | zero => cases h
  | succ k ih =>
    rw [HirProgram.depthAtMost, List.all_eq_true] at h
    exact .node node _ fun c hc => ih (h c hc)

inductive PlainValue where
  | unit
  | literal (literal : HirLiteral)
  | sequence (values : List PlainValue)

/-- Literals, sequences, comparisons and loops, without effects; calls and the other constructs do
nothing. -/
def plainSemantics (program : HirProgram) : Semantics PlainValue Id where
  unit := .unit
  bool b := .literal (.bool b)
  typeOf _ := 0
  literal _ literal := .literal literal
  item _ symbol :=
    match program.symbols symbol with
    | some ⟨_, _, .item _⟩ => some .unit
    | _ => none
  sequence _ values := .sequence values
  elements
    | .sequence values => values
    | _ => []
  truth
    | .literal (.bool b) => b
    | _ => false
  binary
    | _, .eqEq, .literal left, .literal right => .literal (.bool (left == right))
    | _, .add, .literal (.string left), .literal (.string right) =>
      .literal (.string (left ++ right))
    | _, _, _, _ => .unit
  call _ _ _ _ := .unit
  loop _ _ _ values run := values.forM run
  expr _ _ _ := Semantics.evaluated (pure .unit)
  stmt _ _ _ := Semantics.evaluated (pure .unit)
  pat _ _ _ := Semantics.evaluated (pure .unit)
  handlerArm _ _ _ := Semantics.evaluated (pure .unit)

theorem plainSemantics_lawful (program : HirProgram) : (plainSemantics program).Lawful program where
  item_var symbol h _ := by
    unfold HirProgram.isVar at h
    split at h
    · next hsymbol => simp [plainSemantics, hsymbol]
    · cases h
  item_patternBinding _ _ _ h _ := by simp [plainSemantics, h]
  item_item _ _ _ _ _ h := by simp [plainSemantics, h]
  elements_sequence _ _ := rfl
  truth_bool _ := rfl
  literal_bool _ _ := rfl
  eqEq_literal _ _ left right := ⟨left == right, rfl, fun h => by rw [h]; exact beq_self_eq_true _⟩
  loop_within _ _ _ _ _ _ _ _ _ _ _ _ _ := rfl

end EtasFrontend.Optimization
