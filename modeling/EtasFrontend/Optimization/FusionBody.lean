import EtasFrontend.Optimization.LoopFusion

/-! The bodies that the fusion passes recognise: what each does, and what it needs of a program. -/
namespace EtasFrontend.Optimization
open Hir (HirExprId HirStmtId HirPatId HirBlockId SymbolId HirLiteral HirArg HirTreeChild
  Halt)
open Lib

/-- The nodes of a recognised body. -/
inductive BodyShape where
  | projection (target value lhs : HirExprId)
  | membership (ifExpr cond : HirExprId) (probe : HirExprId) (probeFirst : Bool)
    (thenBlock : HirBlockId) (assignment : HirStmtId) (target value : HirExprId)
  | stage (target value callee accumulator : HirExprId) (symbol : SymbolId)

namespace BodyShape

def pass : BodyShape → LoopFusionPass
  | projection .. => .fuseProjectionScans
  | membership .. => .batchStorageSemijoin
  | stage .. => .scheduleBoundedPipeline

/-- The expressions between the body's statement and the reference to the loop's variable. -/
def spine : BodyShape → List HirExprId
  | projection _ value _ => [value]
  | membership ifExpr cond .. => [ifExpr, cond]
  | stage _ value .. => [value]

/-- The expression that has to be movable. -/
def moved : BodyShape → HirExprId
  | projection _ value _ => value
  | membership _ cond .. => cond
  | stage _ value .. => value

end BodyShape

/-- The statement takes the variable `x` into `t`; `ref` is its reference to `x`. -/
inductive IsBody (program : HirProgram) (x t : SymbolId) (stmt : HirStmtId) (ref : HirExprId) :
    BodyShape → Prop
  | projection {target value lhs : HirExprId} (hstmt : program.stmts stmt = .assign target value)
      (htarget : program.resolvedPath target = some t)
      (hvalue : program.exprs value = .binary .add lhs ref)
      (hlhs : program.resolvedPath lhs = some t) (href : program.resolvedPath ref = some x) :
      IsBody program x t stmt ref (.projection target value lhs)
  | membership {ifExpr cond probe : HirExprId} {probeFirst : Bool} {thenBlock : HirBlockId}
      {assignment : HirStmtId} {target value : HirExprId}
      (hstmt : program.stmts stmt = .if ifExpr)
      (hif : program.exprs ifExpr = .if cond thenBlock none)
      (hcond : program.exprs cond =
        if probeFirst then .binary .eqEq probe ref else .binary .eqEq ref probe)
      (hprobe : (program.literal probe).isSome)
      (hthen : ∃ scope, program.blocks thenBlock = ⟨[assignment], none, scope⟩)
      (hassign : program.stmts assignment = .assign target value)
      (hvalue : program.literal value = some (.bool true))
      (htarget : program.resolvedPath target = some t) (href : program.resolvedPath ref = some x) :
      IsBody program x t stmt ref
        (.membership ifExpr cond probe probeFirst thenBlock assignment target value)
  | stage {target value callee accumulator : HirExprId} {symbol : SymbolId}
      (hstmt : program.stmts stmt = .assign target value)
      (htarget : program.resolvedPath target = some t)
      (hvalue : program.exprs value = .call callee [] [.positional accumulator, .positional ref])
      (hcallee : program.resolvedPath callee = some symbol)
      (hsymbol : ∃ name kind item, program.symbols symbol = some ⟨name, kind, .item item⟩)
      (hacc : program.resolvedPath accumulator = some t)
      (href : program.resolvedPath ref = some x) :
      IsBody program x t stmt ref (.stage target value callee accumulator symbol)

variable {program : HirProgram} {shape : BodyShape} {stmt : HirStmtId} {ref : HirExprId}

theorem IsBody.reference {x t : SymbolId} (h : IsBody program x t stmt ref shape) :
    program.resolvedPath ref = some x := by
  cases h with
  | projection _ _ _ _ href => exact href
  | membership _ _ _ _ _ _ _ _ href => exact href
  | stage _ _ _ _ _ _ href => exact href

theorem IsBody.chain {x t : SymbolId} (h : IsBody program x t stmt ref shape) :
    (HirTreeChild.stmt stmt :: (shape.spine.map .expr ++ [.expr ref])).IsChain
      fun p c => c ∈ program.parts p := by
  cases h with
  | projection hstmt _ hvalue =>
    simp [BodyShape.spine, HirProgram.parts, hstmt, hvalue, Hir.HirStmt.children,
      HirExpr.children]
  | @membership _ _ _ probeFirst _ _ _ _ hstmt hif hcond =>
    cases probeFirst <;>
      simp [BodyShape.spine, HirProgram.parts, hstmt, hif, hcond, Hir.HirStmt.children,
        HirExpr.children]
  | stage hstmt _ hvalue =>
    simp [BodyShape.spine, HirProgram.parts, hstmt, hvalue, Hir.HirStmt.children,
      HirExpr.children, HirArg.expr, Hir.HirArg.expr]

theorem parts_of_path {expr : HirExprId} {symbol : SymbolId}
    (h : program.resolvedPath expr = some symbol) : program.parts (.expr expr) = [] := by
  obtain ⟨path, hexpr, -⟩ := program.resolvedPath_eq_some.mp h
  simp [HirProgram.parts, hexpr, HirExpr.children, HirExpr.bodies]

theorem parts_of_literal {expr : HirExprId} (h : (program.literal expr).isSome) :
    program.parts (.expr expr) = [] := by
  obtain ⟨l, hl⟩ := Option.isSome_iff_exists.mp h
  simp [HirProgram.parts, program.literal_eq_some.mp hl, HirExpr.children, HirExpr.bodies]

section
variable {V : Type} {n : Type → Type} [Monad n] {S : Semantics V n} {program : HirProgram}
  {x t : SymbolId} {stmt : HirStmtId} {ref : HirExprId} {shape : BodyShape}

theorem exists_of_parts {node : HirTreeChild} (parts : List HirTreeChild)
    (hparts : program.parts node = parts)
    (h : parts.Forall fun c => ∃ d, S.NodeMeans program c d) :
    ∃ d, S.NodeMeans program node d := by
  have : Nonempty (Meaning V n) := ⟨Semantics.evaluated (pure S.unit)⟩
  rw [List.forall_iff_forall_mem] at h
  exact Means.exists_of_parts (hparts ▸ h)

theorem IsBody.exists_nodeMeans (h : IsBody program x t stmt ref shape) :
    ∃ d, S.NodeMeans program (.stmt stmt) d := by
  have leaf {node : HirTreeChild} (h : program.parts node = []) :
      ∃ d, S.NodeMeans program node d := exists_of_parts [] h trivial
  cases h with
  | @projection target value lhs hstmt htarget hvalue hlhs href =>
    have hvalueM : ∃ d, S.NodeMeans program (.expr value) d :=
      exists_of_parts [.expr lhs, .expr ref]
        (by simp [HirProgram.parts, hvalue, HirExpr.children, HirExpr.bodies])
        ⟨leaf (parts_of_path hlhs), leaf (parts_of_path href)⟩
    exact exists_of_parts [.expr target, .expr value]
      (by simp [HirProgram.parts, hstmt, Hir.HirStmt.children])
      ⟨leaf (parts_of_path htarget), hvalueM⟩
  | @membership ifExpr cond probe probeFirst thenBlock assignment target value hstmt hif hcond
      hprobe hthen hassign hvalue htarget href =>
    obtain ⟨scope, hthen⟩ := hthen
    have hcondM : ∃ d, S.NodeMeans program (.expr cond) d := by
      cases probeFirst
      · exact exists_of_parts [.expr ref, .expr probe]
          (by simp [HirProgram.parts, hcond, HirExpr.children, HirExpr.bodies])
          ⟨leaf (parts_of_path href), leaf (parts_of_literal hprobe)⟩
      · exact exists_of_parts [.expr probe, .expr ref]
          (by simp [HirProgram.parts, hcond, HirExpr.children, HirExpr.bodies])
          ⟨leaf (parts_of_literal hprobe), leaf (parts_of_path href)⟩
    have hassignM : ∃ d, S.NodeMeans program (.stmt assignment) d :=
      exists_of_parts [.expr target, .expr value]
        (by simp [HirProgram.parts, hassign, Hir.HirStmt.children])
        ⟨leaf (parts_of_path htarget), leaf (parts_of_literal (by rw [hvalue]; rfl))⟩
    have hthenM : ∃ d, S.NodeMeans program (.block thenBlock) d :=
      exists_of_parts [.stmt assignment] (by simp [HirProgram.parts, hthen]) hassignM
    have hifM : ∃ d, S.NodeMeans program (.expr ifExpr) d :=
      exists_of_parts [.expr cond, .block thenBlock]
        (by simp [HirProgram.parts, hif, HirExpr.children, HirExpr.bodies])
        ⟨hcondM, hthenM⟩
    exact exists_of_parts [.expr ifExpr]
      (by simp [HirProgram.parts, hstmt, Hir.HirStmt.children]) hifM
  | @stage target value callee accumulator symbol hstmt htarget hvalue hcallee hsymbol hacc href =>
    have hvalueM : ∃ d, S.NodeMeans program (.expr value) d :=
      exists_of_parts [.expr callee, .expr accumulator, .expr ref]
        (by simp [HirProgram.parts, hvalue, HirExpr.children, HirExpr.bodies, Hir.HirArg.expr])
        ⟨leaf (parts_of_path hcallee), leaf (parts_of_path hacc), leaf (parts_of_path href)⟩
    exact exists_of_parts [.expr target, .expr value]
      (by simp [HirProgram.parts, hstmt, Hir.HirStmt.children])
      ⟨leaf (parts_of_path htarget), hvalueM⟩

/-- The step of a recognised body: the operation has to be a function of the two values. -/
def BodyShape.Steps (S : Semantics V n) (program : HirProgram) (values : List V)
    (f : V → V → V) : BodyShape → Prop
  | .projection _ value _ => ∀ a b, S.binary value .add a b = pure (f a b)
  | .membership _ cond probe probeFirst .. =>
    f = S.hit (S.comparison program cond probe probeFirst) ∧
      ∀ v ∈ values, ∃ same, S.comparison program cond probe probeFirst v = pure (S.bool same)
  | .stage _ value callee _ symbol => ∀ target, S.item callee symbol = some target →
    ∀ a b, S.call value [] target [(none, a), (none, b)] = pure (f a b)

variable [LawfulMonad n]

theorem liftM_apply {α : Type} (c : n α) (σ : SymbolId → V) :
    (liftM c : StateT (SymbolId → V) n α) σ = (fun w => (w, σ)) <$> c := by
  rw [map_eq_pure_bind]
  rfl

variable {d : Meaning V n}

/-- What the value of a projection computes. -/
theorem projection_means {value lhs : HirExprId}
    (hvalue : program.exprs value = .binary .add lhs ref)
    (hlhs : program.resolvedPath lhs = some t) (href : program.resolvedPath ref = some x)
    (ht : S.IsCell t) (hx : S.IsCell x)
    (hd : S.NodeMeans program (.expr value) d) (σ : SymbolId → V) :
    d.eval σ = (fun w => (w, σ)) <$> S.binary value .add (σ t) (σ x) := by
  have hop : ¬ (Hir.HirBinaryOp.add = .andAnd ∨ Hir.HirBinaryOp.add = .orOr) := by decide
  obtain ⟨m, rfl, hm⟩ := hd.inv
  have hparts : program.parts (.expr value) = [.expr lhs, .expr ref] := by
    simp [HirProgram.parts, hvalue, HirExpr.children, HirExpr.bodies]
  have hlhsM := path_means hlhs ht (hm (.expr lhs) (by simp [hparts]))
  have hrefM := path_means href hx (hm (.expr ref) (by simp [hparts]))
  simp only [Semantics.nodeMeaning, hvalue, Semantics.exprMeaning, if_neg hop, Semantics.evaluated,
    hlhsM, hrefM, Semantics.symbolMeaning, read_eq_value, value_bind, liftM_apply]

/-- What the call of a stage computes. -/
theorem stage_means {value callee accumulator : HirExprId} {symbol : SymbolId} {target : V}
    (hvalue : program.exprs value = .call callee [] [.positional accumulator, .positional ref])
    (hcallee : program.resolvedPath callee = some symbol)
    (htarget : S.item callee symbol = some target)
    (hacc : program.resolvedPath accumulator = some t) (href : program.resolvedPath ref = some x)
    (ht : S.IsCell t) (hx : S.IsCell x)
    (hd : S.NodeMeans program (.expr value) d) (σ : SymbolId → V) :
    d.eval σ = (fun w => (w, σ)) <$> S.call value [] target [(none, σ t), (none, σ x)] := by
  obtain ⟨m, rfl, hm⟩ := hd.inv
  have hparts : program.parts (.expr value) = [.expr callee, .expr accumulator, .expr ref] := by
    simp [HirProgram.parts, hvalue, HirExpr.children, HirExpr.bodies, Hir.HirArg.expr]
  have hcalleeM : (m (.expr callee)).eval = pure target := by
    obtain ⟨path, hexpr, hresolved⟩ := program.resolvedPath_eq_some.mp hcallee
    obtain ⟨m', hm', -⟩ := (hm (.expr callee) (by simp [hparts])).inv
    simp only [hm', Semantics.nodeMeaning, hexpr, Semantics.exprMeaning, hresolved, htarget]
    rfl
  have haccM := path_means hacc ht (hm (.expr accumulator) (by simp [hparts]))
  have hrefM := path_means href hx (hm (.expr ref) (by simp [hparts]))
  simp only [Semantics.nodeMeaning, hvalue, Semantics.exprMeaning, Semantics.evaluated, hcalleeM,
    pure_bind, List.mapM_cons, List.mapM_nil, Hir.HirArg.expr, haccM, hrefM,
    Semantics.symbolMeaning, read_eq_value, bind_assoc]
  simp only [value_bind, liftM_apply]

/-- A recognised body takes the loop's variable into its target. -/
theorem IsBody.accumulates (hS : S.Laws) (h : IsBody program x t stmt ref shape)
    (ht : S.IsCell t) (hx : S.IsCell x) (hitem : ∀ id symbol name kind item,
      program.symbols symbol = some ⟨name, kind, .item item⟩ → (S.item id symbol).isSome)
    {values : List V} {f : V → V → V} (hf : shape.Steps S program values f) {v : V}
    (hv : v ∈ values) : S.Accumulates program x v stmt [(t, f)] := by
  cases h with
  | projection hstmt htarget hvalue hlhs href =>
    refine assign_accumulates hstmt htarget ht fun d hd σ hσ => ?_
    rw [projection_means hvalue hlhs href ht hx hd, hf, map_pure, hσ]
  | @membership ifExpr cond probe probeFirst thenBlock assignment target value hstmt hif hcond
      hprobe hthen hassign hvalue htarget href =>
    obtain ⟨scope, hthen⟩ := hthen
    obtain ⟨rfl, hsame⟩ := hf
    exact membership_accumulates hS hstmt hif (fun d hd σ hσ => hσ ▸
      comparison_means hcond hprobe href hx hd σ) hthen hassign hvalue htarget ht (hsame v hv)
  | @stage target value callee accumulator symbol hstmt htarget hvalue hcallee hsymbol hacc href =>
    obtain ⟨name, kind, item, hsymbol⟩ := hsymbol
    obtain ⟨function, hfunction⟩ := Option.isSome_iff_exists.mp
      (hitem callee symbol name kind item hsymbol)
    refine assign_accumulates hstmt htarget ht fun d hd σ hσ => ?_
    rw [stage_means hvalue hcallee hfunction hacc href ht hx hd, hf function hfunction, map_pure, hσ]

/-- A movable expression is a function of the variables. -/
def Semantics.Sound (S : Semantics V n) (program : HirProgram)
    (legality : AgentEffectLegalityFacts) : Prop :=
  ∀ expr d, legality.isMovable expr = true → S.NodeMeans program (.expr expr) d →
    ∃ f, d.eval = value f

private theorem exists_pure (ht : t ≠ x) {run : V → V → n V}
    (hd : ∀ σ, d.eval σ = (fun w => (w, σ)) <$> run (σ t) (σ x)) {g : (SymbolId → V) → V}
    (hg : d.eval = value g) : ∃ f : V → V → V, ∀ a b, run a b = pure (f a b) := by
  refine ⟨fun a b => g (Function.update (fun _ => a) x b), fun a b => ?_⟩
  have h := hd (Function.update (fun _ => a) x b)
  rw [hg, Function.update_self, Function.update_of_ne ht] at h
  have hfst := congrArg (fun c => Prod.fst <$> c) h
  simpa [value] using hfst.symm

/-- The step of a recognised body. -/
theorem IsBody.exists_steps (hS : S.Lawful program) (h : IsBody program x t stmt ref shape)
    {legality : AgentEffectLegalityFacts} (hsound : S.Sound program legality)
    (hmoved : legality.isMovable shape.moved = true) (htx : t ≠ x) (ht : S.IsCell t)
    (hx : S.IsCell x) {values : List V}
    (hcompare : ∀ ifExpr cond probe probeFirst thenBlock assignment target value,
      shape = .membership ifExpr cond probe probeFirst thenBlock assignment target value →
        ∀ v ∈ values, ∃ same, S.comparison program cond probe probeFirst v = pure (S.bool same)) :
    ∃ f, shape.Steps S program values f := by
  have moved {e : HirExprId} (he : legality.isMovable e = true) (run : V → V → n V)
      (hmeans : ∃ d, S.NodeMeans program (.expr e) d)
      (hrun : ∀ d, S.NodeMeans program (.expr e) d → ∀ σ,
        d.eval σ = (fun w => (w, σ)) <$> run (σ t) (σ x)) :
      ∃ f : V → V → V, ∀ a b, run a b = pure (f a b) := by
    obtain ⟨d, hd⟩ := hmeans
    obtain ⟨g, hg⟩ := hsound e d he hd
    exact exists_pure htx (hrun d hd) hg
  obtain ⟨d, hd⟩ := h.exists_nodeMeans (S := S)
  obtain ⟨m, -, hm⟩ := hd.inv
  cases h with
  | projection hstmt htarget hvalue hlhs href =>
    exact moved hmoved _
      ⟨_, hm (.expr _) (by simp [HirProgram.parts, hstmt, Hir.HirStmt.children]; exact .inr rfl)⟩
      fun d hd σ => projection_means hvalue hlhs href ht hx hd σ
  | membership => exact ⟨_, rfl, hcompare _ _ _ _ _ _ _ _ rfl⟩
  | @stage target value callee accumulator symbol hstmt htarget hvalue hcallee hsymbol hacc href =>
    obtain ⟨name, kind, item, hsymbol⟩ := hsymbol
    obtain ⟨function, hfunction⟩ := Option.isSome_iff_exists.mp
      (hS.item_item callee symbol name kind item hsymbol)
    obtain ⟨f, hf⟩ := moved hmoved (fun a b => S.call value [] function [(none, a), (none, b)])
      ⟨_, hm (.expr value) (by simp [HirProgram.parts, hstmt, Hir.HirStmt.children])⟩
      fun d hd σ => stage_means hvalue hcallee hfunction hacc href ht hx hd σ
    refine ⟨f, fun function' hfunction' => ?_⟩
    rw [hfunction] at hfunction'
    cases hfunction'
    exact hf

end

/-! Programs where references to the variables of loops have been redirected. -/

/-- No other expression has changed than paths to the variables of loops, and these are paths. -/
def HirProgram.RedirectsOnly (program program' : HirProgram) : Prop :=
  ∀ e, program'.exprs e = program.exprs e ∨
    (∃ symbol name kind, program.resolvedPath e = some symbol ∧
      program.symbols symbol = some ⟨name, kind, .patternBinding⟩) ∧
    ∃ path, program'.exprs e = .path path

namespace HirProgram.RedirectsOnly
variable {program program' : HirProgram} {e : HirExprId} (h : program.RedirectsOnly program')
include h

theorem noPath (he : ∀ path, program.exprs e ≠ .path path) :
    program'.exprs e = program.exprs e := by
  refine (h e).resolve_right ?_
  rintro ⟨⟨symbol, -, -, hpath, -⟩, -⟩
  obtain ⟨path, hpath, -⟩ := program.resolvedPath_eq_some.mp hpath
  exact he path hpath

theorem resolvedPath {symbol : SymbolId} (he : program.resolvedPath e = some symbol)
    (hsymbol : ∀ name kind, program.symbols symbol ≠ some ⟨name, kind, .patternBinding⟩) :
    program'.resolvedPath e = some symbol := by
  rw [HirProgram.resolvedPath, (h e).resolve_right ?_]
  · exact he
  · rintro ⟨⟨symbol', name, kind, he', hsymbol'⟩, -⟩
    rw [he] at he'
    cases he'
    exact hsymbol name kind hsymbol'

theorem literal {l : HirLiteral} (he : program.literal e = some l) :
    program'.literal e = some l := by
  rw [HirProgram.literal_eq_some] at he ⊢
  rw [h.noPath (by simp [he]), he]

theorem literal_isSome (he : (program.literal e).isSome) : (program'.literal e).isSome := by
  obtain ⟨l, hl⟩ := Option.isSome_iff_exists.mp he
  rw [h.literal hl]
  rfl

theorem literalValue {V : Type} {n : Type → Type} (S : Semantics V n)
    (he : (program.literal e).isSome) : S.literalValue program' e = S.literalValue program e := by
  obtain ⟨l, hl⟩ := Option.isSome_iff_exists.mp he
  rw [Semantics.literalValue, Semantics.literalValue, h.literal hl, hl]

theorem sequenceElements {elems : List HirExprId} (he : program.sequenceElements e = some elems) :
    program'.sequenceElements e = some elems := by
  rw [HirProgram.sequenceElements, h.noPath ?_]
  · exact he
  · intro path hpath
    rw [HirProgram.sequenceElements, hpath] at he
    cases he

theorem steps {V : Type} {n : Type → Type} [Monad n] {S : Semantics V n} {x t : SymbolId}
    (hbody : IsBody program x t stmt ref shape) {values : List V} {f : V → V → V}
    (hf : shape.Steps S program values f) : shape.Steps S program' values f := by
  cases hbody with
  | projection => exact hf
  | @membership ifExpr cond probe probeFirst thenBlock assignment target value _ _ _ hprobe =>
    have hcompare : S.comparison program' cond probe probeFirst =
        S.comparison program cond probe probeFirst := by
      funext v
      rw [Semantics.comparison, Semantics.comparison, h.literalValue S hprobe]
    rw [BodyShape.Steps, hcompare]
    exact hf
  | stage => exact hf

end HirProgram.RedirectsOnly

/-- A recognised body in a program where its reference has been redirected to `x'`. -/
theorem IsBody.redirect {program program' : HirProgram} {x x' t : SymbolId}
    (h : IsBody program x t stmt ref shape)
    (ht : program.isVar t = true) (hstmts : program'.stmts = program.stmts)
    (hsymbols : program'.symbols = program.symbols) (hexprs : program.RedirectsOnly program')
    (hthen : ∀ ifExpr cond probe probeFirst thenBlock assignment target value,
      shape = .membership ifExpr cond probe probeFirst thenBlock assignment target value →
        program'.blocks thenBlock = program.blocks thenBlock)
    (href' : program'.resolvedPath ref = some x') : IsBody program' x' t stmt ref shape := by
  have hvar (name : String) (kind : Hir.SymbolKind) :
      program.symbols t ≠ some ⟨name, kind, .patternBinding⟩ := by
    intro hsymbol
    rw [HirProgram.isVar, hsymbol] at ht
    cases ht
  cases h with
  | projection hstmt htarget hvalue hlhs href =>
    exact .projection (by rw [hstmts, hstmt]) (hexprs.resolvedPath htarget hvar)
      (by rw [hexprs.noPath (by simp [hvalue]), hvalue]) (hexprs.resolvedPath hlhs hvar) href'
  | @membership ifExpr cond probe probeFirst thenBlock assignment target value hstmt hif hcond
      hprobe hblock hassign hvalue htarget href =>
    have hcond' : program'.exprs cond = program.exprs cond :=
      hexprs.noPath (by cases probeFirst <;> simp [hcond])
    exact .membership (by rw [hstmts, hstmt]) (by rw [hexprs.noPath (by simp [hif]), hif])
      (by rw [hcond', hcond]) (hexprs.literal_isSome hprobe)
      (by rw [hthen _ _ _ _ _ _ _ _ rfl]; exact hblock) (by rw [hstmts, hassign])
      (hexprs.literal hvalue) (hexprs.resolvedPath htarget hvar) href'
  | @stage target value callee accumulator symbol hstmt htarget hvalue hcallee hsymbol hacc href =>
    have hitem : ∀ name kind, program.symbols symbol ≠ some ⟨name, kind, .patternBinding⟩ := by
      intro name kind h
      obtain ⟨name', kind', item, hsymbol⟩ := hsymbol
      rw [hsymbol] at h
      cases h
    exact .stage (by rw [hstmts, hstmt]) (hexprs.resolvedPath htarget hvar)
      (by rw [hexprs.noPath (by simp [hvalue]), hvalue]) (hexprs.resolvedPath hcallee hitem)
      (by rw [hsymbols]; exact hsymbol) (hexprs.resolvedPath hacc hvar) href'

end EtasFrontend.Optimization
