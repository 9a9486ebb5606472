import EtasFrontend.Optimization.Meaning

/-! Loops over literals whose bodies take every element into accumulators. -/
namespace EtasFrontend.Optimization
open Hir (HirExprId HirStmtId HirPatId HirBlockId ScopeId SymbolId HirLiteral
  HirBinaryOp HirTreeChild)
open Lib

variable {expr : HirExprId} {elems : List HirExprId}

namespace HirProgram
variable (program : HirProgram)

/-- The elements of an array or of a list. -/
def sequenceElements (expr : HirExprId) : Option (List HirExprId) :=
  match program.exprs expr with
  | .array elems | .list elems => some elems
  | _ => none

def literal (expr : HirExprId) : Option HirLiteral :=
  match program.exprs expr with
  | .literal literal => some literal
  | _ => none

theorem literal_eq_some {l : HirLiteral} :
    program.literal expr = some l ↔ program.exprs expr = .literal l := by
  unfold literal
  split
  · simp_all
  · simp_all

theorem mapM_literal {literals : List HirLiteral} (h : elems.mapM program.literal = some literals) :
    List.Forall₂ (fun e l => program.literal e = some l) elems literals := by
  induction elems generalizing literals with
  | nil =>
    rw [List.mapM_nil] at h
    cases h
    exact .nil
  | cons e elems ih =>
    rw [List.mapM_cons] at h
    obtain ⟨l, hl, h⟩ := Option.bind_eq_some_iff.mp h
    obtain ⟨rest, hrest, h⟩ := Option.bind_eq_some_iff.mp h
    cases h
    exact .cons hl (ih hrest)

end HirProgram

namespace Semantics
variable {V : Type} {n : Type → Type} [Monad n] (S : Semantics V n)

/-- The value of a literal of the program. -/
def literalValue (program : HirProgram) (expr : HirExprId) : V :=
  match program.literal expr with
  | some literal => S.literal (S.typeOf expr) literal
  | none => S.unit

/-- A statement that changes the variables and does nothing else. -/
def changes (f : (SymbolId → V) → SymbolId → V) : StateT (SymbolId → V) n V :=
  fun σ => pure (S.unit, f σ)

/-- The statement takes the value `v` of the loop's variable `x` into the accumulators. -/
def Accumulates (program : HirProgram) (x : SymbolId) (v : V) (stmt : HirStmtId)
    (accs : List (SymbolId × (V → V → V))) : Prop :=
  ∀ d, S.NodeMeans program (.stmt stmt) d → ∀ σ, σ x = v →
    d.eval σ = pure (S.unit, accumulate accs v σ)

end Semantics

section
variable {V : Type} {n : Type → Type} [Monad n] [LawfulMonad n] {S : Semantics V n}
  {program : HirProgram}

theorem change_bind_pure (f : (SymbolId → V) → SymbolId → V) :
    (change f >>= fun _ => pure S.unit : StateT (SymbolId → V) n V) = S.changes f :=
  change_bind f _

variable {d : Meaning V n}

omit [LawfulMonad n] in
theorem path_means {symbol : SymbolId}
    (h : program.resolvedPath expr = some symbol) (hcell : S.IsCell symbol)
    (hd : S.NodeMeans program (.expr expr) d) : d = Semantics.symbolMeaning symbol := by
  obtain ⟨path, hexpr, hresolved⟩ := program.resolvedPath_eq_some.mp h
  obtain ⟨m, rfl, -⟩ := hd.inv
  simp only [Semantics.nodeMeaning, hexpr, Semantics.exprMeaning, hresolved, hcell expr]

omit [LawfulMonad n] in
theorem literal_means {l : HirLiteral} (h : program.literal expr = some l)
    (hd : S.NodeMeans program (.expr expr) d) :
    d.eval = pure (S.literal (S.typeOf expr) l) := by
  obtain ⟨m, rfl, -⟩ := hd.inv
  rw [HirProgram.literal_eq_some] at h
  simp only [Semantics.nodeMeaning, h, Semantics.exprMeaning]
  rfl

theorem sequence_means (h : program.sequenceElements expr = some elems)
    (hliterals : ∀ e ∈ elems, (program.literal e).isSome)
    (hd : S.NodeMeans program (.expr expr) d) :
    d.eval = pure (S.sequence expr (elems.map (S.literalValue program))) := by
  have hdata : program.exprs expr = .array elems ∨ program.exprs expr = .list elems := by
    unfold HirProgram.sequenceElements at h
    split at h <;> simp_all
  obtain ⟨m, rfl, hm⟩ := hd.inv
  have helem : ∀ e ∈ elems, (m (.expr e)).eval = pure (S.literalValue program e) := by
    intro e he
    obtain ⟨l, hl⟩ := Option.isSome_iff_exists.mp (hliterals e he)
    have hpart : HirTreeChild.expr e ∈ program.parts (.expr expr) := by
      rcases hdata with hdata | hdata <;> simp [HirProgram.parts, hdata, HirExpr.children, he]
    rw [literal_means hl (hm _ hpart), Semantics.literalValue, hl]
  have heval : (elems.mapM fun e => (m (.expr e)).eval) =
      pure (elems.map (S.literalValue program)) := by
    rw [mapM_congr_mem helem, List.mapM_pure]
  rcases hdata with hdata | hdata <;>
    simp only [Semantics.nodeMeaning, hdata, Semantics.exprMeaning, Semantics.evaluated, heval,
      pure_bind]

variable {accs : List (List (SymbolId × (V → V → V)))}

/-- The body takes an element into all the accumulators of its statements. -/
theorem forM_accumulates {x : SymbolId} {v : V} {stmts : List HirStmtId}
    {m : HirTreeChild → Meaning V n}
    (h : List.Forall₂ (fun s a => ∀ σ, σ x = v →
      (m (.stmt s)).eval σ = pure (S.unit, accumulate a v σ)) stmts accs)
    (hx : ∀ a ∈ accs.flatten, a.1 ≠ x) {σ : SymbolId → V} (hσ : σ x = v) :
    (stmts.forM fun s => do
      let _ ← (m (.stmt s)).eval
      pure () : StateT (SymbolId → V) n Unit) σ = pure ((), accumulate accs.flatten v σ) := by
  induction h generalizing σ with
  | nil => rfl
  | @cons s a stmts accs hs _ ih =>
    rw [List.flatten_cons, List.forall_mem_append] at hx
    have hnext := ih hx.2 ((accumulate_apply hx.1 v σ).trans hσ)
    rw [List.flatten_cons, accumulate_append, ← hnext]
    change ((m (.stmt s)).eval σ >>= fun p => pure ((), p.2)) >>=
      (fun p => (stmts.forM _ : StateT (SymbolId → V) n Unit) p.2) = _
    rw [hs σ hσ, pure_bind, pure_bind]

/-- What a loop over literals leaves in the variables. -/
theorem scanLoop_eval (hS : S.Laws) {stmt : HirStmtId} {pat : HirPatId} {iter : HirExprId}
    {limits : List HirExprId} {body : HirBlockId} {x : SymbolId} {stmts : List HirStmtId}
    {scope : ScopeId}
    (hstmt : program.stmts stmt = .for pat iter limits body) (hpat : program.pats pat = .binding x)
    (hiter : program.sequenceElements iter = some elems)
    (hliterals : ∀ e ∈ elems, (program.literal e).isSome)
    (hwithin : ∀ meanings values run, values.length ≤ elems.length →
      S.loop stmt limits meanings values run = values.forM run)
    (hbody : program.blocks body = ⟨stmts, none, scope⟩)
    (haccs : ∀ v ∈ elems.map (S.literalValue program),
      List.Forall₂ (S.Accumulates program x v) stmts accs) (hx : ∀ a ∈ accs.flatten, a.1 ≠ x)
    (hd : S.NodeMeans program (.stmt stmt) d) :
    d.eval = S.changes (scan accs.flatten (elems.map (S.literalValue program))) := by
  obtain ⟨m, rfl, hm⟩ := hd.inv
  have hparts : program.parts (.stmt stmt) =
      .pattern pat :: .expr iter :: limits.map .expr ++ [.block body] := by
    rw [HirProgram.parts, hstmt, Hir.HirStmt.children]
  have hpatM : m (.pattern pat) = ⟨pure S.unit, write x, [x]⟩ := by
    obtain ⟨m', hm', -⟩ := (hm (.pattern pat) (by simp [hparts])).inv
    rw [hm', Semantics.nodeMeaning, hpat]
    rfl
  have hiterM := sequence_means hiter hliterals (hm (.expr iter) (by simp [hparts]))
  have hstep : ∀ v ∈ elems.map (S.literalValue program), (do
      write x v
      let _ ← (m (.block body)).eval
      pure ()) =
      (change fun σ => accumulate accs.flatten v (Function.update σ x v) :
        StateT (SymbolId → V) n Unit) := by
    intro v hv
    obtain ⟨m', hm', hparts'⟩ := (hm (.block body) (by simp [hparts])).inv
    have hrun : List.Forall₂ (fun s a => ∀ σ, σ x = v →
        (m' (.stmt s)).eval σ = pure (S.unit, accumulate a v σ)) stmts accs := by
      have hmem : ∀ s ∈ stmts, S.NodeMeans program (.stmt s) (m' (.stmt s)) := fun s hs =>
        hparts' _ (by simp [HirProgram.parts, hbody, hs])
      replace haccs := haccs v hv
      clear hm' hparts' hbody hx
      induction haccs with
      | nil => exact .nil
      | cons ha _ ih =>
        rw [List.forall_mem_cons] at hmem
        exact .cons (ha _ hmem.1) (ih hmem.2)
    rw [write_eq_change, change_bind, hm', Semantics.nodeMeaning, hbody]
    funext σ
    have hforM := forM_accumulates hrun hx (Function.update_self x v σ)
    change ((stmts.forM fun s => do
      let _ ← (m' (.stmt s)).eval
      pure () : StateT (SymbolId → V) n Unit) (Function.update σ x v) >>=
        fun p => pure (S.unit, p.2)) >>= (fun p => pure ((), p.2)) = _
    rw [hforM, pure_bind, pure_bind]
    rfl
  have hloop := hwithin (limits.map fun e => m (.expr e)) (elems.map (S.literalValue program))
    (fun v => do
      write x v
      let _ ← (m (.block body)).eval
      pure ()) (by simp)
  simp only [Semantics.nodeMeaning, hstmt, Semantics.stmtMeaning, Semantics.evaluated, hpatM, hiterM,
    pure_bind, hS.elements_sequence, liftM_pure]
  rw [hloop, forM_congr_mem hstep, forM_change, inScope_change]
  simp only [restore_foldl hx, change_bind_pure]

end

/-! The loops that the passes look for. -/

/-- A loop over literals, within its limit, with one statement in its body. -/
structure LiteralLoop (program : HirProgram) (stmt : HirStmtId) (pat : HirPatId) (x : SymbolId)
    (iter : HirExprId) (elems limits : List HirExprId) (body : HirBlockId)
    (bodyStmt : HirStmtId) : Prop where
  stmt : program.stmts stmt = .for pat iter limits body
  pat : program.pats pat = .binding x
  iter : program.sequenceElements iter = some elems
  literals : ∀ e ∈ elems, (program.literal e).isSome
  limit : ∃ path text count, program.limitCall limits = some ([], path, text) ∧
    path.segments.getLast? = some "Iterations" ∧ parseUsize text = .ok count ∧
      elems.length ≤ count
  body : ∃ scope, program.blocks body = ⟨[bodyStmt], none, scope⟩

/-- The variable of a loop is a binding of its pattern. -/
def HirProgram.LoopsBindPatterns (program : HirProgram) : Prop :=
  ∀ stmt pat iter limits body x, program.stmts stmt = .for pat iter limits body →
    program.pats pat = .binding x →
      ∃ name kind, program.symbols x = some ⟨name, kind, .patternBinding⟩

variable {V : Type} {n : Type → Type} [Monad n] {S : Semantics V n} {program : HirProgram}
  {stmt : HirStmtId} {pat : HirPatId} {x t : SymbolId} {iter : HirExprId}
  {elems limits : List HirExprId} {body : HirBlockId} {bodyStmt : HirStmtId}

theorem isVar_ne (hloops : program.LoopsBindPatterns)
    (hloop : LiteralLoop program stmt pat x iter elems limits body bodyStmt)
    (ht : program.isVar t = true) : t ≠ x := by
  rintro rfl
  obtain ⟨name, kind, hsymbol⟩ := hloops _ _ _ _ _ _ hloop.stmt hloop.pat
  rw [HirProgram.isVar, hsymbol] at ht
  cases ht

section
variable (hS : S.Lawful program)
  (hloop : LiteralLoop program stmt pat x iter elems limits body bodyStmt)
include hS hloop

theorem LiteralLoop.isCell (hloops : program.LoopsBindPatterns) : S.IsCell x := by
  obtain ⟨name, kind, hsymbol⟩ := hloops _ _ _ _ _ _ hloop.stmt hloop.pat
  exact hS.item_patternBinding _ _ _ hsymbol

theorem LiteralLoop.within (meanings : List (Meaning V n)) (values : List V)
    (run : V → StateT (SymbolId → V) n Unit) (h : values.length ≤ elems.length) :
    S.loop stmt limits meanings values run = values.forM run := by
  obtain ⟨path, text, count, hcall, hpath, hparse, hcount⟩ := hloop.limit
  have hchecked := Types.checkedIntegerLiteral_of_parsed (parseUsize_eq_ok.mp hparse)
  exact hS.loop_within _ _ _ _ _ _ _ _ _ hcall hpath hchecked (h.trans hcount)

variable [LawfulMonad n] {d : Meaning V n}

/-- Such a loop with one accumulator. -/
theorem LiteralLoop.eval {f : V → V → V}
    (hacc : ∀ v ∈ elems.map (S.literalValue program),
      S.Accumulates program x v bodyStmt [(t, f)])
    (ht : t ≠ x) (hd : S.NodeMeans program (.stmt stmt) d) :
    d.eval = S.changes fun σ =>
      Function.update σ t ((elems.map (S.literalValue program)).foldl f (σ t)) := by
  obtain ⟨scope, hbody⟩ := hloop.body
  have heval := scanLoop_eval hS.toLaws hloop.stmt hloop.pat hloop.iter hloop.literals (hloop.within hS)
    hbody (fun v hv => .cons (hacc v hv) .nil) (by simpa using ht) hd
  rw [heval]
  congr 1
  funext σ
  exact scan_single t f _ σ

end

variable [LawfulMonad n] {d : Meaning V n} {target value : HirExprId}

/-- The assignment of a literal. -/
theorem assign_literal_eval {assign : HirStmtId}
    (hassign : program.stmts assign = .assign target value)
    (htarget : program.resolvedPath target = some t) (ht : S.IsCell t)
    (hvalue : (program.literal value).isSome)
    (hd : S.NodeMeans program (.stmt assign) d) :
    d.eval = S.changes fun σ => Function.update σ t (S.literalValue program value) := by
  obtain ⟨l, hl⟩ := Option.isSome_iff_exists.mp hvalue
  obtain ⟨m, rfl, hm⟩ := hd.inv
  have hparts : program.parts (.stmt assign) = [.expr target, .expr value] := by
    rw [HirProgram.parts, hassign, Hir.HirStmt.children]
  have htargetM := path_means htarget ht (hm (.expr target) (by simp [hparts]))
  have hvalueM := literal_means hl (hm (.expr value) (by simp [hparts]))
  simp only [Semantics.nodeMeaning, hassign, Semantics.stmtMeaning, Semantics.evaluated, hvalueM,
    htargetM, Semantics.symbolMeaning, pure_bind, write_eq_change, change_bind_pure,
    Semantics.literalValue, hl]

/-- A cell is assigned a value that depends on it and on the one of the loop. -/
theorem assign_accumulates {v : V} {f : V → V → V}
    (hstmt : program.stmts stmt = .assign target value)
    (htarget : program.resolvedPath target = some t) (ht : S.IsCell t)
    (hvalue : ∀ d, S.NodeMeans program (.expr value) d → ∀ σ, σ x = v →
      d.eval σ = pure (f (σ t) v, σ)) : S.Accumulates program x v stmt [(t, f)] := by
  intro d hd σ hσ
  obtain ⟨m, rfl, hm⟩ := hd.inv
  have hparts : program.parts (.stmt stmt) = [.expr target, .expr value] := by
    rw [HirProgram.parts, hstmt, Hir.HirStmt.children]
  have htargetM := path_means htarget ht (hm (.expr target) (by simp [hparts]))
  have hvalueM := hvalue _ (hm (.expr value) (by simp [hparts])) σ hσ
  simp only [Semantics.nodeMeaning, hstmt, Semantics.stmtMeaning, Semantics.evaluated, htargetM,
    Semantics.symbolMeaning, write_eq_change, change_bind]
  change ((m (.expr value)).eval σ >>= fun p => pure (S.unit, Function.update p.2 t p.1)) = _
  rw [hvalueM, pure_bind]
  rfl

theorem copy_accumulates {v : V} (hstmt : program.stmts stmt = .assign target value)
    (htarget : program.resolvedPath target = some t)
    (hvalue : program.resolvedPath value = some x) (ht : S.IsCell t) (hx : S.IsCell x) :
    S.Accumulates program x v stmt [(t, fun _ v => v)] := by
  apply assign_accumulates hstmt htarget ht
  intro d hd σ hσ
  rw [path_means hvalue hx hd, Semantics.symbolMeaning, read_eq_value, ← hσ]
  rfl

/-- The comparison of a value with the literal `query`, whichever of the two stands first. -/
def Semantics.comparison (S : Semantics V n) (program : HirProgram) (cond query : HirExprId)
    (queryFirst : Bool) (v : V) : n V :=
  if queryFirst then S.binary cond .eqEq (S.literalValue program query) v
  else S.binary cond .eqEq v (S.literalValue program query)

theorem comparison_means {cond ref query : HirExprId} {queryFirst : Bool}
    (hcond : program.exprs cond =
      if queryFirst then .binary .eqEq query ref else .binary .eqEq ref query)
    (hquery : (program.literal query).isSome) (href : program.resolvedPath ref = some x)
    (hx : S.IsCell x) (hd : S.NodeMeans program (.expr cond) d)
    (σ : SymbolId → V) :
    d.eval σ = (fun w => (w, σ)) <$> S.comparison program cond query queryFirst (σ x) := by
  obtain ⟨l, hl⟩ := Option.isSome_iff_exists.mp hquery
  have hvalue : S.literalValue program query = S.literal (S.typeOf query) l := by
    rw [Semantics.literalValue, hl]
  have hop : ¬ (HirBinaryOp.eqEq = .andAnd ∨ HirBinaryOp.eqEq = .orOr) := by decide
  have hlift (c : n V) : (liftM c : StateT (SymbolId → V) n V) σ = (fun w => (w, σ)) <$> c := by
    rw [map_eq_pure_bind]
    rfl
  obtain ⟨m, rfl, hm⟩ := hd.inv
  have hparts : ∀ c ∈ [HirTreeChild.expr ref, .expr query], c ∈ program.parts (.expr cond) := by
    cases queryFirst <;> simp [HirProgram.parts, hcond, HirExpr.children]
  have hrefM := path_means href hx (hm (.expr ref) (hparts _ (by simp)))
  have hqueryM := literal_means hl (hm (.expr query) (hparts _ (by simp)))
  cases queryFirst <;>
    simp only [Semantics.nodeMeaning, hcond, Semantics.exprMeaning, if_neg hop,
      Semantics.evaluated, hrefM, hqueryM, Semantics.symbolMeaning, read_eq_value, value_bind,
      pure_bind, hlift, hvalue, Semantics.comparison, if_true, Bool.false_eq_true, if_false]

omit [LawfulMonad n] in
/-- Literals of one type compare to a truth value, and equal ones to `true`. -/
theorem comparison_literal (hS : S.Laws) (cond : HirExprId) (queryFirst : Bool)
    {query e : HirExprId} (hquery : (program.literal query).isSome) (he : (program.literal e).isSome)
    (htype : S.typeOf e = S.typeOf query) :
    ∃ same, S.comparison program cond query queryFirst (S.literalValue program e) =
      pure (S.bool same) ∧ (program.literal e = program.literal query → same = true) := by
  obtain ⟨l, hl⟩ := Option.isSome_iff_exists.mp he
  obtain ⟨q, hq⟩ := Option.isSome_iff_exists.mp hquery
  have hle : S.literalValue program e = S.literal (S.typeOf query) l := by
    rw [Semantics.literalValue, hl, htype]
  have hlq : S.literalValue program query = S.literal (S.typeOf query) q := by
    rw [Semantics.literalValue, hq]
  rw [Semantics.comparison, hle, hlq, hl, hq]
  cases queryFirst with
  | true =>
    obtain ⟨same, heq, hrefl⟩ := hS.eqEq_literal cond (S.typeOf query) q l
    exact ⟨same, heq, fun h => hrefl (Option.some.inj h).symm⟩
  | false =>
    obtain ⟨same, heq, hrefl⟩ := hS.eqEq_literal cond (S.typeOf query) l q
    exact ⟨same, heq, fun h => hrefl (Option.some.inj h)⟩

/-- The checker gives the elements of a literal sequence, the variable of a loop over it and a
literal that this variable is compared with one type. -/
def Semantics.ComparesAtOneType (S : Semantics V n) (program : HirProgram) : Prop :=
  ∀ stmt pat x iter elems limits body bodyStmt cond ref query (queryFirst : Bool),
    LiteralLoop program stmt pat x iter elems limits body bodyStmt →
    program.exprs cond =
      (if queryFirst then .binary .eqEq query ref else .binary .eqEq ref query) →
    (program.literal query).isSome → program.resolvedPath ref = some x →
      ∀ e ∈ elems, S.typeOf e = S.typeOf query

open Classical in
/-- What a hit of the comparison leaves in the flag. -/
noncomputable def Semantics.hit (S : Semantics V n) (compare : V → n V) (flag v : V) : V :=
  if compare v = pure (S.bool true) then S.bool true else flag

/-- `if x == query { target = true; }`, where the comparison gives a truth value. -/
theorem membership_accumulates (hS : S.Laws) {ifExpr cond target value : HirExprId}
    {thenBlock : HirBlockId} {assign : HirStmtId} {scope : ScopeId} {compare : V → n V} {v : V}
    (hstmt : program.stmts stmt = .if ifExpr)
    (hif : program.exprs ifExpr = .if cond thenBlock none)
    (hcond : ∀ d, S.NodeMeans program (.expr cond) d → ∀ σ, σ x = v →
      d.eval σ = (fun w => (w, σ)) <$> compare v)
    (hthen : program.blocks thenBlock = ⟨[assign], none, scope⟩)
    (hassign : program.stmts assign = .assign target value)
    (hvalue : program.literal value = some (.bool true))
    (htarget : program.resolvedPath target = some t) (ht : S.IsCell t)
    (hcompare : ∃ same, compare v = pure (S.bool same)) :
    S.Accumulates program x v stmt [(t, S.hit compare)] := by
  intro d hd σ hσ
  obtain ⟨m, rfl, hm⟩ := hd.inv
  obtain ⟨mIf, hmIf, hpartsIf⟩ := (hm (.expr ifExpr) (by
    simp [HirProgram.parts, hstmt, Hir.HirStmt.children])).inv
  have hparts : program.parts (.expr ifExpr) = [.expr cond, .block thenBlock] := by
    rw [HirProgram.parts, hif]
    rfl
  have hcondM := hcond _ (hpartsIf (.expr cond) (by simp [hparts])) σ hσ
  obtain ⟨mThen, hmThen, hpartsThen⟩ := (hpartsIf (.block thenBlock) (by simp [hparts])).inv
  have hassignM := assign_literal_eval hassign htarget ht (by rw [hvalue]; rfl)
    (hpartsThen (.stmt assign) (by simp [HirProgram.parts, hthen]))
  have htrue : S.literalValue program value = S.bool true := by
    rw [Semantics.literalValue, hvalue]
    exact hS.literal_bool _ _
  have hthenM : (mIf (.block thenBlock)).eval σ =
      pure (S.unit, Function.update σ t (S.bool true)) := by
    rw [hmThen, Semantics.nodeMeaning, hthen]
    change ((mThen (.stmt assign)).eval σ >>= fun p => pure ((), p.2)) >>= (fun p =>
      pure ((), p.2)) >>= (fun p => pure (S.unit, p.2)) = _
    rw [hassignM, htrue]
    simp only [Semantics.changes, pure_bind]
  have hrun (same : Bool) (hsame : compare v = pure (S.bool same)) :
      (S.nodeMeaning program (.stmt stmt) m).eval σ =
        pure (S.unit, if same then Function.update σ t (S.bool true) else σ) := by
    rw [hsame, map_pure] at hcondM
    simp only [Semantics.nodeMeaning, hstmt, Semantics.stmtMeaning, hmIf, hif,
      Semantics.exprMeaning, Semantics.evaluated]
    change ((mIf (.expr cond)).eval σ >>= fun p =>
      ((liftM (S.truth p.1) >>= fun b =>
        if b = true then (mIf (.block thenBlock)).eval else pure S.unit :
          StateT (SymbolId → V) n V) p.2)) >>= (fun p => pure (S.unit, p.2)) = _
    rw [hcondM, pure_bind]
    simp only [hS.truth_bool, liftM_pure, pure_bind]
    cases same with
    | true => simp only [if_true, hthenM, pure_bind]
    | false => exact pure_bind (S.unit, σ) _
  have hacc : accumulate [(t, S.hit compare)] v σ =
      Function.update σ t (S.hit compare (σ t) v) := rfl
  rw [hacc, Semantics.hit]
  by_cases hhit : compare v = pure (S.bool true)
  · rw [hrun true hhit, if_pos hhit, if_pos rfl]
  · obtain ⟨same, hsame⟩ := hcompare
    cases same with
    | true => exact absurd hsame hhit
    | false =>
      rw [hrun false hsame, if_neg hhit, Function.update_eq_self]
      rfl

end EtasFrontend.Optimization
