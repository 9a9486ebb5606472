import EtasFrontend.Lib.Fallible
import EtasFrontend.Optimization.ScanLoop

/-! Loops over literals that one assignment replaces: the last element wins, or a probe is known to
hit. -/
namespace EtasFrontend.Optimization
open Hir (HirExprId HirStmtId HirPatId HirBlockId SymbolId HirLiteral Halt)
open Lib

structure Replacement where
  target : HirExprId
  value : HirExprId
  blocks : List HirBlockId
  statements : List HirStmtId
  patterns : List HirPatId
  expressions : Finset HirExprId

/-- The expressions from the stack on downwards; the stack's top comes first. -/
def expressionTree (below : HirExprId → List HirExprId) :
    ℕ → List HirExprId → Except Halt (List HirExprId)
  | _, [] => .ok []
  | 0, _ :: _ => .error .outOfFuel
  | n + 1, expr :: pending =>
    (expressionTree below n ((below expr).reverse ++ pending)).map (expr :: ·)

namespace HirProgram

/-- The symbol of a path, where a `var` binds it. -/
def isVarPath (program : HirProgram) (expr : HirExprId) : Bool :=
  (program.resolvedPath expr).any program.isVar

end HirProgram

namespace SuffixDemandHistory
variable (program : HirProgram) (legality : AgentEffectLegalityFacts)

def below (expr : HirExprId) : List HirExprId :=
  (program.exprs expr).children.filterMap fun
    | .expr child => some child
    | _ => none

def findReplacement (n : ℕ) (stmt : HirStmtId) : Except Halt (Option Replacement) :=
  match program.stmts stmt with
  | .for pat iter limits body =>
    match program.pats pat, program.sequenceElements iter with
    | .binding loopSymbol, some elems =>
      match elems.getLast? with
      | none => pure none
      | some last => do
        if !elems.all fun e => (program.literal e).isSome then return none
        if !(← iterationLimitCovers program limits elems.length) then return none
        match program.blocks body with
        | ⟨[bodyStmt], none, _⟩ =>
          match program.stmts bodyStmt with
          | .assign target value =>
            if program.resolvedPath value = some loopSymbol && program.isVarPath target &&
                legality.isMovable iter && legality.isMovable last then do
              let iterExprs ← expressionTree (below program) n [iter]
              let limitExprs ← limits.mapM fun limit => expressionTree (below program) n [limit]
              let valueExprs ← expressionTree (below program) n [value]
              let expressions := (iterExprs ++ limitExprs.flatten ++ valueExprs).filter fun e =>
                e ≠ last ∧ e ≠ target
              return some ⟨target, last, [body], [bodyStmt], [pat], expressions.toFinset⟩
            else return none
          | _ => return none
        | _ => return none
    | _, _ => pure none
  | _ => pure none

end SuffixDemandHistory

namespace SynthesizeScopedIndex
variable (program : HirProgram) (legality : AgentEffectLegalityFacts)

/-- The keys of the elements, and how many elements there are. -/
def literalIndex (expr : HirExprId) : Option (Finset HirLiteral × ℕ) := do
  let elems ← program.sequenceElements expr
  let keys ← elems.mapM program.literal
  return (keys.toFinset, elems.length)

def staticProbe (cond : HirExprId) (loopSymbol : SymbolId) : Option HirExprId :=
  match program.exprs cond with
  | .binary .eqEq lhs rhs => [(lhs, rhs), (rhs, lhs)].findSome? fun (candidate, query) =>
    if program.resolvedPath candidate = some loopSymbol ∧ (program.literal query).isSome then
      some query
    else none
  | _ => none

def below (expr : HirExprId) : List HirExprId :=
  (program.exprs expr).children.flatMap fun
    | .expr child => [child]
    | .block block =>
      (program.blocks block).finalExpr.toList ++ (program.blocks block).stmts.flatMap fun stmt =>
        match program.stmts stmt with
        | .assign target value => [target, value]
        | _ => []
    | _ => []

def findReplacement (n : ℕ) (stmt : HirStmtId) : Except Halt (Option Replacement) :=
  match program.stmts stmt with
  | .for pat iter limits body =>
    match program.pats pat, literalIndex program iter with
    | .binding loopSymbol, some (index, elementCount) => do
      if !(← iterationLimitCovers program limits elementCount) || !legality.isMovable iter then
        return none
      match program.blocks body with
      | ⟨[ifStmt], none, _⟩ =>
        match program.stmts ifStmt with
        | .if ifExpr =>
          match program.exprs ifExpr with
          | .if cond thenBlock none =>
            match staticProbe program cond loopSymbol, program.blocks thenBlock with
            | some query, ⟨[assignStmt], none, _⟩ =>
              match program.stmts assignStmt with
              | .assign target value =>
                if (program.literal query).any (· ∈ index) &&
                    program.literal value = some (.bool true) && program.isVarPath target &&
                    legality.isMovable value then do
                  let iterExprs ← expressionTree (below program) n [iter]
                  let limitExprs ← limits.mapM fun limit =>
                    expressionTree (below program) n [limit]
                  let ifExprs ← expressionTree (below program) n [ifExpr]
                  let expressions := (iterExprs ++ limitExprs.flatten ++ ifExprs).filter fun e =>
                    e ≠ target ∧ e ≠ value
                  return some ⟨target, value, [body, thenBlock], [ifStmt, assignStmt], [pat],
                    expressions.toFinset⟩
                else return none
              | _ => return none
            | _, _ => return none
          | _ => return none
        | _ => return none
      | _ => return none
    | _, _ => pure none
  | _ => pure none

end SynthesizeScopedIndex

/-- The two passes. -/
inductive LoopReplacementPass where
  | suffixDemandHistory
  | synthesizeScopedIndex

namespace LoopReplacementPass

def findReplacement : LoopReplacementPass → HirProgram → AgentEffectLegalityFacts → ℕ → HirStmtId →
    Except Halt (Option Replacement)
  | .suffixDemandHistory => SuffixDemandHistory.findReplacement
  | .synthesizeScopedIndex => SynthesizeScopedIndex.findReplacement

def findReplacements (pass : LoopReplacementPass) (program : HirProgram)
    (legality : AgentEffectLegalityFacts) (n : ℕ) (blocks : List HirBlockId) :
    Except Halt (List (HirStmtId × Replacement)) := do
  let found ← (blocks.flatMap fun block => (program.blocks block).stmts).mapM fun stmt => do
    let replacement ← pass.findReplacement program legality n stmt
    return replacement.map (stmt, ·)
  return found.filterMap id

end LoopReplacementPass

def applyReplacement (program : HirProgram) (entry : HirStmtId × Replacement) : HirProgram :=
  let (stmt, replacement) := entry
  (program.markOptimizedOut replacement.blocks replacement.statements replacement.patterns
    replacement.expressions).setStmt stmt (.assign replacement.target replacement.value)

def applyReplacements (program : HirProgram) (replacements : List (HirStmtId × Replacement)) :
    HirProgram := replacements.foldl applyReplacement program

variable {program : HirProgram}

theorem HirProgram.isVarPath_eq_true {expr : HirExprId} :
    program.isVarPath expr = true ↔
      ∃ t, program.resolvedPath expr = some t ∧ program.isVar t = true := by
  simp [HirProgram.isVarPath, Option.any_eq_true]

variable {legality : AgentEffectLegalityFacts} {stmt : HirStmtId} {r : Replacement}

theorem suffixDemandHistory_finds {n : ℕ}
    (h : SuffixDemandHistory.findReplacement program legality n stmt = .ok (some r)) :
    ∃ pat x iter elems limits body bodyStmt value t,
      LiteralLoop program stmt pat x iter elems limits body bodyStmt ∧
        elems.getLast? = some r.value ∧ program.stmts bodyStmt = .assign r.target value ∧
        program.resolvedPath value = some x ∧ program.resolvedPath r.target = some t ∧
        program.isVar t = true := by
  unfold SuffixDemandHistory.findReplacement at h
  split at h
  case h_2 => cases h
  next pat iter limits body hstmt =>
  split at h
  case h_2 => cases h
  next x elems hpat hiter =>
  split at h
  case h_1 => cases h
  next last hlast =>
  split at h
  case isTrue => cases h
  next hliterals =>
  obtain ⟨covers, hcovers, h⟩ := bind_eq_ok.mp h
  cases covers
  case false => cases h
  rw [Bool.not_true, if_neg Bool.false_ne_true] at h
  split at h
  case h_2 => cases h
  next bodyStmt scope hbody =>
  split at h
  case h_2 => cases h
  next target value hassign =>
  split at h
  case isFalse => cases h
  next hchecks =>
  obtain ⟨iterExprs, -, h⟩ := bind_eq_ok.mp h
  obtain ⟨limitExprs, -, h⟩ := bind_eq_ok.mp h
  obtain ⟨valueExprs, -, h⟩ := bind_eq_ok.mp h
  cases h
  simp only [Bool.and_eq_true, decide_eq_true_eq] at hchecks
  obtain ⟨⟨⟨hvalue, hvar⟩, -⟩, -⟩ := hchecks
  obtain ⟨t, htarget, ht⟩ := HirProgram.isVarPath_eq_true.mp hvar
  refine ⟨pat, x, iter, elems, limits, body, bodyStmt, value, t,
    ⟨hstmt, hpat, hiter, ?_, iterationLimitCovers_eq_true hcovers, scope, hbody⟩, hlast, hassign,
    hvalue, htarget, ht⟩
  simpa [Option.isSome_iff_ne_none] using hliterals

theorem staticProbe_eq_some {cond query : HirExprId} {x : SymbolId}
    (h : SynthesizeScopedIndex.staticProbe program cond x = some query) :
    ∃ ref, ∃ queryFirst : Bool, program.exprs cond =
        (if queryFirst then .binary .eqEq query ref else .binary .eqEq ref query) ∧
      (program.literal query).isSome ∧ program.resolvedPath ref = some x := by
  unfold SynthesizeScopedIndex.staticProbe at h
  split at h
  · next lhs rhs hcond =>
    simp only [List.findSome?_cons, List.findSome?_nil] at h
    split at h
    · next hfirst =>
      split_ifs at hfirst with hx
      cases hfirst
      cases h
      exact ⟨lhs, false, hcond, hx.2, hx.1⟩
    · split at h
      · next hsecond =>
        split_ifs at hsecond with hx
        cases hsecond
        cases h
        exact ⟨rhs, true, hcond, hx.2, hx.1⟩
      · cases h
  · cases h

theorem literalIndex_eq_some {iter : HirExprId} {index : Finset HirLiteral} {count : ℕ}
    (h : SynthesizeScopedIndex.literalIndex program iter = some (index, count)) :
    ∃ elems, program.sequenceElements iter = some elems ∧ elems.length = count ∧
      (∀ e ∈ elems, (program.literal e).isSome) ∧
        ∀ l ∈ index, ∃ e ∈ elems, program.literal e = some l := by
  simp only [SynthesizeScopedIndex.literalIndex, Option.bind_eq_bind, Option.bind_eq_some_iff] at h
  obtain ⟨elems, helems, keys, hkeys, h⟩ := h
  cases h
  have hpairs := program.mapM_literal hkeys
  refine ⟨elems, helems, rfl, fun e he => ?_, fun l hl => ?_⟩
  · obtain ⟨l, -, hl⟩ := forall₂_mem_left hpairs he
    rw [hl]
    rfl
  · exact forall₂_mem_right hpairs (List.mem_toFinset.mp hl)

theorem synthesizeScopedIndex_finds {n : ℕ}
    (h : SynthesizeScopedIndex.findReplacement program legality n stmt = .ok (some r)) :
    ∃ pat x iter elems limits body ifStmt ifExpr cond thenBlock scope assign query ref t,
      ∃ queryFirst : Bool,
      LiteralLoop program stmt pat x iter elems limits body ifStmt ∧
        program.stmts ifStmt = .if ifExpr ∧ program.exprs ifExpr = .if cond thenBlock none ∧
        program.blocks thenBlock = ⟨[assign], none, scope⟩ ∧
        program.stmts assign = .assign r.target r.value ∧
        program.exprs cond =
          (if queryFirst then .binary .eqEq query ref else .binary .eqEq ref query) ∧
        (program.literal query).isSome ∧ program.resolvedPath ref = some x ∧
        (∃ e ∈ elems, program.literal e = program.literal query) ∧
        program.literal r.value = some (.bool true) ∧ program.resolvedPath r.target = some t ∧
        program.isVar t = true := by
  unfold SynthesizeScopedIndex.findReplacement at h
  split at h
  case h_2 => cases h
  next pat iter limits body hstmt =>
  split at h
  case h_2 => cases h
  next x index count hpat hindex =>
  obtain ⟨elems, hiter, rfl, hliterals, hkeys⟩ := literalIndex_eq_some hindex
  obtain ⟨covers, hcovers, h⟩ := bind_eq_ok.mp h
  split at h
  case isTrue => cases h
  next hchecks =>
  cases covers
  case false => exact absurd rfl hchecks
  split at h
  case h_2 => cases h
  next ifStmt scope hbody =>
  split at h
  case h_2 => cases h
  next ifExpr hifStmt =>
  split at h
  case h_2 => cases h
  next cond thenBlock hifExpr =>
  split at h
  case h_2 => cases h
  next query assign scope' hprobe hthen =>
  split at h
  case h_2 => cases h
  next target value hassign =>
  split at h
  case isFalse => cases h
  next hfinal =>
  obtain ⟨iterExprs, -, h⟩ := bind_eq_ok.mp h
  obtain ⟨limitExprs, -, h⟩ := bind_eq_ok.mp h
  obtain ⟨ifExprs, -, h⟩ := bind_eq_ok.mp h
  cases h
  simp only [Bool.and_eq_true, decide_eq_true_eq] at hfinal
  obtain ⟨⟨⟨hquery, hvalue⟩, hvar⟩, -⟩ := hfinal
  obtain ⟨t, htarget, ht⟩ := HirProgram.isVarPath_eq_true.mp hvar
  obtain ⟨ref, queryFirst, hcond, hliteral, href⟩ := staticProbe_eq_some hprobe
  obtain ⟨key, hkey, hmem⟩ := (Option.any_eq_true _ _).mp hquery
  obtain ⟨e, he, hsame⟩ := hkeys key (by simpa using hmem)
  exact ⟨pat, x, iter, elems, limits, body, ifStmt, ifExpr, cond, thenBlock, scope', assign, query,
    ref, t, queryFirst,
    ⟨hstmt, hpat, hiter, hliterals, iterationLimitCovers_eq_true hcovers, scope, hbody⟩,
    hifStmt, hifExpr, hthen, hassign, hcond, hliteral, href, ⟨e, he, hsame.trans hkey.symm⟩,
    hvalue, htarget, ht⟩

theorem findReplacements_mem {pass : LoopReplacementPass} {k : ℕ} {blocks : List HirBlockId}
    {found : List (HirStmtId × Replacement)}
    (h : pass.findReplacements program legality k blocks = .ok found) (hr : (stmt, r) ∈ found) :
    pass.findReplacement program legality k stmt = .ok (some r) := by
  obtain ⟨options, hoptions, h⟩ := bind_eq_ok.mp h
  cases h
  obtain ⟨option, hmem, hoption⟩ := List.mem_filterMap.mp hr
  rw [id_eq] at hoption
  obtain ⟨s, -, hs⟩ := forall₂_mem_right (mapM_ok hoptions) (hoption ▸ hmem)
  obtain ⟨replacement, hreplacement, hs⟩ := bind_eq_ok.mp hs
  cases replacement with
  | none => cases hs
  | some r' =>
    cases hs
    exact hreplacement

theorem applyReplacements_frame (program : HirProgram)
    (entries : List (HirStmtId × Replacement)) :
    (applyReplacements program entries).exprs = program.exprs ∧
      (applyReplacements program entries).blocks = program.blocks ∧
      (applyReplacements program entries).pats = program.pats ∧
      (applyReplacements program entries).handlerArms = program.handlerArms := by
  induction entries generalizing program with
  | nil => exact ⟨rfl, rfl, rfl, rfl⟩
  | cons entry entries ih => exact ih (applyReplacement program entry)

theorem applyReplacements_stmts (program : HirProgram) (entries : List (HirStmtId × Replacement))
    (stmt : HirStmtId) :
    ((∀ r, (stmt, r) ∉ entries) ∧
        (applyReplacements program entries).stmts stmt = program.stmts stmt) ∨
      ∃ r, (stmt, r) ∈ entries ∧
        (applyReplacements program entries).stmts stmt = .assign r.target r.value := by
  induction entries generalizing program with
  | nil => exact .inl ⟨fun r => List.not_mem_nil, rfl⟩
  | cons entry entries ih =>
    obtain ⟨key, r⟩ := entry
    rcases ih (applyReplacement program (key, r)) with ⟨hnone, hkept⟩ | ⟨r', hr', hset⟩
    · have hhead : (applyReplacement program (key, r)).stmts stmt =
          Function.update program.stmts key (.assign r.target r.value) stmt := rfl
      by_cases hkey : stmt = key
      · subst hkey
        refine .inr ⟨r, List.mem_cons_self, ?_⟩
        exact hkept.trans (hhead.trans (Function.update_self ..))
      · refine .inl ⟨fun r' hr' => ?_, hkept.trans (hhead.trans (Function.update_of_ne hkey ..))⟩
        rcases List.mem_cons.mp hr' with heq | hr'
        · cases heq
          exact hkey rfl
        · exact hnone r' hr'
    · exact .inr ⟨r', List.mem_cons_of_mem _ hr', hset⟩

/-! The meaning of a replaced loop. -/

section
variable {V : Type} {n : Type → Type} [Monad n] {S : Semantics V n}
  {program : HirProgram} {legality : AgentEffectLegalityFacts}

theorem foldl_hit {compare : V → n V} {flag : V} {values : List V}
    (h : ∃ v ∈ values, compare v = pure (S.bool true)) :
    values.foldl (S.hit compare) flag = S.bool true := by
  have hkeeps (values : List V) : values.foldl (S.hit compare) (S.bool true) = S.bool true := by
    induction values with
    | nil => rfl
    | cons v values ih =>
      have hv : S.hit compare (S.bool true) v = S.bool true := ite_self _
      rw [List.foldl_cons, hv, ih]
  induction values generalizing flag with
  | nil =>
    obtain ⟨v, hv, -⟩ := h
    cases hv
  | cons v values ih =>
    rw [List.foldl_cons]
    by_cases hv : compare v = pure (S.bool true)
    · rw [Semantics.hit, if_pos hv, hkeeps]
    · obtain ⟨w, hw, hcompare⟩ := h
      rcases List.mem_cons.mp hw with rfl | hw
      · exact absurd hcompare hv
      · exact ih ⟨w, hw, hcompare⟩

variable [LawfulMonad n]

/-- What a replaced loop does is what the assignment of the replacing value does. -/
theorem replaced_eval (hS : S.Lawful program) (hloops : program.LoopsBindPatterns)
    (htypes : S.ComparesAtOneType program) {pass : LoopReplacementPass} {k : ℕ}
    (h : pass.findReplacement program legality k stmt = .ok (some r)) :
    (∃ pat iter limits body, program.stmts stmt = .for pat iter limits body) ∧
      (program.literal r.value).isSome ∧ ∃ t, program.resolvedPath r.target = some t ∧
        S.IsCell t ∧ ∀ d, S.NodeMeans program (.stmt stmt) d →
          d.eval = S.changes fun σ => Function.update σ t (S.literalValue program r.value) := by
  cases pass with
  | suffixDemandHistory =>
    obtain ⟨pat, x, iter, elems, limits, body, bodyStmt, value, t, hloop, hlast, hassign, hvalue,
      htarget, ht⟩ := suffixDemandHistory_finds h
    obtain ⟨front, rfl⟩ := List.getLast?_eq_some_iff.mp hlast
    refine ⟨⟨pat, iter, limits, body, hloop.stmt⟩,
      hloop.literals _ (by simp), t, htarget, hS.item_var t ht, fun d hd => ?_⟩
    rw [hloop.eval hS (fun v _ => copy_accumulates hassign htarget hvalue (hS.item_var t ht)
        (hloop.isCell hS hloops))
      (isVar_ne hloops hloop ht) hd]
    simp
  | synthesizeScopedIndex =>
    obtain ⟨pat, x, iter, elems, limits, body, ifStmt, ifExpr, cond, thenBlock, scope, assign, query,
      ref, t, queryFirst, hloop, hifStmt, hifExpr, hthen, hassign, hcond, hquery, href,
      ⟨e, he, hsame⟩, hvalue, htarget, ht⟩ := synthesizeScopedIndex_finds h
    have htype := htypes _ _ _ _ _ _ _ _ _ _ _ _ hloop hcond hquery href
    have hvalues (e : HirExprId) (he : e ∈ elems) :=
      comparison_literal hS.toLaws cond queryFirst hquery (hloop.literals e he) (htype e he)
    refine ⟨⟨pat, iter, limits, body, hloop.stmt⟩, by rw [hvalue]; rfl, t, htarget,
      hS.item_var t ht, fun d hd => ?_⟩
    have hacc : ∀ v ∈ elems.map (S.literalValue program),
        S.Accumulates program x v ifStmt
          [(t, S.hit (S.comparison program cond query queryFirst))] := by
      intro v hv
      obtain ⟨e, he, rfl⟩ := List.mem_map.mp hv
      obtain ⟨same, heq, -⟩ := hvalues e he
      exact membership_accumulates hS.toLaws hifStmt hifExpr (fun d hd σ hσ => hσ ▸
        comparison_means hcond hquery href (hloop.isCell hS hloops) hd σ) hthen hassign hvalue
          htarget (hS.item_var t ht) ⟨same, heq⟩
    obtain ⟨same, heq, hhit⟩ := hvalues e he
    rw [hhit hsame] at heq
    have hfold (flag : V) : (elems.map (S.literalValue program)).foldl
        (S.hit (S.comparison program cond query queryFirst)) flag = S.bool true :=
      foldl_hit ⟨_, List.mem_map_of_mem he, heq⟩
    have htrue : S.literalValue program r.value = S.bool true := by
      rw [Semantics.literalValue, hvalue]
      exact hS.literal_bool _ _
    rw [hloop.eval hS hacc (isVar_ne hloops hloop ht) hd, htrue]
    simp only [hfold]

/-- An assignment of a literal means what its evaluation does. -/
theorem replacement_means {assign : HirStmtId} {target value : HirExprId} {t : SymbolId}
    (hassign : program.stmts assign = .assign target value)
    (htarget : program.resolvedPath target = some t) (ht : S.IsCell t)
    (hvalue : (program.literal value).isSome) :
    S.NodeMeans program (.stmt assign) (Semantics.evaluated
      (S.changes fun σ => Function.update σ t (S.literalValue program value))) := by
  obtain ⟨path, htargetExpr, -⟩ := program.resolvedPath_eq_some.mp htarget
  obtain ⟨l, hl⟩ := Option.isSome_iff_exists.mp hvalue
  have hvalueExpr := program.literal_eq_some.mp hl
  let m : Hir.HirTreeChild → Meaning V n := fun _ => Semantics.evaluated (pure S.unit)
  have hparts : ∀ c ∈ program.parts (.stmt assign),
      S.NodeMeans program c (S.nodeMeaning program c m) := by
    intro c hc
    rw [HirProgram.parts, hassign, Hir.HirStmt.children] at hc
    simp only [List.mem_cons, List.not_mem_nil, or_false] at hc
    refine .node c m fun c' hc' => ?_
    rcases hc with rfl | rfl
    · simp [HirProgram.parts, htargetExpr, HirExpr.children, HirExpr.bodies] at hc'
    · simp [HirProgram.parts, hvalueExpr, HirExpr.children, HirExpr.bodies] at hc'
  have hmeans := Means.node (.stmt assign) (fun c => S.nodeMeaning program c m) hparts
  have hshape : S.nodeMeaning program (.stmt assign) (fun c => S.nodeMeaning program c m) =
      Semantics.evaluated (S.nodeMeaning program (.stmt assign)
        (fun c => S.nodeMeaning program c m)).eval := by
    simp only [Semantics.nodeMeaning, hassign]
    rfl
  rw [← assign_literal_eval hassign htarget ht hvalue hmeans, ← hshape]
  exact hmeans

/-- A replaced statement is one assignment that leaves every variable as its loop did, and no node
of the program changes its meaning. The entries are those that were found, in any order. -/
theorem applyReplacements_preserves (hS : S.Lawful program) (hloops : program.LoopsBindPatterns)
    (htypes : S.ComparesAtOneType program) {pass : LoopReplacementPass} {k : ℕ}
    {blocks : List HirBlockId} {found entries : List (HirStmtId × Replacement)}
    (hfound : pass.findReplacements program legality k blocks = .ok found)
    (hentries : ∀ e, e ∈ entries ↔ e ∈ found) :
    (∀ stmt r, (stmt, r) ∈ entries →
      (applyReplacements program entries).stmts stmt = .assign r.target r.value ∧
        ∀ d d', S.NodeMeans program (.stmt stmt) d →
          S.NodeMeans (applyReplacements program entries) (.stmt stmt) d' → d'.eval = d.eval) ∧
    ∀ node d, S.NodeMeans program node d →
      S.NodeMeans (applyReplacements program entries) node d := by
  obtain ⟨hexprs, hblocks, hpats, harms⟩ := applyReplacements_frame program entries
  have hentry : ∀ stmt r, (stmt, r) ∈ entries →
      pass.findReplacement program legality k stmt = .ok (some r) := by
    intro stmt r h
    exact findReplacements_mem hfound ((hentries _).mp h)
  have hmeans : ∀ node d, S.NodeMeans program node d →
      S.NodeMeans (applyReplacements program entries) node d := by
    intro node d h
    refine Means.transfer (fun _ => True) (fun node m _ hm ih => ?_) trivial h
    replace ih : ∀ c ∈ program.parts node,
        S.NodeMeans (applyReplacements program entries) c (m c) := fun c hc => ih c hc trivial
    cases node with
    | stmt s =>
      rcases applyReplacements_stmts program entries s with ⟨-, hkept⟩ | ⟨r, hr, hset⟩
      · exact .same (by simp only [HirProgram.parts, hkept])
          (by simp only [Semantics.nodeMeaning, hkept]) ih
      · obtain ⟨⟨pat, iter, limits, body, hstmt⟩, hliteral, t, htarget, ht, heval⟩ :=
          replaced_eval hS hloops htypes (hentry s r hr)
        have hassign := replacement_means (S := S) hset
          (by rw [HirProgram.resolvedPath, hexprs]; exact htarget) ht
          (by rw [HirProgram.literal, hexprs]; exact hliteral)
        have hloop : S.nodeMeaning program (.stmt s) m =
            Semantics.evaluated (S.nodeMeaning program (.stmt s) m).eval := by
          simp only [Semantics.nodeMeaning, hstmt]
          rfl
        rw [hloop, heval _ (.node _ m hm)]
        rw [Semantics.literalValue, HirProgram.literal, hexprs] at hassign
        exact hassign
    | expr e =>
      exact .same (by simp only [HirProgram.parts, hexprs])
        (by simp only [Semantics.nodeMeaning, hexprs]) ih
    | block b =>
      exact .same (by simp only [HirProgram.parts, hblocks])
        (by simp only [Semantics.nodeMeaning, hblocks]) ih
    | pattern p =>
      exact .same (by simp only [HirProgram.parts, hpats])
        (by simp only [Semantics.nodeMeaning, hpats]) ih
    | handlerArm a =>
      exact .same (by simp only [HirProgram.parts, harms])
        (by simp only [Semantics.nodeMeaning, HirProgram.parts, harms]) ih
  refine ⟨fun stmt r hr => ⟨?_, fun d d' hd hd' => ?_⟩, hmeans⟩
  · rcases applyReplacements_stmts program entries stmt with ⟨hnone, -⟩ | ⟨r', hr', hset⟩
    · exact absurd hr (hnone r)
    · have hsame := (hentry stmt r hr).symm.trans (hentry stmt r' hr')
      cases hsame
      exact hset
  · rw [hd'.unique (nodeMeaning_looksAtParts _) (hmeans _ _ hd)]

end

/-- `for x in [3, 4] limit Iterations(2) { latest = x; }`. -/
def latestProgram : HirProgram :=
  { HirProgram.empty with
    exprs := fun
      | 0 => .array [1, 2]
      | 1 => .literal (.int "3")
      | 2 => .literal (.int "4")
      | 3 => .call 4 [] [.positional 5]
      | 4 => .path ⟨["Iterations"], .unresolved, ⟨0, 0, 0⟩⟩
      | 5 => .literal (.int "2")
      | 6 => .path ⟨["latest"], .resolved 0, ⟨0, 0, 0⟩⟩
      | 7 => .path ⟨["x"], .resolved 1, ⟨0, 0, 0⟩⟩
      | _ => .error
    stmts := fun
      | 0 => .var 0 5
      | 1 => .for 1 0 [3] 1
      | 2 => .assign 6 7
      | _ => .error
    pats := fun
      | 0 => .binding 0
      | 1 => .binding 1
      | _ => .error
    blocks := fun
      | 0 => ⟨[0, 1], none, 0⟩
      | 1 => ⟨[2], none, 0⟩
      | _ => ⟨[], none, 0⟩
    symbols := fun
      | 0 => some ⟨"latest", .local, .local 0⟩
      | 1 => some ⟨"x", .local, .patternBinding⟩
      | _ => none }

private theorem latestProgram_loops : latestProgram.LoopsBindPatterns := by
  intro stmt pat iter limits body x hstmt hpat
  have hloop : stmt = 1 := by
    match stmt, hstmt with
    | 0, h => cases h
    | 1, _ => rfl
    | 2, h => cases h
    | _ + 3, h => cases h
  subst hloop
  cases hstmt
  cases hpat
  exact ⟨_, _, rfl⟩

theorem applyReplacements_preserves_latest :
    ∃ found d, LoopReplacementPass.suffixDemandHistory.findReplacements latestProgram allMovable 4
        [0, 1] = .ok found ∧ found.length = 1 ∧
      (plainSemantics latestProgram).NodeMeans latestProgram (.stmt 1) d ∧
      (plainSemantics latestProgram).NodeMeans (applyReplacements latestProgram found) (.stmt 1) d := by
  have hdepth : latestProgram.depthAtMost 4 (.stmt 1) = true := by decide
  have hd := (plainSemantics latestProgram).nodeMeans_meaningAt hdepth
  refine ⟨_, _, rfl, ?_, hd, ?_⟩
  · rfl
  have hpreserves := @applyReplacements_preserves _ _ _ (plainSemantics latestProgram) latestProgram
    allMovable _ (plainSemantics_lawful _) latestProgram_loops
    (fun _ _ _ _ _ _ _ _ _ _ _ _ _ _ _ _ _ _ => rfl) .suffixDemandHistory 4 [0, 1] _ _ rfl
    fun _ => Iff.rfl
  exact hpreserves.2 _ _ hd

end EtasFrontend.Optimization
