import EtasFrontend.Passes.LoopProgress

/-! Which loops are reported, and when these are the loops without progress. -/
namespace EtasFrontend.Passes.LoopProgressAnalyzer
open Lib Hir Relation

section
variable (hir : HirProgram)

/-- The arms of a handler that a `handle` expression names in place. -/
def handledArms : HirTreeChild → List HirTreeChild
  | .expr expr =>
    match hir.exprs[expr]? with
    | some (.handle _ target) =>
      match hir.exprs[target]? with
      | some (.handler arms) => arms.map .handlerArm
      | _ => []
    | _ => []
  | _ => []

/-- A lambda and a handler are values: their bodies do not run where they stand. -/
def runsInPlace : Option HirBodyKind × HirTreeChild → Bool
  | (some (.lambda _), _) => false
  | (_, .handlerArm _) => false
  | _ => true

/-- The nodes that run as a part of a node. -/
def running (node : HirTreeChild) : List HirTreeChild :=
  ((hir.entries node).filter runsInPlace).map Prod.snd ++ handledArms hir node

/-- The symbol of a plain variable. -/
def plainVariable (expr : HirExprId) : Option SymbolId :=
  match hir.exprs[expr]? with
  | some (.path path) =>
    match path.resolution with
    | .resolved symbol => some symbol
    | _ => none
  | _ => none

/-- The statement assigns the variable. -/
def assigns (symbol : SymbolId) : HirTreeChild → Bool
  | .stmt stmt =>
    match hir.stmts[stmt]? with
    | some (.assign target _) => plainVariable hir target == some symbol
    | _ => false
  | _ => false

/-- The variable on the left side of an ordering comparison. -/
def ComparesVariable (cond : HirExprId) (symbol : SymbolId) : Prop :=
  ∃ op lhs rhs, hir.exprs[cond]? = some (.binary op lhs rhs) ∧ isOrdering op = true ∧
    plainVariable hir lhs = some symbol

/-- The statements and the final expression of a block, the bodies of loops, and the branches of
`if`, `match` and block expressions that stand as statements or final expressions. -/
def searched : HirTreeChild → List HirTreeChild
  | .block block =>
    match hir.blocks[block]? with
    | some data => data.stmts.map .stmt ++ data.finalExpr.toList.map .expr
    | none => []
  | .stmt stmt =>
    match hir.stmts[stmt]? with
    | some (.if expr) | some (.match expr) | some (.expr expr) => [.expr expr]
    | some (.for _ _ _ body) | some (.while _ _ body) | some (.retry _ body) => [.block body]
    | _ => []
  | .expr expr =>
    match hir.exprs[expr]? with
    | some (.if _ thenBlock elseBranch) =>
      .block thenBlock :: elseBranch.toList.map HirElseBranch.child
    | some (.match _ arms) => arms.map fun arm => arm.body.child
    | some (.block block) => [.block block]
    | _ => []
  | _ => []

end

variable {hir : HirProgram}

theorem searched_entry {node child : HirTreeChild} (h : child ∈ searched hir node) :
    ∃ kind, (kind, child) ∈ hir.entries node ∧ runsInPlace (kind, child) = true := by
  cases node with
  | block block =>
    simp only [searched, HirProgram.entries] at h ⊢
    cases hb : hir.blocks[block]? with
    | none => simp [hb] at h
    | some data =>
      refine ⟨none, ?_, ?_⟩
      · simpa [hb] using h
      · simp only [hb, List.mem_append, List.mem_map] at h
        rcases h with ⟨_, -, rfl⟩ | ⟨_, -, rfl⟩ <;> rfl
  | stmt stmt =>
    simp only [searched, HirProgram.entries] at h ⊢
    cases hs : hir.stmts[stmt]? with
    | none => simp [hs] at h
    | some data =>
      cases data <;> simp only [hs, List.mem_singleton, List.not_mem_nil] at h <;>
        exact ⟨none, by simp [HirStmt.children, h], by rw [h]; rfl⟩
  | expr expr =>
    simp only [searched, HirProgram.entries] at h ⊢
    cases he : hir.exprs[expr]? with
    | none => simp [he] at h
    | some data =>
      cases data with
      | «if» cond thenBlock elseBranch =>
        simp only [he] at h
        refine ⟨none, ?_, ?_⟩
        · apply List.mem_append_left
          exact List.mem_map.mpr ⟨child, List.mem_cons_of_mem _ h, rfl⟩
        rcases List.mem_cons.mp h with rfl | h
        · rfl
        · obtain ⟨branch, -, rfl⟩ := List.mem_map.mp h
          cases branch <;> rfl
      | «match» scrutinee arms =>
        simp only [he] at h
        obtain ⟨arm, harm, rfl⟩ := List.mem_map.mp h
        obtain ⟨k, hk⟩ := List.mem_iff_getElem?.mp harm
        refine ⟨some (.matchArm expr k), ?_, ?_⟩
        · apply List.mem_append_right
          apply List.mem_map.mpr
          refine ⟨(.matchArm expr k, arm.body.child), ?_, rfl⟩
          exact List.mem_map.mpr ⟨(arm, k), List.mem_zipIdx_iff_getElem?.mpr hk, rfl⟩
        · cases arm.body <;> rfl
      | block block =>
        simp only [he] at h
        obtain rfl := List.mem_singleton.mp h
        exact ⟨none, by simp [HirExpr.children], rfl⟩
      | _ => simp [he] at h
  | handlerArm arm => cases h
  | pattern pat => cases h

theorem searched_subset_entries (node : HirTreeChild) :
    searched hir node ⊆ (hir.entries node).map Prod.snd := by
  intro child h
  obtain ⟨kind, hk, -⟩ := searched_entry h
  exact List.mem_map_of_mem hk

theorem searched_subset_running (node : HirTreeChild) : searched hir node ⊆ running hir node := by
  intro child h
  obtain ⟨kind, hk, hr⟩ := searched_entry h
  exact List.mem_append_left _ (List.mem_map_of_mem (f := Prod.snd) (List.mem_filter.mpr ⟨hk, hr⟩))

/-- The three searches as one. -/
def assignsSymbol (hir : HirProgram) (symbol : SymbolId) (fuel : ℕ) :
    HirTreeChild → Except Halt Bool
  | .block block => blockAssignsSymbol hir symbol fuel block
  | .stmt stmt => stmtAssignsSymbol hir symbol fuel stmt
  | .expr expr => exprAssignsSymbol hir symbol fuel expr
  | _ => .ok false

variable {expr : HirExprId}

theorem exprAt_of_mem (h : .expr expr ∈ hir.nodes) :
    ∃ data, hir.exprs[expr]? = some data ∧ exprAt hir expr = .ok data := by
  have hlt : expr < hir.exprs.length := by simpa [HirProgram.nodes] using h
  exact ⟨hir.exprs[expr], List.getElem?_eq_getElem hlt, by simp [exprAt, List.getElem?_eq_getElem hlt]⟩

theorem stmtAt_of_mem {stmt : HirStmtId} (h : .stmt stmt ∈ hir.nodes) :
    ∃ data, hir.stmts[stmt]? = some data ∧ stmtAt hir stmt = .ok data := by
  have hlt : stmt < hir.stmts.length := by simpa [HirProgram.nodes] using h
  exact ⟨hir.stmts[stmt], List.getElem?_eq_getElem hlt, by simp [stmtAt, List.getElem?_eq_getElem hlt]⟩

theorem pathSymbol_of_mem (h : .expr expr ∈ hir.nodes) :
    pathSymbol hir expr = .ok (plainVariable hir expr) := by
  obtain ⟨data, hdata, hat⟩ := exprAt_of_mem h
  simp only [pathSymbol, hat, plainVariable, hdata, bind, Except.bind]
  cases data with
  | path path =>
    obtain ⟨segments, resolution, span⟩ := path
    cases resolution <;> rfl
  | _ => rfl

theorem searchStep_block (symbol : SymbolId) (block : HirBlockId) :
    SearchStep (searched hir) (assigns hir symbol) (assignsSymbol hir symbol) (.block block) := by
  intro fuel
  simp only [assignsSymbol, blockAssignsSymbol, assigns, searched]
  cases hir.blocks[block]? with
  | none => rfl
  | some data =>
    simp only [Bool.false_eq_true, if_false, anyM_append, anyM_map]
    congr 1
    funext found
    cases data.finalExpr with
    | none => rfl
    | some expr =>
      rw [Option.toList_some, anyM_singleton]
      rfl

theorem searchStep_stmt (h : hir.Formed) (symbol : SymbolId) {stmt : HirStmtId}
    (hm : .stmt stmt ∈ hir.nodes) :
    SearchStep (searched hir) (assigns hir symbol) (assignsSymbol hir symbol) (.stmt stmt) := by
  intro fuel
  obtain ⟨data, hdata, hat⟩ := stmtAt_of_mem hm
  simp only [assignsSymbol, stmtAssignsSymbol, hat, assigns, searched, hdata, bind, Except.bind]
  cases data with
  | assign target value =>
    have htarget := h.listed (.stmt stmt) (.expr target)
      (by simp [HirProgram.entries, hdata, HirStmt.children])
    simp only [pathSymbol_of_mem htarget]
    cases plainVariable hir target == some symbol <;> rfl
  | «if» e | «match» e | expr e => exact (anyM_singleton _ _).symm
  | «for» _ _ _ body | «while» _ _ body | retry _ body => exact (anyM_singleton _ _).symm
  | _ => rfl

theorem searchStep_expr (symbol : SymbolId) (hm : .expr expr ∈ hir.nodes) :
    SearchStep (searched hir) (assigns hir symbol) (assignsSymbol hir symbol) (.expr expr) := by
  intro fuel
  obtain ⟨data, hdata, hat⟩ := exprAt_of_mem hm
  simp only [assignsSymbol, exprAssignsSymbol, hat, assigns, searched, hdata, bind, Except.bind]
  cases data with
  | «if» cond thenBlock elseBranch =>
    simp only [Bool.false_eq_true, if_false, List.anyM_cons]
    congr 1
    funext found
    cases elseBranch with
    | none => cases found <;> rfl
    | some branch =>
      rw [Option.toList_some, List.map_cons, List.map_nil, anyM_singleton]
      cases branch <;> cases found <;> rfl
  | «match» scrutinee arms =>
    simp only [Bool.false_eq_true, if_false, anyM_map]
    congr 1
    funext arm
    unfold armAssignsSymbol HirBodyTarget.child
    cases arm.body <;> rfl
  | block block => exact (anyM_singleton _ _).symm
  | _ => rfl

theorem below_mem (h : hir.Formed) {node other : HirTreeChild} (hn : node ∈ hir.nodes)
    (hb : Below (searched hir) node other) : other ∈ hir.nodes := by
  induction hb with
  | refl => exact hn
  | tail _ hc _ => exact h.listed _ _ (searched_subset_entries _ hc)

theorem blockAssignsSymbol_returns (h : hir.Formed) (symbol : SymbolId) {block : HirBlockId}
    (hm : .block block ∈ hir.nodes) :
    ∃ found, (∃ bound, ∀ fuel ≥ bound, blockAssignsSymbol hir symbol fuel block = .ok found) ∧
      (found = true ↔
        ∃ node, Below (searched hir) (.block block) node ∧ assigns hir symbol node = true) := by
  have hacc : Acc (fun child parent => child ∈ searched hir parent) (.block block) :=
    (Subrelation.wf (fun {child parent} hc => searched_subset_entries parent hc) h.ends).apply _
  refine search_returns (assignsSymbol hir symbol) hacc ?_
  intro node hb
  have hnode := below_mem h hm hb
  cases node with
  | block block => exact searchStep_block symbol block
  | stmt stmt => exact searchStep_stmt h symbol hnode
  | expr expr => exact searchStep_expr symbol hnode
  | handlerArm arm => exact fun fuel => rfl
  | pattern pat => exact fun fuel => rfl

/-- A loop that is reported. -/
def Reported (hir : HirProgram) (loop : HirStmtId) : Prop :=
  ∃ cond limits body symbol, hir.stmts[loop]? = some (.while cond limits body) ∧
    ComparesVariable hir cond symbol ∧
    ¬ ∃ node, Below (searched hir) (.block body) node ∧ assigns hir symbol node = true

variable {cond : HirExprId}

theorem conditionProgressSymbol_of_mem (h : hir.Formed) (hm : .expr cond ∈ hir.nodes) :
    ∃ found, conditionProgressSymbol hir cond = .ok found ∧
      ∀ symbol, found = some symbol ↔ ComparesVariable hir cond symbol := by
  obtain ⟨data, hdata, hat⟩ := exprAt_of_mem hm
  cases data with
  | binary op lhs rhs =>
    have hlhs := pathSymbol_of_mem (h.listed (.expr cond) (.expr lhs)
      (by simp [HirProgram.entries, hdata, HirExpr.children]))
    cases hop : isOrdering op with
    | true =>
      refine ⟨plainVariable hir lhs, ?_, ?_⟩
      · simp [conditionProgressSymbol, hat, bind, Except.bind, hop, hlhs]
      · intro symbol
        constructor
        · exact fun hs => ⟨op, lhs, rhs, hdata, hop, hs⟩
        · rintro ⟨_, _, _, hdata', -, hs⟩
          cases hdata.symm.trans hdata'
          exact hs
    | false =>
      refine ⟨none, by simp [conditionProgressSymbol, hat, bind, Except.bind, hop], ?_⟩
      intro symbol
      constructor
      · exact fun hs => by cases hs
      · rintro ⟨_, _, _, hdata', hop', -⟩
        cases hdata.symm.trans hdata'
        rw [hop] at hop'
        cases hop'
  | _ =>
    refine ⟨none, by simp [conditionProgressSymbol, hat, bind, Except.bind], ?_⟩
    intro symbol
    constructor
    · exact fun hs => by cases hs
    · rintro ⟨_, _, _, hdata', -⟩
      cases hdata.symm.trans hdata'

theorem ComparesVariable.unique {symbol symbol' : SymbolId}
    (h : ComparesVariable hir cond symbol) (h' : ComparesVariable hir cond symbol') :
    symbol = symbol' := by
  obtain ⟨op, lhs, rhs, hdata, -, hs⟩ := h
  obtain ⟨op', lhs', rhs', hdata', -, hs'⟩ := h'
  cases hdata.symm.trans hdata'
  exact Option.some.inj (hs.symm.trans hs')

theorem reported_iff {loop : HirStmtId} {limits : List HirExprId}
    {body : HirBlockId} {symbol : SymbolId} (hw : hir.stmts[loop]? = some (.while cond limits body))
    (hc : ComparesVariable hir cond symbol) :
    Reported hir loop ↔
      ¬ ∃ node, Below (searched hir) (.block body) node ∧ assigns hir symbol node = true := by
  constructor
  · rintro ⟨cond', limits', body', symbol', hw', hc', hnone⟩
    cases hw.symm.trans hw'
    rwa [hc.unique hc']
  · exact fun hnone => ⟨cond, limits, body, symbol, hw, hc, hnone⟩

theorem checkStmt_returns (h : hir.Formed) (stmt : HirStmtId) :
    ∃ reports, (∃ bound, ∀ fuel ≥ bound, ∀ diagnostics,
        checkStmt hir fuel stmt diagnostics = .ok (diagnostics ++ reports)) ∧
      (∀ report ∈ reports, report.loop = stmt) ∧ (reports ≠ [] ↔ Reported hir stmt) := by
  by_cases hw : ∃ cond limits body, hir.stmts[stmt]? = some (.while cond limits body)
  · obtain ⟨cond, limits, body, hw⟩ := hw
    have hlisted : ∀ child ∈ HirStmt.children (.while cond limits body), child ∈ hir.nodes := by
      intro child hchild
      apply h.listed (.stmt stmt)
      simpa [HirProgram.entries, hw] using hchild
    obtain ⟨found, hfound, hsymbol⟩ :=
      conditionProgressSymbol_of_mem h (hlisted (.expr cond) (by simp [HirStmt.children]))
    cases found with
    | none =>
      refine ⟨[], ⟨0, ?_⟩, by simp, ?_⟩
      · intro fuel _ diagnostics
        simp [checkStmt, hw, hfound, bind, Except.bind]
      · refine iff_of_false (by simp) ?_
        rintro ⟨_, _, _, symbol, hw', hc, -⟩
        cases hw.symm.trans hw'
        cases (hsymbol symbol).mpr hc
    | some symbol =>
      have hc := (hsymbol symbol).mp rfl
      obtain ⟨assigned, ⟨bound, hassigned⟩, hiff⟩ := blockAssignsSymbol_returns h symbol
        (hlisted (.block body) (by simp [HirStmt.children]))
      rw [reported_iff hw hc, ← hiff]
      cases assigned with
      | true =>
        refine ⟨[], ⟨bound, ?_⟩, by simp, by simp⟩
        intro fuel hfuel diagnostics
        simp [checkStmt, hw, hfound, hassigned fuel hfuel, bind, Except.bind]
      | false =>
        refine ⟨[nonProgressingLoop hir stmt symbol], ⟨bound, ?_⟩, by simp [nonProgressingLoop],
          by simp⟩
        intro fuel hfuel diagnostics
        simp [checkStmt, hw, hfound, hassigned fuel hfuel, bind, Except.bind]
  · refine ⟨[], ⟨0, ?_⟩, by simp, ?_⟩
    · intro fuel _ diagnostics
      unfold checkStmt
      split
      · next cond limits body hs => exact absurd ⟨cond, limits, body, hs⟩ hw
      · rw [List.append_nil]
    · refine iff_of_false (by simp) ?_
      rintro ⟨cond, limits, body, _, hw', -⟩
      exact hw ⟨cond, limits, body, hw'⟩

theorem foldlM_checkStmt (h : hir.Formed) (stmts : List HirStmtId) :
    ∃ reports, (∃ bound, ∀ fuel ≥ bound, ∀ diagnostics,
        stmts.foldlM (fun diagnostics stmt => checkStmt hir fuel stmt diagnostics) diagnostics =
          .ok (diagnostics ++ reports)) ∧
      ∀ loop, (∃ report ∈ reports, report.loop = loop) ↔ loop ∈ stmts ∧ Reported hir loop := by
  induction stmts with
  | nil => exact ⟨[], ⟨0, fun _ _ diagnostics => by simp [pure, Except.pure]⟩, by simp⟩
  | cons stmt stmts ih =>
    obtain ⟨first, ⟨bound, hfirst⟩, hat, hne⟩ := checkStmt_returns h stmt
    obtain ⟨rest, ⟨bound', hrest⟩, hiff⟩ := ih
    refine ⟨first ++ rest, ⟨max bound bound', ?_⟩, ?_⟩
    · intro fuel hfuel diagnostics
      simp only [List.foldlM_cons, hfirst fuel (by omega), bind, Except.bind,
        hrest fuel (by omega), List.append_assoc]
    · intro loop
      have hfirst : (∃ report ∈ first, report.loop = loop) ↔ loop = stmt ∧ Reported hir loop := by
        constructor
        · rintro ⟨report, hreport, rfl⟩
          have heq := hat report hreport
          exact ⟨heq, heq ▸ hne.mp (List.ne_nil_of_mem hreport)⟩
        · rintro ⟨rfl, hr⟩
          obtain ⟨report, hreport⟩ := List.exists_mem_of_ne_nil _ (hne.mpr hr)
          exact ⟨report, hreport, hat report hreport⟩
      simp only [List.mem_append, or_and_right, exists_or, hfirst, hiff, List.mem_cons]

/-- The pass returns, and reports a loop over a variable exactly when no running part of its body
assigns the variable, if and only if every loop with a running assignment has one at a searched
place. -/
theorem run_exact_iff (h : hir.Formed) :
    ∃ bound, ∀ fuel ≥ bound, ∃ diagnostics, run hir fuel = .ok diagnostics ∧
      ∀ loop cond limits body symbol, hir.stmts[loop]? = some (.while cond limits body) →
        ComparesVariable hir cond symbol →
        (((∃ report ∈ diagnostics, report.loop = loop) ↔
            ¬ ∃ node, Below (running hir) (.block body) node ∧ assigns hir symbol node = true) ↔
          ((∃ node, Below (running hir) (.block body) node ∧ assigns hir symbol node = true) →
            ∃ node, Below (searched hir) (.block body) node ∧
              assigns hir symbol node = true)) := by
  obtain ⟨reports, ⟨bound, hrun⟩, hiff⟩ := foldlM_checkStmt h (List.range hir.stmts.length)
  refine ⟨bound, fun fuel hfuel => ⟨reports, by simpa [run] using hrun fuel hfuel [], ?_⟩⟩
  intro loop cond limits body symbol hw hc
  have hmem : loop ∈ List.range hir.stmts.length :=
    List.mem_range.mpr (List.getElem?_eq_some_iff.mp hw).1
  rw [hiff loop, and_iff_right hmem, reported_iff hw hc]
  have hruns : (∃ node, Below (searched hir) (.block body) node ∧ assigns hir symbol node = true) →
      ∃ node, Below (running hir) (.block body) node ∧ assigns hir symbol node = true := by
    rintro ⟨node, hb, ha⟩
    exact ⟨node, hb.mono searched_subset_running, ha⟩
  rw [not_iff_not]
  exact ⟨fun heq => heq.mpr, fun hsearched => ⟨hruns, hsearched⟩⟩

/-! Programs with one loop. -/

def variableN : HirExpr := .path ⟨["n"], .resolved 0, ⟨0, 0, 0⟩⟩

/-- `while n < 4 { n = n + 1; }` -/
def countingLoop : HirProgram :=
  { HirProgram.empty with
    symbols := ⟨[⟨"n", .local, .local 0⟩], ∅⟩
    exprs := [variableN, .literal (.int "4"), .binary .lt 0 1, variableN, variableN,
      .literal (.int "1"), .binary .add 4 5]
    stmts := [.while 2 [] 0, .assign 3 6]
    blocks := [⟨[1], none, 0⟩] }

/-- `while n < 4 { let x = { n = n + 1; 0 }; }` -/
def countingInLet : HirProgram :=
  { HirProgram.empty with
    symbols := ⟨[⟨"n", .local, .local 0⟩], ∅⟩
    exprs := [variableN, .literal (.int "4"), .binary .lt 0 1, variableN, variableN,
      .literal (.int "1"), .binary .add 4 5, .literal (.int "0"), .block 1]
    stmts := [.while 2 [] 0, .assign 3 6, .let 0 8]
    pats := [.binding 1]
    blocks := [⟨[2], none, 0⟩, ⟨[1], some 7, 1⟩] }

/-- Statements and blocks above the expressions, which name smaller ones. -/
def countingRank : HirTreeChild → ℕ
  | .stmt 0 => 21
  | .block 0 => 20
  | .stmt 2 => 19
  | .expr 8 => 18
  | .block _ => 17
  | .stmt _ => 16
  | .expr expr => expr
  | _ => 0

theorem countingLoop_formed : countingLoop.Formed :=
  .of_rank countingRank (by decide)

theorem run_exact_countingLoop : ∃ bound, ∀ fuel ≥ bound, ∃ diagnostics,
    run countingLoop fuel = .ok diagnostics ∧ ∀ report ∈ diagnostics, report.loop ≠ 0 := by
  obtain ⟨bound, hrun⟩ := run_exact_iff countingLoop_formed
  refine ⟨bound, fun fuel hfuel => ?_⟩
  obtain ⟨diagnostics, hd, hiff⟩ := hrun fuel hfuel
  have hassigned : Below (searched countingLoop) (.block 0) (.stmt 1) :=
    .single (by decide)
  have hloop := hiff 0 2 [] 0 0 rfl ⟨.lt, 0, 1, rfl, rfl, rfl⟩
  refine ⟨diagnostics, hd, fun report hreport heq => ?_⟩
  refine (hloop.mpr fun _ => ⟨.stmt 1, hassigned, by decide⟩).mp ⟨report, hreport, heq⟩ ?_
  exact ⟨.stmt 1, hassigned.mono searched_subset_running, by decide⟩

/-- A loop that advances its variable in the value of a `let` is reported. -/
theorem run_countingInLet : countingInLet.Formed ∧
    run countingInLet 8 = .ok [⟨0, "loop body does not advance n"⟩] ∧
    Below (running countingInLet) (.block 0) (.stmt 1) ∧
    assigns countingInLet 0 (.stmt 1) = true := by
  refine ⟨.of_rank countingRank (by decide), by decide, ?_, by decide⟩
  have hlet : HirTreeChild.stmt 2 ∈ running countingInLet (.block 0) := by decide
  have hvalue : HirTreeChild.expr 8 ∈ running countingInLet (.stmt 2) := by decide
  have hblock : HirTreeChild.block 1 ∈ running countingInLet (.expr 8) := by decide
  have hassign : HirTreeChild.stmt 1 ∈ running countingInLet (.block 1) := by decide
  exact (((ReflTransGen.single hlet).tail hvalue).tail hblock).tail hassign

end EtasFrontend.Passes.LoopProgressAnalyzer
