import EtasFrontend.Lib.Fallible
import EtasFrontend.Optimization.References

/-! The pass that removes the bindings of contexts that no path refers to. -/
namespace EtasFrontend.Optimization
open Hir (HirExprId HirStmtId HirPatId HirBlockId SymbolId HirTreeChild Halt)
open Lib

structure Removal where
  pattern : HirPatId
  expressions : List HirExprId

/-- The argument of the call of a marked flow with one string. -/
def contextLiteral (program : HirProgram) (expr : HirExprId) : Option HirExprId :=
  match program.exprs expr with
  | .call callee [] [.positional value] =>
    if program.calledItemHasMarker callee "QualityContext" then
      match program.exprs value with
      | .literal (.string _) => some value
      | _ => none
    else none
  | _ => none

/-- The expressions below the first of the stack, when all are movable and have expression children
only. The top of the stack is its head. -/
def pureExpressionTree (program : HirProgram) (legality : AgentEffectLegalityFacts) :
    ℕ → List HirExprId → Except Halt (Option (List HirExprId))
  | _, [] => .ok (some [])
  | 0, _ :: _ => .error .outOfFuel
  | n + 1, expr :: pending =>
    if !legality.isMovable expr then .ok none
    else if (program.exprs expr).children.any (fun
        | .expr _ => false
        | _ => true) then .ok none
    else do
      let rest ← pureExpressionTree program legality n ((program.exprChildren expr).reverse ++ pending)
      return rest.map (expr :: ·)

section
variable (program : HirProgram) (legality : AgentEffectLegalityFacts) (n : ℕ)
  (expressions : List HirExprId)

/-- The symbols that the paths of the body resolve to. -/
def usedSymbols : List SymbolId :=
  (expressions.filter fun expr => expr ∉ program.optimizedOutExprs).filterMap program.resolvedPath

def findRemoval (stmt : HirStmtId) : Except Halt (Option (HirStmtId × Removal)) :=
  match program.stmts stmt with
  | .let pat value =>
    match program.pats pat with
    | .binding symbol =>
      if symbol ∈ usedSymbols program expressions || (contextLiteral program value).isNone then
        .ok none
      else do
        match ← pureExpressionTree program legality n [value] with
        | none => return none
        | some expressions => return some (stmt, ⟨pat, expressions⟩)
    | _ => .ok none
  | _ => .ok none

def findRemovals (blocks : List HirBlockId) : Except Halt (List (HirStmtId × Removal)) := do
  let found ← (blocks.flatMap fun block => (program.blocks block).stmts).mapM
    (findRemoval program legality n expressions)
  return found.filterMap id

end

def applyRemovals (program : HirProgram) (removals : List (HirStmtId × Removal)) : HirProgram :=
  let retained := { program with
    blocks := fun block =>
      { program.blocks block with
        stmts := (program.blocks block).stmts.filter fun stmt => stmt ∉ removals.map Prod.fst } }
  removals.foldl (fun program entry =>
    program.markOptimizedOut [] [entry.1] [entry.2.pattern] entry.2.expressions.toFinset) retained

section
variable {program : HirProgram} {legality : AgentEffectLegalityFacts} {n : ℕ}
  {expressions : List HirExprId}

/-- The statement binds a context that the pass could remove. -/
structure Removable (program : HirProgram) (legality : AgentEffectLegalityFacts) (n : ℕ)
    (stmt : HirStmtId) (pat : HirPatId) (symbol : SymbolId) (tree : List HirExprId) : Prop where
  binding : program.pats pat = .binding symbol
  value : ∃ value, program.stmts stmt = .let pat value ∧ (contextLiteral program value).isSome ∧
    pureExpressionTree program legality n [value] = .ok (some tree)

theorem contextLiteral_eq_some {expr value : HirExprId}
    (h : contextLiteral program expr = some value) :
    ∃ callee text, program.exprs expr = .call callee [] [.positional value] ∧
      program.calledItemHasMarker callee "QualityContext" = true ∧
      program.exprs value = .literal (.string text) := by
  unfold contextLiteral at h
  split at h
  case h_2 => cases h
  next callee value' hexpr =>
  split at h
  case isFalse => cases h
  next hmarker =>
  split at h
  case h_2 => cases h
  next text hvalue =>
  cases h
  exact ⟨callee, text, hexpr, hmarker, hvalue⟩

theorem findRemoval_eq_some {stmt : HirStmtId} {entry : HirStmtId × Removal} :
    findRemoval program legality n expressions stmt = .ok (some entry) ↔
      entry.1 = stmt ∧ ∃ symbol, Removable program legality n stmt entry.2.pattern symbol
        entry.2.expressions ∧ symbol ∉ usedSymbols program expressions := by
  constructor
  · intro h
    unfold findRemoval at h
    split at h
    case h_2 => cases h
    next pat value hstmt =>
    split at h
    case h_2 => cases h
    next symbol hpat =>
    split at h
    case isTrue => cases h
    next hchecks =>
    obtain ⟨tree, htree, h⟩ := bind_eq_ok.mp h
    cases tree with
    | none => cases h
    | some tree =>
      cases h
      simp only [Bool.or_eq_true, decide_eq_true_eq, not_or, Bool.not_eq_true,
        Option.isNone_eq_false_iff] at hchecks
      exact ⟨rfl, symbol, ⟨hpat, value, hstmt, hchecks.2, htree⟩, hchecks.1⟩
  · rintro ⟨rfl, symbol, ⟨hpat, value, hstmt, hliteral, htree⟩, hused⟩
    have hnone : (contextLiteral program value).isNone = false := by
      rw [Option.isNone_eq_false_iff]
      exact hliteral
    simp only [findRemoval, hstmt, hpat, hused, hnone, htree, decide_false, Bool.or_self,
      Bool.false_eq_true, if_false]
    rfl

theorem findRemovals_mem {blocks : List HirBlockId} {found : List (HirStmtId × Removal)}
    (h : findRemovals program legality n expressions blocks = .ok found)
    {entry : HirStmtId × Removal} :
    entry ∈ found ↔ ∃ block ∈ blocks, ∃ stmt ∈ (program.blocks block).stmts,
      findRemoval program legality n expressions stmt = .ok (some entry) := by
  obtain ⟨all, hall, h⟩ := bind_eq_ok.mp h
  cases h
  have hpairs := mapM_ok hall
  simp only [List.mem_filterMap, id_eq, exists_eq_right]
  constructor
  · intro hmem
    obtain ⟨stmt, hstmt, hfound⟩ := forall₂_mem_right hpairs hmem
    obtain ⟨block, hblock, hstmt⟩ := List.mem_flatMap.mp hstmt
    exact ⟨block, hblock, stmt, hstmt, hfound⟩
  · rintro ⟨block, hblock, stmt, hstmt, hfound⟩
    obtain ⟨option, hoption, heq⟩ := forall₂_mem_left hpairs
      (List.mem_flatMap.mpr ⟨block, hblock, hstmt⟩)
    rw [hfound] at heq
    cases heq
    exact hoption

end

theorem applyRemovals_frame (program : HirProgram) (removals : List (HirStmtId × Removal)) :
    (applyRemovals program removals).exprs = program.exprs ∧
      (applyRemovals program removals).stmts = program.stmts ∧
      (applyRemovals program removals).pats = program.pats ∧
      (applyRemovals program removals).handlerArms = program.handlerArms ∧
      (applyRemovals program removals).blocks = fun block =>
        { program.blocks block with
          stmts := (program.blocks block).stmts.filter fun stmt => stmt ∉ removals.map Prod.fst } := by
  have hmark (entries : List (HirStmtId × Removal)) (program : HirProgram) :
      let marked := entries.foldl (fun program entry => program.markOptimizedOut [] [entry.1]
        [entry.2.pattern] entry.2.expressions.toFinset) program
      marked.exprs = program.exprs ∧ marked.stmts = program.stmts ∧ marked.pats = program.pats ∧
        marked.handlerArms = program.handlerArms ∧ marked.blocks = program.blocks := by
    induction entries generalizing program with
    | nil => exact ⟨rfl, rfl, rfl, rfl, rfl⟩
    | cons entry entries ih => exact ih _
  exact hmark removals _

theorem applyRemovals_parts (program : HirProgram) (removals : List (HirStmtId × Removal))
    (node part : HirTreeChild) : part ∈ (applyRemovals program removals).parts node ↔
      part ∈ program.parts node ∧
        ((∃ block, node = .block block) → ∀ stmt ∈ removals.map Prod.fst, part ≠ .stmt stmt) := by
  obtain ⟨hexprs, hstmts, hpats, harms, hblocks⟩ := applyRemovals_frame program removals
  cases node with
  | block block =>
    simp only [HirProgram.parts, hblocks, List.mem_append, List.mem_map, List.mem_filter,
      decide_eq_true_eq]
    constructor
    · rintro (⟨stmt, ⟨hstmt, hkept⟩, rfl⟩ | ⟨expr, hexpr, rfl⟩)
      · exact ⟨.inl ⟨stmt, hstmt, rfl⟩, fun _ stmt' hstmt' heq =>
          hkept (HirTreeChild.stmt.inj heq ▸ hstmt')⟩
      · exact ⟨.inr ⟨expr, hexpr, rfl⟩, fun _ stmt' _ heq => by cases heq⟩
    · rintro ⟨⟨stmt, hstmt, rfl⟩ | ⟨expr, hexpr, rfl⟩, hkept⟩
      · exact .inl ⟨stmt, ⟨hstmt, fun hmem => hkept ⟨block, rfl⟩ stmt hmem rfl⟩, rfl⟩
      · exact .inr ⟨expr, hexpr, rfl⟩
  | expr expr => simp [HirProgram.parts, hexprs]
  | stmt stmt => simp [HirProgram.parts, hstmts]
  | pattern pat => simp [HirProgram.parts, hpats]
  | handlerArm arm => simp [HirProgram.parts, harms]

/-! What is left of a body. -/

/-- What is left of the body names none of the symbols that the removed statements bind. -/
def RemovalsUnused (program : HirProgram) (roots : List HirTreeChild)
    (removals : List (HirStmtId × Removal)) : Prop :=
  ∀ entry ∈ removals, ∀ symbol, program.pats entry.2.pattern = .binding symbol →
    ∀ root ∈ roots, ∀ expr, Below (applyRemovals program removals).parts root (.expr expr) →
      symbol ∉ (applyRemovals program removals).mentions expr

/-- The facts of the expression list what evaluating it can read, and the variables among it. -/
def DependenciesComplete (program : HirProgram) (expr : HirExprId) : Prop :=
  ∃ reads versions, (∃ bound, ∀ fuel ≥ bound, program.dependencies fuel expr = .ok (reads, versions)) ∧
    ∀ symbol, program.CanRead (.expr expr) symbol →
      symbol ∈ reads ∧ (program.isVar symbol = true → symbol ∈ versions)

theorem dependenciesComplete_iff {program : HirProgram} {expr : HirExprId}
    (hends : Acc (fun child parent => child ∈ program.exprChildren parent) expr) :
    DependenciesComplete program expr ↔
      ∀ symbol, program.ReadsOtherwise expr symbol → program.ReadsByPath expr symbol := by
  obtain ⟨reads, versions, ⟨bound, hreturns⟩, hreads, hversions⟩ :=
    HirProgram.dependencies_returns hends
  constructor
  · rintro ⟨reads', versions', ⟨bound', hreturns'⟩, hcomplete⟩ symbol hother
    have hsame := (hreturns (max bound bound') (le_max_left _ _)).symm.trans
      (hreturns' (max bound bound') (le_max_right _ _))
    cases hsame
    exact (hreads symbol).mp (hcomplete symbol (HirProgram.canRead_iff.mpr (.inr hother))).1
  · intro hother
    refine ⟨reads, versions, ⟨bound, hreturns⟩, fun symbol hread => ?_⟩
    have hpath := (HirProgram.canRead_iff.mp hread).elim id (hother symbol)
    exact ⟨(hreads symbol).mpr hpath, fun hvar => (hversions symbol).mpr ⟨hpath, hvar⟩⟩

section
variable {program : HirProgram} {legality : AgentEffectLegalityFacts} {n : ℕ}
  {expressions : List HirExprId} {roots : List HirTreeChild} {blocks : List HirBlockId}
  {found removals : List (HirStmtId × Removal)}

theorem Removable.otherMentions {stmt : HirStmtId} {pat : HirPatId} {symbol : SymbolId}
    {tree : List HirExprId} (h : Removable program legality n stmt pat symbol tree) {expr : HirExprId}
    (hexpr : Below program.parts (.stmt stmt) (.expr expr)) :
    (program.exprs expr).otherMentions = [] := by
  obtain ⟨value, hstmt, hliteral, -⟩ := h.value
  obtain ⟨arg, hliteral⟩ := Option.isSome_iff_exists.mp hliteral
  obtain ⟨callee, text, hvalue, hmarker, harg⟩ := contextLiteral_eq_some hliteral
  obtain ⟨path, found, hcallee, hresolved⟩ : ∃ path found, program.exprs callee = .path path ∧
      path.resolution = .resolved found := by
    unfold HirProgram.calledItemHasMarker at hmarker
    split at hmarker
    · next found hfound =>
      obtain ⟨path, hcallee, hresolved⟩ := program.resolvedPath_eq_some.mp hfound
      exact ⟨path, found, hcallee, hresolved⟩
    · cases hmarker
  have hnodes : ∀ node, Below program.parts (.stmt stmt) node →
      node ∈ [.stmt stmt, .pattern pat, .expr value, .expr callee, .expr arg] := by
    refine fun node hnode => Below.mem_of_closed (fun a ha c hc => ?_) List.mem_cons_self hnode
    simp only [List.mem_cons, List.not_mem_nil, or_false] at ha
    rcases ha with rfl | rfl | rfl | rfl | rfl
    · simp only [HirProgram.parts, hstmt, Hir.HirStmt.children, List.mem_cons, List.not_mem_nil,
        or_false] at hc
      rcases hc with rfl | rfl <;> simp
    · simp [HirProgram.parts, h.binding, Hir.HirPat.children] at hc
    · simp only [HirProgram.parts, hvalue, HirExpr.children, HirExpr.bodies, Hir.HirArg.expr,
        List.map_cons, List.map_nil, List.append_nil, List.mem_cons, List.not_mem_nil,
        or_false] at hc
      rcases hc with rfl | rfl <;> simp
    · simp [HirProgram.parts, hcallee, HirExpr.children, HirExpr.bodies] at hc
    · simp [HirProgram.parts, harg, HirExpr.children, HirExpr.bodies] at hc
  have hexpr := hnodes _ hexpr
  simp only [List.mem_cons, reduceCtorEq, HirTreeChild.expr.injEq, List.not_mem_nil, or_false,
    false_or] at hexpr
  rcases hexpr with rfl | rfl | rfl
  · rw [hvalue]
    rfl
  · rw [hcallee]
    simp only [HirExpr.otherMentions, hresolved]
  · rw [harg]
    rfl

theorem below_applyRemovals (removals : List (HirStmtId × Removal)) {root node : HirTreeChild}
    (h : Below program.parts root node) :
    Below (applyRemovals program removals).parts root node ∨
      ∃ entry ∈ removals, Below program.parts (.stmt entry.1) node := by
  induction h with
  | refl => exact .inl .refl
  | @tail node part _ hc ih =>
    rcases ih with hleft | ⟨entry, hentry, hbelow⟩
    · by_cases hremoved : ∃ stmt ∈ removals.map Prod.fst, part = .stmt stmt
      · obtain ⟨stmt, hstmt, rfl⟩ := hremoved
        obtain ⟨entry, hentry, rfl⟩ := List.mem_map.mp hstmt
        exact .inr ⟨entry, hentry, .refl⟩
      · refine .inl (hleft.tail ((applyRemovals_parts program removals _ _).mpr ⟨hc, ?_⟩))
        exact fun _ stmt hstmt heq => hremoved ⟨stmt, hstmt, heq⟩
    · exact .inr ⟨entry, hentry, hbelow.tail hc⟩

/-- The bindings that are removed are unused exactly when no member path, no reflection and no
shorthand field names a context that no path refers to. -/
theorem removalsUnused_iff
    (hbody : ∀ expr, (∃ root ∈ roots, Below program.parts root (.expr expr)) ↔
      expr ∈ expressions ∧ expr ∉ program.optimizedOutExprs)
    (hfound : findRemovals program legality n expressions blocks = .ok found)
    (hremovals : ∀ entry, entry ∈ removals ↔ entry ∈ found) :
    RemovalsUnused program roots removals ↔
      ∀ block ∈ blocks, ∀ stmt ∈ (program.blocks block).stmts, ∀ pat symbol tree,
        Removable program legality n stmt pat symbol tree →
        (∀ root ∈ roots, ∀ expr, Below program.parts root (.expr expr) →
          program.resolvedPath expr ≠ some symbol) →
        ∀ root ∈ roots, ∀ expr, Below program.parts root (.expr expr) →
          symbol ∉ (program.exprs expr).otherMentions := by
  obtain ⟨hexprs, -⟩ := applyRemovals_frame program removals
  have hmentions (expr : HirExprId) (symbol : SymbolId) :
      symbol ∈ (applyRemovals program removals).mentions expr ↔
        program.resolvedPath expr = some symbol ∨ symbol ∈ (program.exprs expr).otherMentions := by
    rw [HirProgram.mem_mentions, HirProgram.resolvedPath, hexprs]
    rfl
  have hused (symbol : SymbolId) : symbol ∉ usedSymbols program expressions ↔
      ∀ root ∈ roots, ∀ expr, Below program.parts root (.expr expr) →
        program.resolvedPath expr ≠ some symbol := by
    simp only [usedSymbols, List.mem_filterMap, List.mem_filter, decide_eq_true_eq, not_exists,
      not_and]
    exact ⟨fun h root hroot expr hexpr => h expr ((hbody expr).mp ⟨root, hroot, hexpr⟩),
      fun h expr hexpr => by
        obtain ⟨root, hroot, hbelow⟩ := (hbody expr).mpr hexpr
        exact h root hroot expr hbelow⟩
  constructor
  · intro h block hblock stmt hstmt pat symbol tree hremovable hpaths root hroot expr hexpr hmention
    have hentry : (stmt, ⟨pat, tree⟩) ∈ removals := by
      rw [hremovals, findRemovals_mem hfound]
      exact ⟨block, hblock, stmt, hstmt, findRemoval_eq_some.mpr
        ⟨rfl, symbol, hremovable, (hused symbol).mpr hpaths⟩⟩
    rcases below_applyRemovals removals hexpr with hleft | ⟨entry, hentry', hbelow⟩
    · exact h _ hentry symbol hremovable.binding root hroot expr hleft
        ((hmentions expr symbol).mpr (.inr hmention))
    · rw [hremovals, findRemovals_mem hfound] at hentry'
      obtain ⟨_, _, stmt', _, hfound'⟩ := hentry'
      obtain ⟨rfl, symbol', hremovable', -⟩ := findRemoval_eq_some.mp hfound'
      rw [hremovable'.otherMentions hbelow] at hmention
      cases hmention
  · intro h entry hentry symbol hbinding root hroot expr hexpr hmention
    rw [hremovals, findRemovals_mem hfound] at hentry
    obtain ⟨block, hblock, stmt, hstmt, hfound'⟩ := hentry
    obtain ⟨rfl, symbol', hremovable, hunused⟩ := findRemoval_eq_some.mp hfound'
    have hsymbol := hbinding.symm.trans hremovable.binding
    cases hsymbol
    have hpaths := (hused symbol).mp hunused
    have hbelow : Below program.parts root (.expr expr) :=
      hexpr.mono fun node part hpart => ((applyRemovals_parts program removals node part).mp hpart).1
    rcases (hmentions expr symbol).mp hmention with hpath | hother
    · exact hpaths root hroot expr hbelow hpath
    · exact h block hblock _ hstmt _ symbol _ hremovable hpaths root hroot expr hbelow hother

/-- The pass and the facts see every use exactly when contexts are used by paths of their own only,
and what an expression reads otherwise it also reads by such a path, along expression children. -/
theorem pruneUnusedQualityContext_agrees_iff
    (hends : ∀ root ∈ roots, Acc (fun child parent => child ∈ program.parts parent) root)
    (hbody : ∀ expr, (∃ root ∈ roots, Below program.parts root (.expr expr)) ↔
      expr ∈ expressions ∧ expr ∉ program.optimizedOutExprs)
    (hfound : findRemovals program legality n expressions blocks = .ok found)
    (hremovals : ∀ entry, entry ∈ removals ↔ entry ∈ found) :
    (RemovalsUnused program roots removals ∧
      ∀ root ∈ roots, ∀ expr, Below program.parts root (.expr expr) →
        DependenciesComplete program expr) ↔
    (∀ block ∈ blocks, ∀ stmt ∈ (program.blocks block).stmts, ∀ pat symbol tree,
        Removable program legality n stmt pat symbol tree →
        (∀ root ∈ roots, ∀ expr, Below program.parts root (.expr expr) →
          program.resolvedPath expr ≠ some symbol) →
        ∀ root ∈ roots, ∀ expr, Below program.parts root (.expr expr) →
          symbol ∉ (program.exprs expr).otherMentions) ∧
      ∀ root ∈ roots, ∀ expr, Below program.parts root (.expr expr) →
        ∀ symbol, program.ReadsOtherwise expr symbol → program.ReadsByPath expr symbol := by
  refine and_congr (removalsUnused_iff hbody hfound hremovals) ?_
  refine forall₄_congr fun root hroot expr hexpr => dependenciesComplete_iff ?_
  exact HirProgram.acc_exprChildren (hexpr.acc (hends root hroot))

end

/-- `let ctx = quality("notes");` before the given expression, where `quality` is marked. -/
def contextProgram (final : HirExpr) : HirProgram :=
  { HirProgram.empty with
    exprs := fun
      | 0 => .call 1 [] [.positional 2]
      | 1 => .path ⟨["quality"], .resolved 1, ⟨0, 0, 0⟩⟩
      | 2 => .literal (.string "notes")
      | 3 => final
      | 4 => .array [5]
      | 5 => .path ⟨["QualityContext"], .resolved 2, ⟨0, 0, 0⟩⟩
      | _ => .error
    stmts := fun
      | 0 => .let 0 0
      | _ => .error
    pats := fun
      | 0 => .binding 0
      | _ => .error
    blocks := fun
      | 0 => ⟨[0], some 3, 0⟩
      | _ => ⟨[], none, 0⟩
    itemAnnotations := fun
      | 0 => [⟨["optimization"], [4]⟩]
      | _ => []
    symbols := fun
      | 0 => some ⟨"ctx", .local, .local 0⟩
      | 1 => some ⟨"quality", .flow, .item 0⟩
      | 2 => some ⟨"QualityContext", .flow, .item 1⟩
      | _ => none }

theorem pruneUnusedQualityContext_agrees_unused :
    ∃ removals, findRemovals (contextProgram (.literal (.int "1"))) allMovable 4 [0, 1, 2, 3] [0] =
        .ok removals ∧ removals.length = 1 ∧
      RemovalsUnused (contextProgram (.literal (.int "1"))) [.block 0] removals ∧
      ∀ root ∈ [HirTreeChild.block 0], ∀ expr,
        Below (contextProgram (.literal (.int "1"))).parts root (.expr expr) →
          DependenciesComplete (contextProgram (.literal (.int "1"))) expr := by
  have hdepth : (contextProgram (.literal (.int "1"))).depthAtMost 4 (.block 0) = true := by decide
  have hclosed : ∀ a ∈ [HirTreeChild.block 0, .stmt 0, .pattern 0, .expr 0, .expr 1, .expr 2,
      .expr 3], ∀ c ∈ (contextProgram (.literal (.int "1"))).parts a,
        c ∈ [HirTreeChild.block 0, .stmt 0, .pattern 0, .expr 0, .expr 1, .expr 2, .expr 3] := by
    decide
  have hexprs : ∀ e ∈ [0, 1, 2, 3],
      (∀ c ∈ (contextProgram (.literal (.int "1"))).exprChildren e, c ∈ [0, 1, 2, 3]) ∧
        ((contextProgram (.literal (.int "1"))).exprs e).otherMentions = [] ∧
        (contextProgram (.literal (.int "1"))).otherParts e = [] := by
    decide
  have hbelow {expr : HirExprId}
      (h : Below (contextProgram (.literal (.int "1"))).parts (.block 0) (.expr expr)) :
      expr ∈ [0, 1, 2, 3] := by
    simpa using Below.mem_of_closed hclosed List.mem_cons_self h
  have hbody : ∀ expr, (∃ root ∈ [HirTreeChild.block 0],
      Below (contextProgram (.literal (.int "1"))).parts root (.expr expr)) ↔
        expr ∈ [0, 1, 2, 3] ∧ expr ∉ (contextProgram (.literal (.int "1"))).optimizedOutExprs := by
    intro expr
    constructor
    · rintro ⟨root, hroot, h⟩
      rw [List.mem_singleton.mp hroot] at h
      exact ⟨hbelow h, Finset.notMem_empty _⟩
    · rintro ⟨hexpr, -⟩
      have hvalue : Below (contextProgram (.literal (.int "1"))).parts (.block 0) (.expr 0) :=
        .head (b := .stmt 0) (by decide) (.single (by decide))
      refine ⟨_, List.mem_cons_self, ?_⟩
      simp only [List.mem_cons, List.not_mem_nil, or_false] at hexpr
      rcases hexpr with rfl | rfl | rfl | rfl
      · exact hvalue
      · exact hvalue.tail (by decide)
      · exact hvalue.tail (by decide)
      · exact .single (by decide)
  have hfound : findRemovals (contextProgram (.literal (.int "1"))) allMovable 4 [0, 1, 2, 3] [0] =
      .ok [(0, ⟨0, [0, 2, 1]⟩)] := rfl
  refine ⟨_, hfound, rfl, ?_⟩
  refine (pruneUnusedQualityContext_agrees_iff
    (List.forall_mem_singleton.mpr (HirProgram.acc_of_depthAtMost hdepth)) hbody hfound
    fun _ => Iff.rfl).mpr ⟨?_, ?_⟩
  · intro _ _ _ _ _ symbol _ _ _ root hroot expr hexpr
    rw [List.mem_singleton.mp hroot] at hexpr
    rw [(hexprs expr (hbelow hexpr)).2.1]
    exact List.not_mem_nil
  · rintro root hroot expr hexpr symbol ⟨e, he, hother⟩
    rw [List.mem_singleton.mp hroot] at hexpr
    have hmem := Below.mem_of_closed (fun a ha => (hexprs a ha).1) (hbelow hexpr) he
    rw [(hexprs e hmem).2.1, (hexprs e hmem).2.2] at hother
    simp at hother

/-- The binding is removed although the expression after it uses it, and has no fact that says so. -/
def Misses (final : HirExpr) : Prop :=
  ∃ removals, findRemovals (contextProgram final) allMovable 4 [0, 1, 2, 3] [0] = .ok removals ∧
    ¬ RemovalsUnused (contextProgram final) [.block 0] removals ∧
    ¬ DependenciesComplete (contextProgram final) 3

/-- So it is with a shorthand field and with a member path. -/
theorem pruneUnusedQualityContext_misses :
    Misses (.record none [] [.shorthand "ctx" (.resolved 0)]) ∧
      Misses (.path ⟨["ctx", "text"], .partiallyResolved
        ⟨some 0, 1, ["text"], .memberRequiresTypeChecking⟩, ⟨0, 0, 0⟩⟩) := by
  have hmisses (final : HirExpr)
      (hkept : .expr 3 ∈ (applyRemovals (contextProgram final) [(0, ⟨0, [0, 2, 1]⟩)]).parts (.block 0))
      (hmention : 0 ∈ (contextProgram final).mentions 3)
      (hchildren : (contextProgram final).exprChildren 3 = [])
      (hpath : (contextProgram final).resolvedPath 3 = none)
      (hfound : findRemovals (contextProgram final) allMovable 4 [0, 1, 2, 3] [0] =
        .ok [(0, ⟨0, [0, 2, 1]⟩)]) :
      Misses final := by
    refine ⟨_, hfound, fun hunused => ?_, ?_⟩
    · exact hunused _ List.mem_cons_self 0 rfl _ List.mem_cons_self 3 (.single hkept) hmention
    · rintro ⟨reads, versions, ⟨bound, hreturns⟩, hcomplete⟩
      have hnone : (contextProgram final).dependencies (bound + 1) 3 = .ok (∅, ∅) := by
        change walk _ _ _ bound (((contextProgram final).exprChildren 3).reverse ++ [])
          ((contextProgram final).dependencyVisit (∅, ∅) 3) = _
        rw [hchildren, HirProgram.dependencyVisit, hpath]
        exact walk_nil bound _
      have hsame := hnone.symm.trans (hreturns (bound + 1) (Nat.le_succ bound))
      cases hsame
      exact Finset.notMem_empty 0 (hcomplete 0 ⟨3, .refl, hmention⟩).1
  exact ⟨hmisses _ (by decide) (by decide) rfl rfl rfl,
    hmisses _ (by decide) (by decide) rfl rfl rfl⟩

end EtasFrontend.Optimization
