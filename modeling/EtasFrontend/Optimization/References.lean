import EtasFrontend.Lib.TreeSearch
import EtasFrontend.Optimization.Meaning

/-! Which symbols an expression can read, and which of them the legality pass collects. -/
namespace EtasFrontend.Optimization
open Hir (HirExprId HirStmtId SymbolId ResolveResult HirReflectTarget HirFieldInit
  HirTreeChild Halt)
open Lib

/-- The symbol that a path starts with, also when its other segments are members. -/
def rootSymbol : ResolveResult → Option SymbolId
  | .resolved symbol => some symbol
  | .partiallyResolved resolution => resolution.resolvedPrefix
  | _ => none

/-- The symbols that an expression names otherwise than by a path of their own: by a path to one of
their members, by a reflection or by the shorthand field of a record. -/
def HirExpr.otherMentions : HirExpr → List SymbolId
  | .path reference =>
    match reference.resolution with
    | .resolved _ => []
    | resolution => (rootSymbol resolution).toList
  | .reflect (.path target) => (rootSymbol target.resolution).toList
  | .reflect (.specMethod receiver _ _) => (rootSymbol receiver.resolution).toList
  | .record _ _ fields => fields.filterMap fun
    | .shorthand _ resolution => rootSymbol resolution
    | .named _ _ => none
  | _ => []

namespace HirProgram
variable (program : HirProgram)

/-- The symbols that an expression names, its children apart. -/
def mentions (expr : HirExprId) : List SymbolId :=
  (program.resolvedPath expr).toList ++ (program.exprs expr).otherMentions

def exprChildren (expr : HirExprId) : List HirExprId :=
  (program.exprs expr).children.filterMap fun
    | .expr child => some child
    | _ => none

/-- The parts of an expression that are no expression children of it: its blocks, handler arms and
patterns, and what it keeps in bodies of their own. -/
def otherParts (expr : HirExprId) : List HirTreeChild :=
  (program.exprs expr).children.filter (fun
    | .expr _ => false
    | _ => true) ++ (program.exprs expr).bodies

/-- The parts that are read when a node is evaluated: all but a variable that is assigned. -/
def readParts : HirTreeChild → List HirTreeChild
  | .stmt stmt =>
    match program.stmts stmt with
    | .assign target value =>
      if (program.resolvedPath target).isSome then [.expr value] else [.expr target, .expr value]
    | data => data.children
  | node => program.parts node

/-- Evaluating the node can read the value of the symbol. -/
def CanRead (node : HirTreeChild) (symbol : SymbolId) : Prop :=
  ∃ expr, Below program.readParts node (.expr expr) ∧ symbol ∈ program.mentions expr

def dependencyVisit (s : Finset SymbolId × Finset SymbolId) (expr : HirExprId) :
    Finset SymbolId × Finset SymbolId :=
  match program.resolvedPath expr with
  | some symbol => (insert symbol s.1, if program.isVar symbol then insert symbol s.2 else s.2)
  | none => s

/-- What an expression reads, and the variables among it. -/
def dependencies (fuel : ℕ) (root : HirExprId) : Except Halt (Finset SymbolId × Finset SymbolId) :=
  walk (fun expr => .ok (program.exprChildren expr).reverse) program.dependencyVisit .outOfFuel fuel
    [root] (∅, ∅)

/-- A path below the expression, along expression children, is the symbol's own. -/
def ReadsByPath (root : HirExprId) (symbol : SymbolId) : Prop :=
  ∃ expr, Below program.exprChildren root expr ∧ program.resolvedPath expr = some symbol

/-- The symbol is named otherwise, or in a part that is no expression child. -/
def ReadsOtherwise (root : HirExprId) (symbol : SymbolId) : Prop :=
  ∃ expr, Below program.exprChildren root expr ∧
    (symbol ∈ (program.exprs expr).otherMentions ∨
      ∃ part ∈ program.otherParts expr, program.CanRead part symbol)

variable {program}

theorem mem_mentions {expr : HirExprId} {symbol : SymbolId} :
    symbol ∈ program.mentions expr ↔
      program.resolvedPath expr = some symbol ∨ symbol ∈ (program.exprs expr).otherMentions := by
  rw [mentions, List.mem_append, Option.mem_toList]

theorem mem_parts_expr {expr : HirExprId} {part : HirTreeChild} :
    part ∈ program.parts (.expr expr) ↔
      (∃ child ∈ program.exprChildren expr, part = .expr child) ∨ part ∈ program.otherParts expr := by
  simp only [parts, exprChildren, otherParts, List.mem_append, List.mem_filterMap, List.mem_filter]
  constructor
  · rintro (h | h)
    · cases part with
      | expr child => exact .inl ⟨child, ⟨_, h, rfl⟩, rfl⟩
      | block | stmt | handlerArm | pattern => exact .inr (.inl ⟨h, rfl⟩)
    · exact .inr (.inr h)
  · rintro (⟨child, ⟨part', h, hpart⟩, rfl⟩ | ⟨h, -⟩ | h)
    · cases part' <;> cases hpart
      exact .inl h
    · exact .inl h
    · exact .inr h

variable {root : HirExprId}

theorem canRead_iff {symbol : SymbolId} :
    program.CanRead (.expr root) symbol ↔
      program.ReadsByPath root symbol ∨ program.ReadsOtherwise root symbol := by
  have hbelow {root expr : HirExprId} (h : Below program.exprChildren root expr) :
      Below program.readParts (.expr root) (.expr expr) := by
    induction h with
    | refl => exact .refl
    | tail _ hc ih => exact ih.tail (mem_parts_expr.mpr (.inl ⟨_, hc, rfl⟩))
  constructor
  · rintro ⟨expr, h, hmention⟩
    generalize hstart : HirTreeChild.expr root = start at h
    induction h using Relation.ReflTransGen.head_induction_on generalizing root with
    | refl =>
      cases hstart
      rcases mem_mentions.mp hmention with hpath | hother
      · exact .inl ⟨_, .refl, hpath⟩
      · exact .inr ⟨_, .refl, .inl hother⟩
    | @head a c hc hrest ih =>
      subst hstart
      rcases mem_parts_expr.mp hc with ⟨child, hchild, rfl⟩ | hother
      · rcases ih rfl with ⟨e, he, hpath⟩ | ⟨e, he, hread⟩
        · exact .inl ⟨e, .head hchild he, hpath⟩
        · exact .inr ⟨e, .head hchild he, hread⟩
      · exact .inr ⟨root, .refl, .inr ⟨c, hother, expr, hrest, hmention⟩⟩
  · rintro (⟨expr, h, hpath⟩ | ⟨expr, h, hother | ⟨part, hpart, e, he, hmention⟩⟩)
    · exact ⟨expr, hbelow h, mem_mentions.mpr (.inl hpath)⟩
    · exact ⟨expr, hbelow h, mem_mentions.mpr (.inr hother)⟩
    · exact ⟨e, ((hbelow h).tail (mem_parts_expr.mpr (.inr hpart))).trans he, hmention⟩

theorem foldl_dependencyVisit (visited : List HirExprId) (s : Finset SymbolId × Finset SymbolId)
    (symbol : SymbolId) :
    (symbol ∈ (visited.foldl program.dependencyVisit s).1 ↔
      symbol ∈ s.1 ∨ ∃ e ∈ visited, program.resolvedPath e = some symbol) ∧
    (symbol ∈ (visited.foldl program.dependencyVisit s).2 ↔
      symbol ∈ s.2 ∨ (∃ e ∈ visited, program.resolvedPath e = some symbol) ∧
        program.isVar symbol = true) := by
  induction visited generalizing s with
  | nil => simp
  | cons e visited ih =>
    rw [List.foldl_cons]
    obtain ⟨hreads, hversions⟩ := ih (program.dependencyVisit s e)
    rw [hreads, hversions]
    cases hpath : program.resolvedPath e with
    | none => simp [dependencyVisit, hpath]
    | some found =>
      constructor
      · simp only [dependencyVisit, hpath, Finset.mem_insert, List.mem_cons, exists_eq_or_imp,
          Option.some.injEq]
        grind
      · simp only [dependencyVisit, hpath, List.mem_cons, exists_eq_or_imp, Option.some.injEq]
        split
        · simp only [Finset.mem_insert]
          grind
        · grind

theorem acc_exprChildren (h : Acc (fun child parent => child ∈ program.parts parent) (.expr root)) :
    Acc (fun child parent => child ∈ program.exprChildren parent) root := by
  generalize hstart : HirTreeChild.expr root = start at h
  induction h generalizing root with
  | intro start _ ih =>
    subst hstart
    exact .intro root fun child hc => ih (.expr child) (mem_parts_expr.mpr (.inl ⟨child, hc, rfl⟩)) rfl

/-- The collector returns on every finite tree, with the paths along expression children. -/
theorem dependencies_returns
    (hends : Acc (fun child parent => child ∈ program.exprChildren parent) root) :
    ∃ reads versions, (∃ bound, ∀ fuel ≥ bound,
        program.dependencies fuel root = .ok (reads, versions)) ∧
      (∀ symbol, symbol ∈ reads ↔ program.ReadsByPath root symbol) ∧
      ∀ symbol, symbol ∈ versions ↔
        program.ReadsByPath root symbol ∧ program.isVar symbol = true := by
  have hacc : Acc (fun child parent => child ∈ (program.exprChildren parent).reverse) root := by
    simpa only [List.mem_reverse] using hends
  obtain ⟨visited, hwalk, hvisited⟩ : ∃ visited,
      WalkVisits (fun expr => .ok (program.exprChildren expr).reverse) program.dependencyVisit
        Halt.outOfFuel [root] visited ∧
      ∀ b, b ∈ visited ↔ Below (fun expr => (program.exprChildren expr).reverse) root b :=
    walk_visits program.dependencyVisit Halt.outOfFuel hacc fun _ _ => rfl
  have hbelow (e : HirExprId) : e ∈ visited ↔ Below program.exprChildren root e := by
    rw [hvisited, Below, Below]
    simp only [List.mem_reverse]
  refine ⟨_, _, ⟨visited.length, fun fuel hfuel => hwalk.returns (∅, ∅) hfuel⟩,
    fun symbol => ?_, fun symbol => ?_⟩
  · rw [(foldl_dependencyVisit visited _ symbol).1]
    simp [ReadsByPath, hbelow]
  · rw [(foldl_dependencyVisit visited _ symbol).2]
    simp [ReadsByPath, hbelow]

end HirProgram
end EtasFrontend.Optimization
