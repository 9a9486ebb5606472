import EtasFrontend.Hir.TreeWalk
import EtasFrontend.Hir.TreeView
import EtasFrontend.Lib.Fallible
import Mathlib.Algebra.GroupWithZero.Nat
import Mathlib.Data.Prod.Lex

/-! When the index builder returns, and what its last check sees. -/
namespace EtasFrontend.Hir
open Lib

/-! What a program lists. -/

namespace HirProgram
variable (program : HirProgram)

/-- An item that a listed module lists. -/
def InModule (item : HirItemId) : Prop :=
  ∃ module ∈ program.modules, ∃ data, program.modulesArena[module]? = some data ∧
    item ∈ data.items

/-- Where an item is listed: at a module, or at an impl of a module. -/
inductive ItemAt : HirItemId → HirOwner × ℕ → Prop where
  | module {module : HirModuleId} {data : HirModule} {position : ℕ} {item : HirItemId} :
    module ∈ program.modules → program.modulesArena[module]? = some data →
    data.items[position]? = some item → ItemAt item (.module module, position)
  | impl {impl : HirItemId} {items : List HirImplItem} {scope : ScopeId} {position : ℕ}
    {item : HirItemId} : program.InModule impl → program.items[impl]? = some (.impl items scope) →
    items[position]? = some (.callable item) → ItemAt item (.item impl, position)

def annotationArgs (item : HirItemId) : List (ℕ × ℕ × HirExprId) :=
  ((program.itemAnnotations.get item).getD []).zipIdx.flatMap fun ( annotation, position) =>
    annotation.args.zipIdx.map fun (value, number) => (position, number, value)

def annotationRoots (item : HirItemId) : List (HirOwner × HirTreeChild) :=
  (program.annotationArgs item).map fun arg =>
    (.body ⟨item, .annotationArg arg.1 arg.2.1⟩, .expr arg.2.2)

def implItemRoots (item : HirItemId) (position : ℕ) :
    HirImplItem → List (HirOwner × HirTreeChild)
  | .callable callable =>
    match program.items[callable]? with
    | some (.flow decl) =>
      (.body ⟨item, .implFlow position⟩, .block decl.body.blockId) ::
        program.annotationRoots callable
    | _ => []
  | .flow decl => [(.body ⟨item, .implFlow position⟩, .block decl.body.blockId)]
  | .action | .error => []

def bodyRoots (item : HirItemId) : HirItem → List (HirOwner × HirTreeChild)
  | .flow decl => [(.body ⟨item, .flow⟩, .block decl.body.blockId)]
  | .tool (.source body) _ => [(.body ⟨item, .tool⟩, .block body.blockId)]
  | .agent (.source block) _ => [(.body ⟨item, .agent⟩, .block block)]
  | .topLevelLet value => [(.body ⟨item, .topLevelLet⟩, .expr value)]
  | .impl items _ => items.zipIdx.flatMap fun (implItem, position) =>
    program.implItemRoots item position implItem
  | _ => []

def itemRoots (item : HirItemId) : List (HirOwner × HirTreeChild) :=
  match program.items[item]? with
  | none => []
  | some data => program.bodyRoots item data ++ program.annotationRoots item

/-- What the bodies of a listed item start with. -/
def Root (root : HirOwner × HirTreeChild) : Prop :=
  ∃ item, program.InModule item ∧ root ∈ program.itemRoots item

/-- What the bodies of the listed items hold. -/
inductive Reached : HirTreeChild → Prop where
  | root {root : HirOwner × HirTreeChild} : program.Root root → Reached root.2
  | step {node : HirTreeChild} {entry : Option HirBodyKind × HirTreeChild} : Reached node →
    entry ∈ program.entries node → Reached entry.2

/-- Where a node is listed: in the body of an item, or at a reached node. -/
inductive NodeAt : HirTreeChild → HirOwner ⊕ HirTreeChild × ℕ → Prop where
  | root {root : HirOwner × HirTreeChild} : program.Root root → NodeAt root.2 (.inl root.1)
  | child {parent node : HirTreeChild} {kind : Option HirBodyKind} {position : ℕ} :
    program.Reached parent → (program.entries parent)[position]? = some (kind, node) →
    NodeAt node (.inr (parent, position))

/-- No owner lists anything twice. -/
structure WellListed : Prop where
  modules : program.modules.Nodup
  items : ∀ module ∈ program.modules, ∀ data, program.modulesArena[module]? = some data →
    data.items.Nodup
  children : ∀ node, program.Reached node → (program.entries node).Nodup

def optimizedOut : HirTreeChild → Bool
  | .expr expr => program.optimizedOutExprs.contains expr
  | .block block => program.optimizedOutBlocks.contains block
  | .stmt stmt => program.optimizedOutStatements.contains stmt
  | .handlerArm _ => false
  | .pattern pat => program.optimizedOutPatterns.contains pat

end HirProgram

def HirTreeIndex.owner? (index : HirTreeIndex) : HirTreeChild → Option HirOwner :=
  HirTreeIndexBuilder.owner? ⟨index, []⟩

/-- A node lists in the name of the recorded owner of another one. -/
def HirTreeIndex.Owns (index : HirTreeIndex) (parent node : HirTreeChild) : Prop :=
  ∃ owner, index.owner? node = some owner ∧ owner.anchor = some parent

/-- Everything is reached, and at one position; the recorded owners form a forest. -/
structure IndexesTree (program : HirProgram) (index : HirTreeIndex) : Prop where
  module_listed : ∀ module < program.modulesArena.length, module ∈ program.modules
  module_once : program.modules.Nodup
  item_listed : ∀ item < program.items.length, ∃ position, program.ItemAt item position
  item_once : ∀ {item p q}, program.ItemAt item p → program.ItemAt item q → p = q
  node_reached : ∀ node ∈ program.nodes, program.optimizedOut node = false → program.Reached node
  node_once : ∀ {node p q}, program.NodeAt node p → program.NodeAt node q → p = q
  owner_of_parent : ∀ {node parent position}, program.NodeAt node (.inr (parent, position)) →
    ∃ owner, index.owner? node = some owner ∧ owner.anchor = some parent
  forest : WellFounded index.Owns
  enclosing_scope : ∀ node, ∃ bound, ∀ fuel ≥ bound, ∃ scope,
    index.enclosingScope program fuel node = .ok scope

namespace HirTreeIndexBuilder

/-- The builder before the first module. -/
def start : HirTreeIndexBuilder := ⟨.empty, []⟩

/-! Builds that never meet a node under the owner that it has already. -/

section
variable (program : HirProgram) (builder : HirTreeIndexBuilder)

/-- No node of the call has its owner already, and the owners above a limit end. -/
def Fresh : IndexCall → Prop
  | .stageLimit _ _ exprOwner _ =>
    ∃ fuel scope, builder.scopeForIndexOwner program fuel exprOwner = .ok scope
  | call => ∀ visit ∈ call.visits, program.has visit.2 = true →
    builder.owner? visit.2 ≠ some visit.1

/-- So are the first calls of a run, as many as there are steps. -/
def SafeRun (item : HirItemId) : ℕ → List IndexCall → HirTreeIndexBuilder → Prop
  | steps + 1, call :: calls, builder => builder.Fresh program call ∧
    ∀ fuel result, builder.perform program item fuel call = .ok result →
      SafeRun item steps (result.2 ++ calls) result.1
  | _, _, _ => True

def rootCall (body : HirBodyRef) : HirBodyTarget → IndexCall
  | .expr expr => .expr expr (.body body)
  | .block block => .block block (.body body)

def SafeBody (item : HirItemId) (body : HirBodyRef) (owner : HirOwner) (scope : Option ScopeId)
    (target : HirBodyTarget) : Prop :=
  ∀ steps, SafeRun program item steps [rootCall body target]
    (builder.insertBody program item body owner scope)

/-- A loop, each step from where the ones before it lead. -/
def SafeLoop {ι : Type} (step : ℕ → HirTreeIndexBuilder → ι → Except Halt HirTreeIndexBuilder)
    (safe : HirTreeIndexBuilder → ι → Prop) : List ι → HirTreeIndexBuilder → Prop
  | [], _ => True
  | x :: l, builder => safe builder x ∧
    ∀ fuel next, step fuel builder x = .ok next → SafeLoop step safe l next

def SafeItemAnnotations (item : HirItemId) (scope : Option ScopeId) : Prop :=
  SafeLoop (fun fuel builder (position, number, value) =>
      let body : HirBodyRef := ⟨item, .annotationArg position number⟩
      (builder.insertBody program item body (.item item) scope).indexRootExpr program fuel value
        body item)
    (fun builder (position, number, value) => builder.SafeBody program item
      ⟨item, .annotationArg position number⟩ (.item item) scope (.expr value))
    (program.annotationArgs item) builder

/-- The callable is there too. -/
def SafeCallable (item : HirItemId) (position : ℕ) (callable : HirItemId) : Prop :=
  callable < program.items.length ∧ ∀ decl module, program.items[callable]? = some (.flow decl) →
    builder.index.itemModule.get item = some module →
    let noted : HirTreeIndexBuilder := { builder with index := { builder.index with
      itemChildren := pushEntry builder.index.itemChildren item callable } }
    let entered := (noted.insertItemModule program callable module).1.insertScopeOwner program
      (.item callable) decl.scope
    let body : HirBodyRef := ⟨item, .implFlow position⟩
    entered.SafeBody program callable body (.item callable) (some decl.scope)
        (.block decl.body.blockId) ∧
      ∀ fuel next, (entered.insertBody program callable body (.item callable)
        (some decl.scope)).indexFlowBody program fuel decl.body body callable = .ok next →
        next.SafeItemAnnotations program callable (some decl.scope)

def SafeImplItem (item : HirItemId) (position : ℕ) : HirImplItem → Prop
  | .callable callable => builder.SafeCallable program item position callable
  | .flow decl => builder.SafeBody program item ⟨item, .implFlow position⟩ (.item item)
    (some decl.scope) (.block decl.body.blockId)
  | .action | .error => True

def SafeItemBody (item : HirItemId) : HirItem → Prop
  | .flow decl => builder.SafeBody program item ⟨item, .flow⟩ (.item item) (some decl.scope)
    (.block decl.body.blockId)
  | .tool (.source body) scope => builder.SafeBody program item ⟨item, .tool⟩ (.item item)
    (some scope) (.block body.blockId)
  | .agent (.source block) scope => builder.SafeBody program item ⟨item, .agent⟩ (.item item)
    (some scope) (.block block)
  | .topLevelLet value => builder.SafeBody program item ⟨item, .topLevelLet⟩ (.item item) none
    (.expr value)
  | .impl items _ => SafeLoop
    (fun fuel builder (implItem, position) => builder.indexImplItem program fuel item position
      implItem)
    (fun builder (implItem, position) => builder.SafeImplItem program item position implItem)
    items.zipIdx builder
  | _ => True

def SafeItem (item : HirItemId) : Prop :=
  ∀ data, program.items[item]? = some data →
    let entered := match data.scope with
      | some scope => builder.insertScopeOwner program (.item item) scope
      | none => builder
    entered.SafeItemBody program item data ∧
      ∀ fuel next, entered.indexItemBody program fuel item data = .ok next →
        next.SafeItemAnnotations program item data.scope

/-- The module lists no item that is there twice. -/
def SafeModule (module : HirModuleId) : Prop :=
  ∀ data, program.modulesArena[module]? = some data →
    (data.items.filter (· < program.items.length)).Nodup ∧
      let entered := builder.insertScopeOwner program (.module module) data.scope
      let noted : HirTreeIndexBuilder := { entered with index := { entered.index with
        moduleItems := entered.index.moduleItems.insert module data.items } }
      SafeLoop (fun fuel builder item => builder.indexModuleItem program fuel module item)
        (fun builder item => (builder.insertItemModule program item module).2 = true →
          (builder.insertItemModule program item module).1.SafeItem program item)
        data.items noted

/-- No module that is there is listed twice. -/
def Safe : Prop :=
  (program.modules.filter (· < program.modulesArena.length)).Nodup ∧
    SafeLoop (fun fuel builder module => builder.indexModule program fuel module)
      (fun builder module => builder.SafeModule program module) program.modules
      (start.indexScopes program)

end

variable {program : HirProgram} {builder builder' : HirTreeIndexBuilder}
variable {item : HirItemId} {owner : HirOwner} {fuel : ℕ}

/-- A bound on the calls that are made in the place of a call before the next visit is done. -/
def IndexCall.weight : IndexCall → ℕ
  | .body _ _ _ _ => 3
  | _ => 1

theorem IndexCall.weight_pos (call : IndexCall) : 0 < call.weight := by
  cases call <;> simp [weight]

/-- What a call comes to: it visits a node, or it enters a body. -/
inductive Performed (program : HirProgram) (item : HirItemId) (builder : HirTreeIndexBuilder)
    (call : IndexCall) : HirTreeIndexBuilder × List IndexCall → Prop where
  | visit {visit : HirOwner × HirTreeChild} {result : HirTreeIndexBuilder × List IndexCall} :
    call.visits = [visit] → (program.has visit.2 = true → builder.owner? visit.2 ≠ some visit.1) →
    Visited program item builder visit result → Performed program item builder call result
  | enter {builder' : HirTreeIndexBuilder} {made : List IndexCall} : builder.Keeps builder' →
    made.flatMap IndexCall.visits = call.visits →
    (made.map IndexCall.weight).sum < call.weight →
    Performed program item builder call (builder', made)

variable {scope : Option ScopeId}

theorem scopeForIndexOwner_mono {n m : ℕ}
    (h : builder.scopeForIndexOwner program n owner = .ok scope) (hnm : n ≤ m) :
    builder.scopeForIndexOwner program m owner = .ok scope := by
  induction n generalizing m owner with
  | zero => cases h
  | succ n ih =>
    obtain ⟨m, rfl⟩ : ∃ k, m = k + 1 := ⟨m - 1, by omega⟩
    unfold scopeForIndexOwner at h ⊢
    cases hs : (builder.index.scopeByOwner.get owner).bind List.head? with
    | some found => simpa only [hs] using h
    | none =>
      simp only [hs] at h ⊢
      cases owner with
      | stmt st =>
        cases hb : builder.index.stmtBlock.get st with
        | none => simpa only [hb] using h
        | some block =>
          simp only [hb] at h ⊢
          exact ih h (by omega)
      | expr e =>
        cases hb : builder.index.exprOwner.get e with
        | none => simpa only [hb] using h
        | some parent =>
          simp only [hb] at h ⊢
          exact ih h (by omega)
      | pattern pat =>
        cases hb : builder.index.patOwner.get pat with
        | none => simpa only [hb] using h
        | some parent =>
          simp only [hb] at h ⊢
          exact ih h (by omega)
      | module | item | body | block | handlerArm => exact h

theorem enterExpr_keeps (body : HirBodyRef) (owner : HirOwner) (scope : Option ScopeId)
    (expr : HirExprId) :
    builder.Keeps (builder.enterBody program item body owner scope (.expr expr)).1 :=
  (insertBody_keeps item body owner scope).trans (pushBodyExpr_keeps body expr)

variable {call : IndexCall}

theorem perform_returns (h : builder.Fresh program call) :
    ∃ result, ComesTo (fun fuel => builder.perform program item fuel call) result ∧
      Performed program item builder call result := by
  have fresh {visit : HirOwner × HirTreeChild} (hv : call.visits = [visit])
      (h : ∀ visit ∈ call.visits, program.has visit.2 = true →
        builder.owner? visit.2 ≠ some visit.1) :
      program.has visit.2 = true → builder.owner? visit.2 ≠ some visit.1 :=
    h visit (hv ▸ List.mem_singleton_self visit)
  cases call with
  | block block owner => exact ⟨_, .ok _, .visit rfl (fresh rfl h) (visited_indexBlock block owner)⟩
  | stmt stmt block => exact ⟨_, .ok _, .visit rfl (fresh rfl h) (visited_indexStmt stmt block)⟩
  | expr expr owner => exact ⟨_, .ok _, .visit rfl (fresh rfl h) (visited_indexExpr expr owner)⟩
  | pat pat owner => exact ⟨_, .ok _, .visit rfl (fresh rfl h) (visited_indexPat pat owner)⟩
  | handlerArm arm owner =>
    exact ⟨_, .ok _, .visit rfl (fresh rfl h) (visited_indexHandlerArm arm owner)⟩
  | body body owner scope target =>
    refine ⟨_, .ok _, ?_⟩
    cases target with
    | expr expr =>
      exact .enter (enterExpr_keeps body owner _ expr) rfl (by simp [IndexCall.weight])
    | block block =>
      exact .enter (insertBody_keeps item body owner _) rfl (by simp [IndexCall.weight])
  | stageLimit body expr exprOwner limit =>
    obtain ⟨bound, scope, hscope⟩ := h
    refine ⟨builder.enterBody program item body (.expr expr) scope (.expr limit),
      ⟨bound, fun fuel hf => ?_⟩, .enter (enterExpr_keeps body _ scope limit) rfl ?_⟩
    · simp only [perform, scopeForIndexOwner_mono hscope hf]
      rfl
    · exact IndexCall.weight_pos _
  | bodyBlock body block =>
    exact ⟨_, .ok _, .enter (pushBodyBlock_keeps body block) rfl (IndexCall.weight_pos _)⟩

/-! A run visits every node that is there once, so it ends. -/

/-- What the build goes on from. The children of the nodes that it visits without a report are
different. -/
structure Grown (program : HirProgram) (builder builder' : HirTreeIndexBuilder) : Prop where
  clean : builder'.diagnostics = [] → builder.diagnostics = []
  itemModule : ∀ item, (builder.index.itemModule.get item).isSome →
    (builder'.index.itemModule.get item).isSome
  listed : builder'.diagnostics = [] → ∀ node, (builder'.owner? node).isSome →
    (builder.owner? node).isSome ∨ (program.entries node).Nodup

theorem Grown.trans {a b c : HirTreeIndexBuilder} (hab : a.Grown program b)
    (hbc : b.Grown program c) : a.Grown program c where
  clean h := hab.clean (hbc.clean h)
  itemModule item h := hbc.itemModule item (hab.itemModule item h)
  listed h node ho := (hbc.listed h node ho).elim (hab.listed (hbc.clean h) node) .inr

theorem Keeps.grown (h : builder.Keeps builder') : builder.Grown program builder' where
  clean := h.clean
  itemModule item hi := by
    rwa [h.itemModule]
  listed _ node ho := by
    rw [h.owner] at ho
    exact .inl ho

theorem Quiet.grown (h : builder.Quiet builder') : builder.Grown program builder' := h.keeps.grown

/-- The nodes without an owner, and then the calls that are made without a visit. -/
def remaining (program : HirProgram) (builder : HirTreeIndexBuilder) (calls : List IndexCall) :
    ℕ ×ₗ ℕ :=
  toLex (program.nodes.countP fun node => (builder.owner? node).isNone,
    (calls.map IndexCall.weight).sum)

variable {visit : HirOwner × HirTreeChild}

theorem isNone_of_update {owners : HirTreeChild → Option HirOwner} {node : HirTreeChild}
    (h : (Function.update owners visit.2 (some visit.1) node).isNone = true) :
    node ≠ visit.2 ∧ (owners node).isNone = true := by
  rw [Function.update_apply] at h
  split_ifs at h with hn
  · cases h
  · exact ⟨hn, h⟩

variable (program) in
theorem unowned_le (h : builder'.owner? = Function.update builder.owner? visit.2 (some visit.1) ∨
      builder'.owner? = builder.owner?) :
    (program.nodes.countP fun node => (builder'.owner? node).isNone) ≤
      program.nodes.countP fun node => (builder.owner? node).isNone := by
  refine List.countP_mono_left fun node _ hn => ?_
  rcases h with h | h
  · rw [h] at hn
    exact (isNone_of_update hn).2
  · rwa [h] at hn

theorem unowned_lt (h : builder'.owner? = Function.update builder.owner? visit.2 (some visit.1))
    (hhas : program.has visit.2 = true) (hnone : builder.owner? visit.2 = none) :
    (program.nodes.countP fun node => (builder'.owner? node).isNone) <
      program.nodes.countP fun node => (builder.owner? node).isNone := by
  obtain ⟨before, after, hsplit⟩ := List.append_of_mem ((HirProgram.has_iff visit.2).mp hhas)
  have hle : ∀ l : List HirTreeChild, (l.countP fun node => (builder'.owner? node).isNone) ≤
      l.countP fun node => (builder.owner? node).isNone := by
    refine fun l => List.countP_mono_left fun node _ hn => ?_
    rw [h] at hn
    exact (isNone_of_update hn).2
  have hself : builder'.owner? visit.2 = some visit.1 := by
    rw [h, Function.update_self]
  have hbefore := hle before
  have hafter := hle after
  rw [hsplit, List.countP_append, List.countP_append, List.countP_cons, List.countP_cons, hself,
    hnone]
  simp only [Option.isNone_some, Option.isNone_none, Bool.false_eq_true, if_true, if_false]
  omega

theorem Performed.remaining_lt {calls made : List IndexCall}
    {next : HirTreeIndexBuilder} (h : Performed program item builder call (next, made)) :
    next.remaining program (made ++ calls) < builder.remaining program (call :: calls) := by
  have hpos := call.weight_pos
  rw [remaining, remaining, Prod.Lex.toLex_lt_toLex, List.map_append, List.sum_append,
    List.map_cons, List.sum_cons]
  cases h with
  | enter hk _ hw =>
    refine .inr ⟨by rw [hk.owner], ?_⟩
    dsimp only
    omega
  | @visit visit _ hv hfresh hvisited =>
    cases hvisited with
    | refuse _ _ ho =>
      rcases (unowned_le program ho).lt_or_eq with hlt | heq
      · exact .inl hlt
      · refine .inr ⟨heq, ?_⟩
        simpa using hpos
    | accept _ _ hold ho hhas _ =>
      refine .inl (unowned_lt ho hhas ?_)
      cases hprevious : builder.owner? visit.2 with
      | none => rfl
      | some o => exact absurd (hold o hprevious ▸ hprevious) (hfresh hhas)

/-- The calls of a run that ends without reports: their nodes are different, and new. -/
def NewNodes (builder : HirTreeIndexBuilder) (calls : List IndexCall) : Prop :=
  ((calls.flatMap IndexCall.visits).map Prod.snd).Nodup ∧
    ∀ visit ∈ calls.flatMap IndexCall.visits, builder.owner? visit.2 = none

theorem Performed.grown {calls made : List IndexCall}
    {next final : HirTreeIndexBuilder} (h : Performed program item builder call (next, made))
    (hgrown : next.Grown program final)
    (hnew : final.diagnostics = [] → next.NewNodes (made ++ calls)) :
    builder.Grown program final ∧
      (final.diagnostics = [] → builder.NewNodes (call :: calls)) := by
  cases h with
  | enter hk hv _ =>
    refine ⟨hk.grown.trans hgrown, fun hd => ?_⟩
    have hlist := hnew hd
    rwa [NewNodes, List.flatMap_append, hv, hk.owner] at hlist
  | @visit visit _ hv hfresh hvisited =>
    cases hvisited with
    | refuse ht hreported _ =>
      have hdirty : final.diagnostics ≠ [] := fun hd => hreported (hgrown.clean hd)
      refine ⟨⟨fun hd => absurd hd hdirty, fun i hi => hgrown.itemModule i ?_,
        fun hd => absurd hd hdirty⟩, fun hd => absurd hd hdirty⟩
      rwa [show next.index.itemModule = _ from congrArg Prod.fst ht]
    | accept ht hclean hold ho hhas hmade =>
      have hnone : builder.owner? visit.2 = none := by
        cases hprevious : builder.owner? visit.2 with
        | none => rfl
        | some o => exact absurd (hold o hprevious ▸ hprevious) (hfresh hhas)
      refine ⟨⟨fun hd => hclean (hgrown.clean hd), fun i hi => hgrown.itemModule i ?_,
        fun hd node hnode => ?_⟩, fun hd => ?_⟩
      · rwa [show next.index.itemModule = _ from congrArg Prod.fst ht]
      · refine (hgrown.listed hd node hnode).elim (fun hnode => ?_) .inr
        rw [ho, Function.update_apply] at hnode
        split_ifs at hnode with heq
        · -- the node of the call, whose children are among the calls that are made
          subst heq
          have hnodup := (hnew hd).1
          rw [List.flatMap_append, List.map_append] at hnodup
          have hchildren := (hmade.visits.map Prod.snd).nodup_iff.mp hnodup.of_append_left
          rw [HirProgram.children, List.map_map] at hchildren
          exact .inr (List.Nodup.of_map _ hchildren)
        · exact .inl hnode
      · obtain ⟨hnodup, hall⟩ := hnew hd
        rw [List.flatMap_append, List.map_append] at hnodup
        have hlater : ∀ other ∈ calls.flatMap IndexCall.visits,
            other.2 ≠ visit.2 ∧ builder.owner? other.2 = none := by
          intro other hother
          have hother := hall other (by
            rw [List.flatMap_append]
            exact List.mem_append_right _ hother)
          rw [ho, ← Option.isNone_iff_eq_none] at hother
          obtain ⟨hne, hnone⟩ := isNone_of_update hother
          exact ⟨hne, Option.isNone_iff_eq_none.mp hnone⟩
        rw [NewNodes, List.flatMap_cons, hv]
        refine ⟨List.nodup_cons.mpr ⟨fun hmem => ?_, hnodup.of_append_right⟩,
          List.forall_mem_cons.mpr ⟨hnone, fun other ho => (hlater other ho).2⟩⟩
        obtain ⟨other, hother, heq⟩ := List.mem_map.mp hmem
        exact (hlater other hother).1 heq

theorem run_returns {calls : List IndexCall}
    (h : ∀ steps, SafeRun program item steps calls builder) :
    ∃ final, ComesTo (fun fuel => run program item fuel calls builder) final ∧
      builder.Grown program final ∧ (final.diagnostics = [] → builder.NewNodes calls) := by
  generalize hm : builder.remaining program calls = m
  induction m using WellFoundedLT.induction generalizing builder calls with
  | ind m ih =>
    cases calls with
    | nil =>
      refine ⟨builder, ⟨0, fun fuel _ => ?_⟩, (Quiet.refl builder).grown,
        fun _ => ⟨List.nodup_nil, nofun⟩⟩
      cases fuel <;> rfl
    | cons call calls =>
      obtain ⟨⟨next, made⟩, ⟨bound, hbound⟩, hperformed⟩ := perform_returns (h 1).1
      have hsafe : ∀ steps, SafeRun program item steps (made ++ calls) next :=
        fun steps => (h (steps + 1)).2 bound (next, made) (hbound bound le_rfl)
      obtain ⟨final, ⟨bound', hbound'⟩, hgrown, hnew⟩ :=
        ih _ (hm ▸ hperformed.remaining_lt) hsafe rfl
      refine ⟨final, ⟨max bound bound' + 1, fun fuel hf => ?_⟩, hperformed.grown hgrown hnew⟩
      obtain ⟨fuel, rfl⟩ : ∃ f, fuel = f + 1 := ⟨fuel - 1, by omega⟩
      have hfirst := hbound fuel (by omega)
      dsimp only at hfirst ⊢
      unfold run
      rw [hfirst]
      exact hbound' fuel (by omega)

/-! The parts of a build end, each from where the ones before it lead. -/

/-- A part of a build returns, whatever it reports. -/
def Ends (program : HirProgram) (builder : HirTreeIndexBuilder)
    (part : ℕ → Except Halt HirTreeIndexBuilder) : Prop :=
  ∃ final, ComesTo part final ∧ builder.Grown program final

theorem Ends.refl (program : HirProgram) (builder : HirTreeIndexBuilder) :
    builder.Ends program fun _ => .ok builder :=
  ⟨builder, .ok builder, (Quiet.refl builder).grown⟩

variable {part : ℕ → Except Halt HirTreeIndexBuilder}

theorem Ends.after (h : builder'.Ends program part)
    (hb : builder.Grown program builder') : builder.Ends program part := by
  obtain ⟨final, hfinal, hgrown⟩ := h
  exact ⟨final, hfinal, hb.trans hgrown⟩

theorem Ends.bind {rest : ℕ → HirTreeIndexBuilder → Except Halt HirTreeIndexBuilder}
    (h : builder.Ends program part)
    (hrest : ∀ fuel next, part fuel = .ok next → builder.Grown program next →
      next.Ends program fun fuel => rest fuel next) :
    builder.Ends program fun fuel => part fuel >>= rest fuel := by
  obtain ⟨next, ⟨bound, hbound⟩, hgrown⟩ := h
  obtain ⟨final, hfinal, hgrown'⟩ := hrest bound next (hbound bound le_rfl) hgrown
  exact ⟨final, ComesTo.bind ⟨bound, hbound⟩ hfinal, hgrown.trans hgrown'⟩

theorem ends_loop {ι : Type} {step : ℕ → HirTreeIndexBuilder → ι → Except Halt HirTreeIndexBuilder}
    {safe : HirTreeIndexBuilder → ι → Prop} {p : HirTreeIndexBuilder → Prop}
    (hp : ∀ {b b'}, p b → b.Grown program b' → p b')
    (hstep : ∀ x b, p b → safe b x → b.Ends program fun fuel => step fuel b x) {l : List ι}
    (hb : p builder) (h : SafeLoop step safe l builder) :
    builder.Ends program fun fuel => l.foldlM (step fuel) builder := by
  induction l generalizing builder with
  | nil => exact .refl program builder
  | cons x l ih =>
    have hfirst := hstep x builder hb h.1
    simp only [List.foldlM_cons]
    exact hfirst.bind fun fuel next hnext hgrown => ih (hp hb hgrown) (h.2 fuel next hnext)

variable {body : HirBodyRef}

/-- The body of an item with the run from its root. -/
theorem ends_body {target : HirBodyTarget}
    (h : builder.SafeBody program item body owner scope target)
    {finish : HirTreeIndexBuilder → HirTreeIndexBuilder}
    (hk : ∀ b : HirTreeIndexBuilder, b.Keeps (finish b)) :
    builder.Ends program fun fuel => (do
      let b ← run program item fuel [rootCall body target]
        (builder.insertBody program item body owner scope)
      .ok (finish b)) := by
  obtain ⟨final, hfinal, hgrown, -⟩ := run_returns h
  exact ⟨finish final, ComesTo.bind hfinal (.ok _),
    ((insertBody_keeps item body owner scope).grown.trans hgrown).trans (hk final).grown⟩

theorem ends_flowBody {flowBody : HirFlowBody}
    (h : builder.SafeBody program item body owner scope (.block flowBody.blockId)) :
    builder.Ends program fun fuel => (builder.insertBody program item body owner
      scope).indexFlowBody program fuel flowBody body item :=
  ends_body h fun _ => pushBodyBlock_keeps _ _

theorem ends_rootExpr {expr : HirExprId}
    (h : builder.SafeBody program item body owner scope (.expr expr)) :
    builder.Ends program fun fuel => (builder.insertBody program item body owner
      scope).indexRootExpr program fuel expr body item :=
  ends_body h fun _ => pushBodyExpr_keeps _ _

theorem ends_itemAnnotations (h : builder.SafeItemAnnotations program item scope) :
    builder.Ends program fun fuel => builder.indexItemAnnotations program fuel item scope :=
  ends_loop (p := fun _ => True) (fun _ _ => trivial) (fun _ _ _ h => ends_rootExpr h) trivial h

theorem grown_insertItemModule (module : HirModuleId) :
    builder.Grown program (builder.insertItemModule program item module).1 := by
  have hinsert : ∀ i, (builder.index.itemModule.get i).isSome →
      ((builder.index.itemModule.insert item module).get i).isSome := by
    intro i hi
    rw [Map.get_insert]
    split_ifs
    · rfl
    · exact hi
  unfold insertItemModule
  split_ifs
  · exact (quiet_report _).grown
  · unfold noteOwner
    dsimp only
    split
    · exact ⟨id, hinsert, fun _ _ => .inl⟩
    · split_ifs
      · exact ⟨id, hinsert, fun _ _ => .inl⟩
      · exact ⟨fun hd => absurd hd (report_diagnostics_ne_nil _), hinsert, fun _ _ => .inl⟩

/-- The item has a module. -/
def Placed (item : HirItemId) (builder : HirTreeIndexBuilder) : Prop :=
  (builder.index.itemModule.get item).isSome = true

section
variable (hb : builder.Placed item)
include hb

theorem ends_callable {position : ℕ} {callable : HirItemId}
    (h : builder.SafeCallable program item position callable) :
    builder.Ends program fun fuel => builder.indexCallable program fuel item position callable := by
  obtain ⟨module, hmodule⟩ := Option.isSome_iff_exists.mp hb
  unfold indexCallable
  cases hget : program.items[callable]? with
  | none => exact absurd h.1 (List.getElem?_eq_none_iff.mp hget).not_gt
  | some data =>
    cases data with
    | flow decl =>
      obtain ⟨hbody, hannotations⟩ := h.2 decl module hget hmodule
      simp only [hmodule]
      refine Ends.after ((ends_flowBody hbody).bind fun fuel next hnext _ => ?_) ?_
      · exact ends_itemAnnotations (hannotations fuel next hnext)
      · refine Grown.trans ?_ (quiet_insertScopeOwner _ _).grown
        refine Grown.trans ?_ (grown_insertItemModule module)
        exact Keeps.grown ⟨rfl, rfl, id⟩
    | typeAlias | type | enum | spec | impl | effect | topLevelLet | tool | agent | protocol
    | error => exact ⟨_, .ok _, (quiet_report _).grown⟩

theorem ends_implItem {position : ℕ} {implItem : HirImplItem}
    (h : builder.SafeImplItem program item position implItem) :
    builder.Ends program fun fuel =>
      builder.indexImplItem program fuel item position implItem := by
  cases implItem with
  | callable callable => exact ends_callable hb h
  | flow decl => exact ends_flowBody h
  | action | error => exact .refl program builder

theorem ends_itemBody {data : HirItem}
    (h : builder.SafeItemBody program item data) :
    builder.Ends program fun fuel => builder.indexItemBody program fuel item data := by
  cases data with
  | flow decl => exact ends_flowBody h
  | topLevelLet value => exact ends_rootExpr h
  | impl items scope =>
    exact ends_loop (p := Placed item) (fun hb hgrown => hgrown.itemModule item hb)
      (fun _ _ hb h => ends_implItem hb h) hb h
  | tool body scope =>
    cases body with
    | source body => exact ends_flowBody h
    | decl | error => exact .refl program builder
  | agent body scope =>
    cases body with
    | source block => exact @ends_flowBody program builder item _ _ _ (.block block) h
    | decl | error => exact .refl program builder
  | typeAlias | type | enum | spec | effect | protocol | error => exact .refl program builder

theorem ends_item (h : builder.SafeItem program item) :
    builder.Ends program fun fuel => builder.indexItem program fuel item := by
  unfold indexItem
  cases hdata : program.items[item]? with
  | none => exact ⟨_, .ok _, (quiet_report _).grown⟩
  | some data =>
    obtain ⟨hbody, hannotations⟩ := h data hdata
    have parts : ∀ {entered : HirTreeIndexBuilder}, builder.Quiet entered →
        entered.SafeItemBody program item data →
        (∀ fuel next, entered.indexItemBody program fuel item data = .ok next →
          next.SafeItemAnnotations program item data.scope) →
        builder.Ends program fun fuel => (do
          let b ← entered.indexItemBody program fuel item data
          b.indexItemAnnotations program fuel item data.scope) := by
      intro entered hq hbody hannotations
      have hgrown : builder.Grown program entered := hq.grown
      have hplaced : entered.Placed item := hgrown.itemModule item hb
      refine Ends.after ((ends_itemBody hplaced hbody).bind fun fuel next hnext _ => ?_) hgrown
      exact ends_itemAnnotations (hannotations fuel next hnext)
    dsimp only at hbody hannotations ⊢
    cases hscope : data.scope with
    | none =>
      rw [hscope] at hbody hannotations parts
      exact parts (.refl builder) hbody hannotations
    | some scope =>
      rw [hscope] at hbody hannotations parts
      exact parts (quiet_insertScopeOwner _ _) hbody hannotations

end

variable {module : HirModuleId}

theorem insertItemModule_placed (h : (builder.insertItemModule program item module).2 = true) :
    (builder.insertItemModule program item module).1.Placed item := by
  unfold insertItemModule at h ⊢
  split_ifs at h ⊢
  unfold noteOwner at h ⊢
  dsimp only at h ⊢
  split
  · simp [Placed]
  · split_ifs <;> simp [Placed, report]

theorem ends_moduleItem (h : (builder.insertItemModule program item module).2 = true →
      (builder.insertItemModule program item module).1.SafeItem program item) :
    builder.Ends program fun fuel => builder.indexModuleItem program fuel module item := by
  have hgrown := @grown_insertItemModule program builder item module
  have hplaced := @insertItemModule_placed program builder item module
  unfold indexModuleItem
  generalize builder.insertItemModule program item module = result at h hgrown hplaced
  obtain ⟨entered, _ | _⟩ := result
  · exact ⟨entered, .ok entered, hgrown⟩
  · exact (ends_item (hplaced rfl) (h rfl)).after hgrown

theorem ends_module (h : builder.SafeModule program module) :
    builder.Ends program fun fuel => builder.indexModule program fuel module := by
  unfold indexModule
  cases hdata : program.modulesArena[module]? with
  | none => exact ⟨_, .ok _, (quiet_report _).grown⟩
  | some data =>
    refine Ends.after (ends_loop (p := fun _ => True) (fun _ _ => trivial)
      (fun _ _ _ h => ends_moduleItem h) trivial (h data hdata).2) ?_
    have hq : builder.Quiet (builder.insertScopeOwner program (.module module) data.scope) :=
      quiet_insertScopeOwner _ _
    exact hq.grown.trans (Quiet.grown ⟨rfl, rfl, id⟩)

theorem quiet_indexScope (id : ScopeId) (scope : Scope) :
    builder.Quiet (builder.indexScope program id scope) := by
  unfold indexScope
  split
  · exact quiet_insertScopeOwner _ _
  · split_ifs
    · exact quiet_report _
    · refine Quiet.trans ?_ (quiet_insertScopeOwner _ _)
      exact ⟨rfl, rfl, fun h => h⟩

variable (program) in
theorem quiet_indexScopes : builder.Quiet (builder.indexScopes program) := by
  unfold indexScopes
  refine foldl_keeps (p := fun b => builder.Quiet b) (fun b x hb => ?_) (.refl builder) _
  have hx : b.Quiet (b.indexScope program x.2 x.1) := quiet_indexScope x.2 x.1
  exact hb.trans hx

theorem ends_build (h : Safe program) : start.Ends program (build program start) := by
  refine Ends.after ?_ (quiet_indexScopes program).grown
  exact ends_loop (p := fun _ => True) (fun _ _ => trivial) (fun _ _ _ h => ends_module h) trivial
    h.2

/-! What the last check sees. -/

theorem orphans_eq_nil {kind : HirTreeNodeKind} {size : ℕ} {visited optimizedOut : ℕ → Bool}
    (h : orphans kind size visited optimizedOut = []) {id : ℕ} (hid : id < size)
    (ho : optimizedOut id = false) : visited id = true := by
  rw [orphans, List.map_eq_nil_iff, List.filter_eq_nil_iff] at h
  have hi := h id (List.mem_range.mpr hid)
  simpa [ho] using hi

/-- In an index without reports every node was visited. -/
structure AllVisited (program : HirProgram) (index : HirTreeIndex) : Prop where
  modules : ∀ module < program.modulesArena.length, module ∈ program.modules
  items : ∀ item < program.items.length, (index.itemModule.get item).isSome
  nodes : ∀ node ∈ program.nodes, program.optimizedOut node = false → (index.owner? node).isSome

theorem allVisited_of_validateOrphans
    (h : (builder.validateOrphans program).diagnostics = []) :
    builder.diagnostics = [] ∧ AllVisited program builder.index := by
  simp only [validateOrphans, List.append_eq_nil_iff] at h
  obtain ⟨hd, ⟨⟨⟨⟨⟨⟨hm, hi⟩, hb⟩, hs⟩, he⟩, ha⟩, hp⟩⟩ := h
  refine ⟨hd, fun module hlt => ?_, fun item hlt => orphans_eq_nil hi hlt rfl,
    fun node hn ho => ?_⟩
  · exact List.contains_iff_mem.mp (orphans_eq_nil hm hlt rfl)
  · simp only [HirProgram.nodes, List.mem_append, List.mem_map, List.mem_range] at hn
    rcases hn with (((⟨e, hlt, rfl⟩ | ⟨b, hlt, rfl⟩) | ⟨st, hlt, rfl⟩) | ⟨arm, hlt, rfl⟩) |
      ⟨pat, hlt, rfl⟩
    · exact orphans_eq_nil he hlt ho
    · exact orphans_eq_nil hb hlt ho
    · have hsome := orphans_eq_nil hs hlt ho
      simpa [HirTreeIndex.owner?, owner?] using hsome
    · exact orphans_eq_nil ha hlt rfl
    · exact orphans_eq_nil hp hlt ho

/-! Queries over the recorded owners. -/

def nodeRef : HirTreeChild → HirNodeRef
  | .expr e => .expr e
  | .block b => .block b
  | .stmt s => .stmt s
  | .handlerArm arm => .handlerArm arm
  | .pattern pat => .pat pat

variable {index : HirTreeIndex}

theorem scopeForOwner_of_anchor {bound : ℕ}
    (h : ∀ node, owner.anchor = some node → ∀ fuel ≥ bound, ∃ scope,
      index.enclosingScope program fuel (nodeRef node) = .ok scope) :
    ∀ fuel ≥ bound + 2, ∃ scope, index.scopeForOwner program fuel owner = .ok scope := by
  intro fuel hf
  obtain ⟨fuel, rfl⟩ : ∃ f, fuel = f + 2 := ⟨fuel - 2, by omega⟩
  unfold HirTreeIndex.scopeForOwner
  split
  · exact ⟨_, rfl⟩
  · cases owner with
    | expr e => exact h (.expr e) rfl (fuel + 1) (by omega)
    | pattern pat => exact h (.pattern pat) rfl (fuel + 1) (by omega)
    | stmt st => exact h (.stmt st) rfl (fuel + 1) (by omega)
    | handlerArm arm => exact h (.handlerArm arm) rfl (fuel + 1) (by omega)
    | item item => exact ⟨_, rfl⟩
    | module | body | block => exact ⟨_, rfl⟩

theorem enclosingScope_ok (h : WellFounded index.Owns) (node : HirTreeChild) :
    ∃ bound, ∀ fuel ≥ bound, ∃ scope,
      index.enclosingScope program fuel (nodeRef node) = .ok scope := by
  induction node using h.induction with
  | h node ih =>
    have hnext : ∀ owner, index.owner? node = some owner → ∃ bound, ∀ fuel ≥ bound, ∃ scope,
        index.scopeForOwner program fuel owner = .ok scope := by
      intro owner ho
      cases ha : owner.anchor with
      | none =>
        refine ⟨0 + 2, scopeForOwner_of_anchor fun parent hp => ?_⟩
        rw [ha] at hp
        cases hp
      | some parent =>
        obtain ⟨bound, hb⟩ := ih parent ⟨owner, ho, ha⟩
        refine ⟨bound + 2, scopeForOwner_of_anchor fun parent' hp => ?_⟩
        rw [ha] at hp
        cases hp
        exact hb
    cases node with
    | expr e =>
      cases ho : index.exprOwner.get e with
      | none =>
        refine ⟨1, fun fuel hf => ?_⟩
        obtain ⟨fuel, rfl⟩ : ∃ f, fuel = f + 1 := ⟨fuel - 1, by omega⟩
        simp only [nodeRef, HirTreeIndex.enclosingScope, ho]
        split <;> exact ⟨_, rfl⟩
      | some owner =>
        obtain ⟨bound, hb⟩ := hnext owner ho
        refine ⟨bound + 1, fun fuel hf => ?_⟩
        obtain ⟨fuel, rfl⟩ : ∃ f, fuel = f + 1 := ⟨fuel - 1, by omega⟩
        simp only [nodeRef, HirTreeIndex.enclosingScope, ho]
        split
        · exact ⟨_, rfl⟩
        · exact hb fuel (by omega)
    | pattern pat =>
      cases ho : index.patOwner.get pat with
      | none =>
        refine ⟨1, fun fuel hf => ?_⟩
        obtain ⟨fuel, rfl⟩ : ∃ f, fuel = f + 1 := ⟨fuel - 1, by omega⟩
        simp only [nodeRef, HirTreeIndex.enclosingScope, ho]
        exact ⟨_, rfl⟩
      | some owner =>
        obtain ⟨bound, hb⟩ := hnext owner ho
        refine ⟨bound + 1, fun fuel hf => ?_⟩
        obtain ⟨fuel, rfl⟩ : ∃ f, fuel = f + 1 := ⟨fuel - 1, by omega⟩
        simp only [nodeRef, HirTreeIndex.enclosingScope, ho]
        exact hb fuel (by omega)
    | block | stmt | handlerArm =>
      refine ⟨1, fun fuel hf => ?_⟩
      obtain ⟨fuel, rfl⟩ : ∃ f, fuel = f + 1 := ⟨fuel - 1, by omega⟩
      exact ⟨_, rfl⟩

end HirTreeIndexBuilder
end EtasFrontend.Hir
