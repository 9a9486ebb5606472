import EtasFrontend.Hir.TreeIndex
import Mathlib.Data.List.Perm.Basic

/-! What the nodes of a program list, and each call of the index builder as a visit of one of the
nodes. -/
namespace EtasFrontend.Hir
open Lib

/-! The graph. -/

def HirTreeChild.asOwner : HirTreeChild → HirOwner
  | .expr e => .expr e
  | .block b => .block b
  | .stmt s => .stmt s
  | .handlerArm arm => .handlerArm arm
  | .pattern pat => .pattern pat

def HirBodyTarget.child : HirBodyTarget → HirTreeChild
  | .expr e => .expr e
  | .block b => .block b

/-- The bodies an expression keeps apart. -/
def HirExpr.bodies (expr : HirExprId) : HirExpr → List (HirBodyKind × HirTreeChild)
  | .lambda _ body _ => [(.lambda expr, body.child)]
  | .match _ arms => arms.zipIdx.map fun arm => (.matchArm expr arm.2, arm.1.body.child)
  | .stageCompose stages | .pipeline _ stages => stages.zipIdx.flatMap fun stage =>
    stage.1.limits.zipIdx.map fun limit => (.stageLimit expr stage.2 limit.2, .expr limit.1)
  | _ => []

/-- What a node lists, in its order. A child in a body of its own comes with the kind of that
body. -/
def HirProgram.entries (program : HirProgram) :
    HirTreeChild → List (Option HirBodyKind × HirTreeChild)
  | .block block =>
    match program.blocks[block]? with
    | none => []
    | some data =>
      data.stmts.map (none, .stmt ·) ++ data.finalExpr.toList.map (none, .expr ·)
  | .stmt stmt =>
    match program.stmts[stmt]? with
    | none => []
    | some data => data.children.map (none, ·)
  | .expr expr =>
    match program.exprs[expr]? with
    | none => []
    | some data =>
      data.children.map (none, ·) ++ (data.bodies expr).map fun body => (some body.1, body.2)
  | .handlerArm arm =>
    match program.handlerArms[arm]? with
    | none => []
    | some data =>
      data.patterns.map (none, .pattern ·) ++ data.continuation.toList.map (none, .pattern ·) ++
        [(some (.handlerArm arm), .block data.body)]
  | .pattern pat =>
    match program.pats[pat]? with
    | none => []
    | some data => data.children.map (none, ·)

def HirTreeChild.childOwner (node : HirTreeChild) (item : HirItemId) : Option HirBodyKind → HirOwner
  | none => node.asOwner
  | some kind => .body ⟨item, kind⟩

theorem HirTreeChild.childOwner_inj {node : HirTreeChild} {item : HirItemId}
    {kind kind' : Option HirBodyKind} (h : node.childOwner item kind = node.childOwner item kind') :
    kind = kind' := by
  cases kind with
  | none =>
    cases kind' with
    | none => rfl
    | some kind' => cases node <;> cases h
  | some kind =>
    cases kind' with
    | none => cases node <;> cases h
    | some kind' =>
      cases h
      rfl

/-- The node that lists in the name of an owner. -/
def HirOwner.anchor : HirOwner → Option HirTreeChild
  | .module _ | .item _ => none
  | .body ⟨_, .lambda e⟩ | .body ⟨_, .matchArm e _⟩ | .body ⟨_, .stageLimit e _ _⟩ =>
    some (.expr e)
  | .body ⟨_, .handlerArm arm⟩ => some (.handlerArm arm)
  | .body _ => none
  | .block b => some (.block b)
  | .stmt s => some (.stmt s)
  | .expr e => some (.expr e)
  | .handlerArm arm => some (.handlerArm arm)
  | .pattern pat => some (.pattern pat)

@[simp] theorem HirTreeChild.anchor_asOwner (node : HirTreeChild) :
    node.asOwner.anchor = some node := by
  cases node <;> rfl

variable {data : HirExpr}

theorem HirExpr.anchor_of_mem_bodies {expr : HirExprId} {body : HirBodyKind × HirTreeChild}
    (h : body ∈ data.bodies expr) (item : HirItemId) :
    HirOwner.anchor (.body ⟨item, body.1⟩) = some (.expr expr) := by
  unfold HirExpr.bodies at h
  split at h
  · rw [List.mem_singleton.mp h]
    rfl
  · obtain ⟨arm, -, rfl⟩ := List.mem_map.mp h
    rfl
  · obtain ⟨stage, -, h⟩ := List.mem_flatMap.mp h
    obtain ⟨limit, -, rfl⟩ := List.mem_map.mp h
    rfl
  · obtain ⟨stage, -, h⟩ := List.mem_flatMap.mp h
    obtain ⟨limit, -, rfl⟩ := List.mem_map.mp h
    rfl
  · cases h

variable {node : HirTreeChild}

theorem HirProgram.anchor_of_mem_entries {program : HirProgram}
    {entry : Option HirBodyKind × HirTreeChild} (h : entry ∈ program.entries node)
    (item : HirItemId) : (node.childOwner item entry.1).anchor = some node := by
  have plain : ∀ {ι : Type} {l : List ι} {f : ι → HirTreeChild}, entry ∈ l.map (none, f ·) →
      (node.childOwner item entry.1).anchor = some node := by
    intro ι l f hl
    obtain ⟨child, -, rfl⟩ := List.mem_map.mp hl
    exact node.anchor_asOwner
  cases node with
  | block b =>
    simp only [entries] at h
    split at h
    · cases h
    · exact (List.mem_append.mp h).elim plain plain
  | stmt st =>
    simp only [entries] at h
    split at h
    · cases h
    · exact plain (f := id) h
  | pattern pat =>
    simp only [entries] at h
    split at h
    · cases h
    · exact plain (f := id) h
  | expr e =>
    simp only [entries] at h
    split at h
    · cases h
    · rcases List.mem_append.mp h with h | h
      · exact plain (f := id) h
      · obtain ⟨body, hb, rfl⟩ := List.mem_map.mp h
        exact HirExpr.anchor_of_mem_bodies hb item
  | handlerArm arm =>
    simp only [entries] at h
    split at h
    · cases h
    · rcases List.mem_append.mp h with h | h
      · exact (List.mem_append.mp h).elim plain plain
      · rw [List.mem_singleton.mp h]
        rfl

/-- What a node lists, each child with its owner. Which body owns a child depends on the item that
is indexed. -/
def HirProgram.children (program : HirProgram) (item : HirItemId) (node : HirTreeChild) :
    List (HirOwner × HirTreeChild) :=
  (program.entries node).map fun entry => (node.childOwner item entry.1, entry.2)

section
variable (program : HirProgram)

/-- The view has the node. -/
def HirProgram.has : HirTreeChild → Bool
  | .expr expr => expr < program.exprs.length
  | .block block => block < program.blocks.length
  | .stmt stmt => stmt < program.stmts.length
  | .handlerArm arm => arm < program.handlerArms.length
  | .pattern pat => pat < program.pats.length

def HirProgram.nodes : List HirTreeChild :=
  (List.range program.exprs.length).map .expr ++ (List.range program.blocks.length).map .block ++
    (List.range program.stmts.length).map .stmt ++
    (List.range program.handlerArms.length).map .handlerArm ++
    (List.range program.pats.length).map .pattern

end

section
variable {program : HirProgram}

theorem HirProgram.has_iff (node : HirTreeChild) :
    program.has node = true ↔ node ∈ program.nodes := by
  cases node <;> simp [HirProgram.has, HirProgram.nodes]

theorem has_of_getElem? {ι : Type} {l : List ι} {k : ℕ} {x : ι} (h : l[k]? = some x) :
    decide (k < l.length) = true := by
  obtain ⟨hlt, -⟩ := List.getElem?_eq_some_iff.mp h
  exact decide_eq_true hlt

theorem HirProgram.entries_of_not_has (h : program.has node = false) : program.entries node = [] := by
  have hget : ∀ {α : Type} {l : List α} {k : ℕ}, decide (k < l.length) = false → l[k]? = none :=
    fun hk => List.getElem?_eq_none (Nat.le_of_not_lt (of_decide_eq_false hk))
  cases node with
  | expr e => simp only [entries, hget h]
  | block b => simp only [entries, hget h]
  | stmt st => simp only [entries, hget h]
  | handlerArm arm => simp only [entries, hget h]
  | pattern pat => simp only [entries, hget h]

end

/-! The records of a build. -/

/-- A step of the builder that the tables keep. A module or an item is not noted itself. -/
inductive HirRecord where
  | module (module : HirModuleId)
  | item (module : HirModuleId) (item : HirItemId)
  | callable (impl : HirItemId) (position : ℕ) (callable : HirItemId)
  | body (item : HirItemId) (body : HirBodyRef) (owner : HirOwner) (target : HirTreeChild)
  | root (body : HirBodyRef) (target : HirTreeChild)
  | node (item : HirItemId) (owner : HirOwner) (node : HirTreeChild)
  deriving DecidableEq

/-- The body of an entry that is kept in one. -/
def entryBodies (item : HirItemId) (node : HirTreeChild) :
    Option HirBodyKind × HirTreeChild → List HirRecord
  | (none, _) => []
  | (some kind, child) => [.body item ⟨item, kind⟩ node.asOwner child]

/-! The calls of the builder. -/

namespace HirTreeIndexBuilder

def owner? (builder : HirTreeIndexBuilder) : HirTreeChild → Option HirOwner
  | .expr expr => builder.index.exprOwner.get expr
  | .block block => builder.index.blockOwner.get block
  | .stmt stmt => (builder.index.stmtBlock.get stmt).map .block
  | .handlerArm arm => builder.index.handlerArmOwner.get arm
  | .pattern pat => builder.index.patOwner.get pat

/-- The visits that a call makes, at once or after it has entered a body. -/
def IndexCall.visits : IndexCall → List (HirOwner × HirTreeChild)
  | .block b owner => [(owner, .block b)]
  | .stmt s b => [(.block b, .stmt s)]
  | .expr e owner => [(owner, .expr e)]
  | .pat p owner => [(owner, .pattern p)]
  | .handlerArm arm owner => [(owner, .handlerArm arm)]
  | .body ref _ _ (.block b) => [(.body ref, .block b)]
  | .body _ _ _ (.expr _) | .stageLimit _ _ _ _ | .bodyBlock _ _ => []

/-- The bodies that a call enters or has entered. -/
def IndexCall.bodyRecords (item : HirItemId) : IndexCall → List HirRecord
  | .body ref owner _ target => [.body item ref owner target.child]
  | .stageLimit ref e _ limit => [.body item ref (.expr e) (.expr limit)]
  | .bodyBlock ref b => [.root ref (.block b)]
  | _ => []

/-- The tables besides those of the owners of nodes. -/
def tables (builder : HirTreeIndexBuilder) :=
  let index := builder.index
  (index.itemModule, index.bodyOwner, index.itemBodies, index.itemChildren, index.ownedBodies,
    index.bodyExprs, index.bodyBlocks)

/-- What a step keeps that visits no node and no item. -/
structure Keeps (builder builder' : HirTreeIndexBuilder) : Prop where
  owner : builder'.owner? = builder.owner?
  itemModule : builder'.index.itemModule = builder.index.itemModule
  clean : builder'.diagnostics = [] → builder.diagnostics = []

theorem Keeps.trans {a b c : HirTreeIndexBuilder} (hab : a.Keeps b) (hbc : b.Keeps c) : a.Keeps c :=
  ⟨hbc.owner.trans hab.owner, hbc.itemModule.trans hab.itemModule, fun h => hab.clean (hbc.clean h)⟩

/-- It enters no body either. -/
structure Quiet (builder builder' : HirTreeIndexBuilder) : Prop where
  owner : builder'.owner? = builder.owner?
  tables : builder'.tables = builder.tables
  clean : builder'.diagnostics = [] → builder.diagnostics = []

variable {program : HirProgram} {builder : HirTreeIndexBuilder}

theorem Quiet.keeps {builder' : HirTreeIndexBuilder} (h : builder.Quiet builder') :
    builder.Keeps builder' :=
  ⟨h.owner, congrArg Prod.fst h.tables, h.clean⟩

theorem Quiet.refl (builder : HirTreeIndexBuilder) : builder.Quiet builder :=
  ⟨rfl, rfl, id⟩

theorem Quiet.trans {a b c : HirTreeIndexBuilder} (hab : a.Quiet b) (hbc : b.Quiet c) : a.Quiet c :=
  ⟨hbc.owner.trans hab.owner, hbc.tables.trans hab.tables, fun h => hab.clean (hbc.clean h)⟩

theorem report_diagnostics_ne_nil (diagnostic : HirTreeIndexDiagnostic) :
    (builder.report diagnostic).diagnostics ≠ [] := by
  simp [report]

theorem quiet_report (diagnostic : HirTreeIndexDiagnostic) :
    builder.Quiet (builder.report diagnostic) :=
  ⟨rfl, rfl, fun h => (report_diagnostics_ne_nil diagnostic h).elim⟩

theorem quiet_insertScopeOwner (owner : HirOwner) (scope : ScopeId) :
    builder.Quiet (builder.insertScopeOwner program owner scope) := by
  unfold insertScopeOwner
  split_ifs
  · exact quiet_report _
  · exact ⟨rfl, rfl, id⟩

theorem insertBody_keeps (item : HirItemId) (body : HirBodyRef) (owner : HirOwner)
    (scope : Option ScopeId) : builder.Keeps (builder.insertBody program item body owner scope) := by
  unfold insertBody
  dsimp only
  split
  · exact ⟨rfl, rfl, fun h => (report_diagnostics_ne_nil _ h).elim⟩
  · split
    · refine Keeps.trans ?_ (quiet_insertScopeOwner _ _).keeps
      exact ⟨rfl, rfl, id⟩
    · exact ⟨rfl, rfl, id⟩

theorem pushBodyExpr_keeps (body : HirBodyRef) (expr : HirExprId) :
    builder.Keeps (builder.pushBodyExpr body expr) :=
  ⟨rfl, rfl, id⟩

theorem pushBodyBlock_keeps (body : HirBodyRef) (block : HirBlockId) :
    builder.Keeps (builder.pushBodyBlock body block) :=
  ⟨rfl, rfl, id⟩

/-- What the recording of an owner comes to. A node that is not in its arena may be dropped. -/
inductive Inserted (builder : HirTreeIndexBuilder) (visit : HirOwner × HirTreeChild) :
    HirTreeIndexBuilder × Bool → Prop where
  | accept {builder' : HirTreeIndexBuilder} : builder'.tables = builder.tables →
    (builder'.diagnostics = [] → builder.diagnostics = []) →
    (∀ o, builder.owner? visit.2 = some o → o = visit.1) →
    builder'.owner? = Function.update builder.owner? visit.2 (some visit.1) →
    Inserted builder visit (builder', true)
  | refuse {builder' : HirTreeIndexBuilder} : builder'.tables = builder.tables →
    builder'.diagnostics ≠ [] →
    (builder'.owner? = Function.update builder.owner? visit.2 (some visit.1) ∨
      builder'.owner? = builder.owner?) → Inserted builder visit (builder', false)

variable {owner : HirOwner}

theorem inserted_noteOwner {recorded : HirTreeIndexBuilder} {kind : HirTreeNodeKind} {id : ℕ}
    {previous : Option HirOwner} (hp : previous = builder.owner? node)
    (ht : recorded.tables = builder.tables) (hd : recorded.diagnostics = builder.diagnostics)
    (ho : recorded.owner? = Function.update builder.owner? node (some owner)) :
    Inserted builder (owner, node) (noteOwner recorded kind id previous owner) := by
  subst hp
  unfold noteOwner
  split
  · next hnone => exact .accept ht (fun h => hd ▸ h) (fun o h => by rw [hnone] at h; cases h) ho
  · next previous hsome =>
    split_ifs with heq
    · refine .accept ht (fun h => hd ▸ h) (fun o h => ?_) ho
      rw [hsome] at h
      rw [← heq, Option.some.inj h]
    · exact .refuse ht (report_diagnostics_ne_nil _) (Or.inl ho)

theorem inserted_block (block : HirBlockId) (owner : HirOwner) :
    Inserted builder (owner, .block block) (builder.insertBlockOwner block owner) := by
  refine inserted_noteOwner (by rfl) (by rfl) (by rfl) ?_
  funext node
  cases node <;> simp [owner?, Function.update_apply, Map.get_insert]

theorem inserted_stmt (stmt : HirStmtId) (block : HirBlockId) :
    Inserted builder (.block block, .stmt stmt) (builder.insertStmtBlock stmt block) := by
  refine inserted_noteOwner (by rfl) (by rfl) (by rfl) ?_
  funext node
  cases node with
  | stmt other =>
    by_cases h : other = stmt
    · subst h
      simp [owner?]
    · simp [owner?, Map.get_insert, h]
  | expr | block | handlerArm | pattern => simp [owner?]

theorem inserted_pat (pat : HirPatId) (owner : HirOwner) :
    Inserted builder (owner, .pattern pat) (builder.insertPatOwner pat owner) := by
  refine inserted_noteOwner (by rfl) (by rfl) (by rfl) ?_
  funext node
  cases node <;> simp [owner?, Function.update_apply, Map.get_insert]

theorem inserted_expr (expr : HirExprId) (owner : HirOwner) :
    Inserted builder (owner, .expr expr) (builder.insertExprOwner program expr owner) := by
  unfold insertExprOwner
  split_ifs
  · exact .refuse rfl (report_diagnostics_ne_nil _) (Or.inr rfl)
  · refine inserted_noteOwner (by rfl) (by rfl) (by rfl) ?_
    funext node
    cases node <;> simp [owner?, Function.update_apply, Map.get_insert]

theorem inserted_handlerArm (arm : HirHandlerArmId) (owner : HirOwner) :
    Inserted builder (owner, .handlerArm arm)
      (builder.insertHandlerArmOwner program arm owner) := by
  unfold insertHandlerArmOwner
  split_ifs
  · exact .refuse rfl (report_diagnostics_ne_nil _) (Or.inr rfl)
  · refine inserted_noteOwner (by rfl) (by rfl) (by rfl) ?_
    funext node
    cases node <;> simp [owner?, Function.update_apply, Map.get_insert]

/-! The calls that a visit makes. -/

/-- What the calls that a visit makes are about. -/
structure Made (program : HirProgram) (item : HirItemId) (node : HirTreeChild)
    (made : List IndexCall) : Prop where
  visits : (made.flatMap IndexCall.visits).Perm (program.children item node)
  bodies : (made.flatMap (IndexCall.bodyRecords item)).Perm
    ((program.entries node).flatMap (entryBodies item node))

theorem perm_flatMap_toList {α : Type} (l : List (α × Option α)) :
    (l.map Prod.fst ++ l.filterMap Prod.snd).Perm (l.flatMap fun x => x.1 :: x.2.toList) := by
  induction l with
  | nil => exact .nil
  | cons x l ih =>
    obtain ⟨a, b⟩ := x
    cases b with
    | none => exact ih.cons a
    | some b => exact (List.perm_middle.trans (ih.cons b)).cons a

variable {child : HirTreeChild}

theorem children_ne_stmt_of_stmt {data : HirStmt} (h : child ∈ data.children) (stmt : HirStmtId) :
    child ≠ .stmt stmt := by
  rintro rfl
  cases data <;> simp [HirStmt.children] at h

theorem children_ne_stmt_of_pat {data : HirPat} (h : child ∈ data.children) (stmt : HirStmtId) :
    child ≠ .stmt stmt := by
  rintro rfl
  cases data <;> simp [HirPat.children] at h

theorem children_ne_stmt_of_expr (h : child ∈ data.children) (stmt : HirStmtId) :
    child ≠ .stmt stmt := by
  rintro rfl
  cases data with
  | record path fields =>
    obtain ⟨field, -, hf⟩ := List.mem_filterMap.mp h
    cases field <;> cases hf
  | «if» cond thenBlock elseBranch =>
    cases elseBranch with
    | none => simp [HirExpr.children] at h
    | some elseBranch => cases elseBranch <;> simp [HirExpr.children, HirElseBranch.child] at h
  | _ => simp [HirExpr.children] at h

theorem visits_childCall (owner : HirOwner) (h : ∀ stmt, child ≠ .stmt stmt) :
    (childCall owner child).toList.flatMap IndexCall.visits = [(owner, child)] := by
  cases child with
  | stmt stmt => exact absurd rfl (h stmt)
  | expr | block | handlerArm | pattern => rfl

theorem visits_childCalls {children : List HirTreeChild} (owner : HirOwner)
    (h : ∀ child ∈ children, ∀ stmt, child ≠ .stmt stmt) :
    (children.filterMap (childCall owner)).flatMap IndexCall.visits =
      children.map fun child => (owner, child) := by
  induction children with
  | nil => rfl
  | cons child children ih =>
    have hc := visits_childCall owner (h child List.mem_cons_self)
    have hl := ih fun other ho => h other (List.mem_cons_of_mem _ ho)
    cases hcall : childCall owner child with
    | none =>
      rw [hcall] at hc
      cases hc
    | some call =>
      rw [hcall] at hc
      rw [List.filterMap_cons_some hcall, List.flatMap_cons, hl]
      exact congrArg (· ++ _) ((List.append_nil _).symm.trans hc)

theorem flatMap_bodyRecords_eq_nil {ι : Type} (item : HirItemId) (l : List ι)
    {call : ι → IndexCall} (h : ∀ x, (call x).bodyRecords item = []) :
    (l.map call).flatMap (IndexCall.bodyRecords item) = [] := by
  rw [List.flatMap_map, List.flatMap_eq_nil_iff]
  exact fun x _ => h x

theorem bodyRecords_childCalls (item : HirItemId) (children : List HirTreeChild)
    (owner : HirOwner) :
    (children.filterMap (childCall owner)).flatMap (IndexCall.bodyRecords item) = [] := by
  rw [List.flatMap_eq_nil_iff]
  intro call hcall
  obtain ⟨child, -, hchild⟩ := List.mem_filterMap.mp hcall
  cases child <;> cases hchild <;> rfl

theorem entryBodies_plain {ι : Type} (item : HirItemId) (node : HirTreeChild) (l : List ι)
    (child : ι → HirTreeChild) :
    (l.map fun x => (none, child x)).flatMap (entryBodies item node) = [] := by
  rw [List.flatMap_map, List.flatMap_eq_nil_iff]
  exact fun x _ => rfl

variable {item : HirItemId}

theorem made_of_children {children : List HirTreeChild}
    (he : program.entries node = children.map (none, ·))
    (h : ∀ child ∈ children, ∀ stmt, child ≠ .stmt stmt) :
    Made program item node (children.filterMap (childCall node.asOwner)) where
  visits := by
    rw [visits_childCalls _ h, HirProgram.children, he, List.map_map]
    rfl
  bodies := by
    rw [bodyRecords_childCalls, he, entryBodies_plain item node children fun child => child]

theorem made_block {block : HirBlockId} {data : HirBlock}
    (hd : program.blocks[block]? = some data) : Made program item (.block block)
      (data.stmts.map (.stmt · block) ++ data.finalExpr.toList.map (.expr · (.block block))) := by
  have he : program.entries (.block block) =
      data.stmts.map (none, .stmt ·) ++ data.finalExpr.toList.map (none, .expr ·) := by
    simp only [HirProgram.entries, hd]
  refine ⟨List.Perm.of_eq ?_, List.Perm.of_eq ?_⟩
  · simp [HirProgram.children, he, IndexCall.visits, List.flatMap_append, List.flatMap_map,
      Function.comp_def, HirTreeChild.childOwner, HirTreeChild.asOwner, ← List.map_eq_flatMap]
  · rw [he, List.flatMap_append, List.flatMap_append, entryBodies_plain, entryBodies_plain,
      flatMap_bodyRecords_eq_nil item _ fun _ => rfl,
      flatMap_bodyRecords_eq_nil item _ fun _ => rfl]

theorem made_handlerArm {arm : HirHandlerArmId} {data : HirHandlerArm}
    (hd : program.handlerArms[arm]? = some data) : Made program item (.handlerArm arm)
      (data.patterns.map (.pat · (.handlerArm arm)) ++
        data.continuation.toList.map (.pat · (.handlerArm arm)) ++
        [.body ⟨item, .handlerArm arm⟩ (.handlerArm arm) data.scope (.block data.body)]) := by
  have he : program.entries (.handlerArm arm) = data.patterns.map (none, .pattern ·) ++
      data.continuation.toList.map (none, .pattern ·) ++
      [(some (.handlerArm arm), .block data.body)] := by
    simp only [HirProgram.entries, hd]
  refine ⟨List.Perm.of_eq ?_, List.Perm.of_eq ?_⟩
  · simp [HirProgram.children, he, IndexCall.visits, List.flatMap_append, List.flatMap_map,
      Function.comp_def, HirTreeChild.childOwner, HirTreeChild.asOwner, ← List.map_eq_flatMap]
  · rw [he, List.flatMap_append, List.flatMap_append, flatMap_bodyRecords_eq_nil item _ fun _ => rfl,
      flatMap_bodyRecords_eq_nil item _ fun _ => rfl, List.flatMap_append, List.flatMap_append,
      entryBodies_plain, entryBodies_plain]
    rfl

/-- What is read off the bodies of an expression, one by one. -/
theorem flatMap_exprBodies {α : Type} {item : HirItemId} {expr : HirExprId} {owner : HirOwner}
    (data : HirExpr) {f : IndexCall → List α} {g : HirBodyKind × HirTreeChild → α}
    (hbody : ∀ kind scope target, f (.body ⟨item, kind⟩ (.expr expr) scope target) ++
      (exprBodies.targetExpr ⟨item, kind⟩ target).toList.flatMap f = [g (kind, target.child)])
    (hlimit : ∀ kind limit, f (.stageLimit ⟨item, kind⟩ expr owner limit) ++
      f (.expr limit (.body ⟨item, kind⟩)) = [g (kind, .expr limit)]) :
    (exprBodies item expr owner data).flatMap (fun body => (body.1 :: body.2.toList).flatMap f) =
      (data.bodies expr).map g := by
  unfold exprBodies HirExpr.bodies
  cases data with
  | lambda params body scope => simp [hbody]
  | «match» scrutinee arms =>
    simp [List.flatMap_map, hbody, ← List.map_eq_flatMap, Function.comp_def]
  | stageCompose stages | pipeline input stages =>
    simp [List.flatMap_map, List.flatMap_assoc, List.map_flatMap, hlimit, ← List.map_eq_flatMap,
      Function.comp_def]
  | _ => rfl

theorem visits_exprBodies (item : HirItemId) (expr : HirExprId) (owner : HirOwner)
    (data : HirExpr) :
    (exprBodies item expr owner data).flatMap
        (fun body => (body.1 :: body.2.toList).flatMap IndexCall.visits) =
      (data.bodies expr).map fun body => (.body ⟨item, body.1⟩, body.2) := by
  apply flatMap_exprBodies data
  · intro kind scope target
    cases target <;> rfl
  · exact fun _ _ => rfl

theorem bodyRecords_exprBodies (item : HirItemId) (expr : HirExprId) (owner : HirOwner)
    (data : HirExpr) :
    (exprBodies item expr owner data).flatMap
        (fun body => (body.1 :: body.2.toList).flatMap (IndexCall.bodyRecords item)) =
      (data.bodies expr).map fun body => .body item ⟨item, body.1⟩ (.expr expr) body.2 := by
  apply flatMap_exprBodies data
  · intro kind scope target
    cases target <;> rfl
  · exact fun _ _ => rfl

theorem perm_exprCalls (bodies : List (IndexCall × Option IndexCall))
    (children : List IndexCall) :
    (bodies.map Prod.fst ++ (children.filter fun call => !call.isExpr).reverse ++
      children.filter IndexCall.isExpr ++ (bodies.filterMap Prod.snd).reverse).Perm
        (bodies.flatMap (fun body => body.1 :: body.2.toList) ++ children) := by
  have hc : ((children.filter fun call => !call.isExpr).reverse ++
      children.filter IndexCall.isExpr).Perm children :=
    ((List.reverse_perm _).append_right _).trans
      (List.perm_append_comm.trans (List.filter_append_perm _ _))
  have hs : (children ++ bodies.filterMap Prod.snd).Perm (bodies.filterMap Prod.snd ++ children) :=
    List.perm_append_comm
  have hall := (hc.append (List.reverse_perm (bodies.filterMap Prod.snd))).trans hs
  refine List.Perm.trans ?_ ((perm_flatMap_toList bodies).append_right children)
  simpa only [List.append_assoc] using hall.append_left (bodies.map Prod.fst)

theorem made_expr {expr : HirExprId} (hd : program.exprs[expr]? = some data) (owner : HirOwner) :
    Made program item (.expr expr)
      ((exprBodies item expr owner data).flatMap (fun body => body.1 :: body.2.toList) ++
        data.children.filterMap (childCall (.expr expr))) := by
  have he : program.entries (.expr expr) =
      data.children.map (none, ·) ++ (data.bodies expr).map fun body => (some body.1, body.2) := by
    simp only [HirProgram.entries, hd]
  have hstmt : ∀ child ∈ data.children, ∀ stmt, child ≠ .stmt stmt :=
    fun child => children_ne_stmt_of_expr
  constructor
  · rw [List.flatMap_append, List.flatMap_assoc, visits_exprBodies, visits_childCalls _ hstmt,
      HirProgram.children, he]
    refine List.perm_append_comm.trans (List.Perm.of_eq ?_)
    simp [HirTreeChild.childOwner, HirTreeChild.asOwner, Function.comp_def]
  · rw [List.flatMap_append, bodyRecords_childCalls, List.append_nil, List.flatMap_assoc,
      bodyRecords_exprBodies, he, List.flatMap_append,
      entryBodies_plain item _ _ fun child => child, List.nil_append, List.flatMap_map,
      List.map_eq_flatMap]
    rfl

/-- What the visit of a node comes to. -/
inductive Visited (program : HirProgram) (item : HirItemId) (builder : HirTreeIndexBuilder)
    (visit : HirOwner × HirTreeChild) : HirTreeIndexBuilder × List IndexCall → Prop where
  | accept {builder' : HirTreeIndexBuilder} {made : List IndexCall} :
    builder'.tables = builder.tables → (builder'.diagnostics = [] → builder.diagnostics = []) →
    (∀ o, builder.owner? visit.2 = some o → o = visit.1) →
    builder'.owner? = Function.update builder.owner? visit.2 (some visit.1) →
    program.has visit.2 = true → Made program item visit.2 made →
    Visited program item builder visit (builder', made)
  | refuse {builder' : HirTreeIndexBuilder} : builder'.tables = builder.tables →
    builder'.diagnostics ≠ [] →
    (builder'.owner? = Function.update builder.owner? visit.2 (some visit.1) ∨
      builder'.owner? = builder.owner?) → Visited program item builder visit (builder', [])

section
variable {b b' : HirTreeIndexBuilder} {visit : HirOwner × HirTreeChild}

theorem Inserted.visited {made : List IndexCall} (h : Inserted builder visit (b, true))
    (hq : b.Quiet b') (hhas : program.has visit.2 = true) (hm : Made program item visit.2 made) :
    Visited program item builder visit (b', made) := by
  cases h with
  | accept ht hd hv ho =>
    exact .accept (hq.tables.trans ht) (fun h => hd (hq.clean h)) hv (hq.owner.trans ho) hhas hm

/-- The node is recorded, but not there. -/
theorem Inserted.missing (h : Inserted builder visit (b, true)) (hq : b.Quiet b')
    (diagnostic : HirTreeIndexDiagnostic) :
    Visited program item builder visit (b'.report diagnostic, []) := by
  cases h with
  | accept ht _ _ ho =>
    exact .refuse (hq.tables.trans ht) (report_diagnostics_ne_nil _) (Or.inl (hq.owner.trans ho))

theorem Inserted.refused (h : Inserted builder visit (b, false)) (hq : b.Quiet b') :
    Visited program item builder visit (b', []) := by
  cases h with
  | refuse ht hd ho =>
    refine .refuse (hq.tables.trans ht) (fun h => hd (hq.clean h)) ?_
    rwa [hq.owner]

end

theorem visited_indexBlock (block : HirBlockId) (owner : HirOwner) :
    Visited program item builder (owner, .block block)
      (builder.indexBlock program block owner) := by
  have hi : Inserted builder (owner, .block block) _ := inserted_block block owner
  unfold indexBlock
  generalize builder.insertBlockOwner block owner = r at hi
  obtain ⟨b, _ | _⟩ := r
  · exact hi.refused (.refl b)
  · dsimp only
    split
    · exact hi.missing (.refl b) _
    · next data hdata =>
      exact hi.visited (quiet_insertScopeOwner _ _) (has_of_getElem? hdata) (made_block hdata)

theorem visited_indexStmt (stmt : HirStmtId) (block : HirBlockId) :
    Visited program item builder (.block block, .stmt stmt)
      (builder.indexStmt program item stmt block) := by
  have hi : Inserted builder (.block block, .stmt stmt) _ := inserted_stmt stmt block
  unfold indexStmt
  generalize builder.insertStmtBlock stmt block = r at hi
  obtain ⟨b, _ | _⟩ := r
  · exact hi.refused (.refl b)
  · dsimp only
    split
    · exact hi.missing (.refl b) _
    · next data hdata =>
      have he : program.entries (.stmt stmt) = data.children.map (none, ·) := by
        simp only [HirProgram.entries, hdata]
      exact hi.visited ⟨rfl, rfl, id⟩ (has_of_getElem? hdata)
        (made_of_children he fun child => children_ne_stmt_of_stmt)

theorem visited_indexPat (pat : HirPatId) (owner : HirOwner) :
    Visited program item builder (owner, .pattern pat) (builder.indexPat program pat owner) := by
  have hi : Inserted builder (owner, .pattern pat) _ := inserted_pat pat owner
  unfold indexPat
  generalize builder.insertPatOwner pat owner = r at hi
  obtain ⟨b, _ | _⟩ := r
  · exact hi.refused (.refl b)
  · dsimp only
    split
    · exact hi.missing (.refl b) _
    · next data hdata =>
      have he : program.entries (.pattern pat) = data.children.map (none, ·) := by
        simp only [HirProgram.entries, hdata]
      exact hi.visited (.refl b) (has_of_getElem? hdata)
        (made_of_children he fun child => children_ne_stmt_of_pat)

theorem visited_indexHandlerArm (arm : HirHandlerArmId) (owner : HirOwner) :
    Visited program item builder (owner, .handlerArm arm)
      (builder.indexHandlerArm program item arm owner) := by
  have hi : Inserted builder (owner, .handlerArm arm) (builder.insertHandlerArmOwner program arm
    owner) := inserted_handlerArm arm owner
  unfold indexHandlerArm
  generalize builder.insertHandlerArmOwner program arm owner = r at hi
  obtain ⟨b, _ | _⟩ := r
  · exact hi.refused (quiet_report _)
  · dsimp only
    split
    · exact hi.missing (.refl b) _
    · next data hdata =>
      exact hi.visited (quiet_insertScopeOwner _ _) (has_of_getElem? hdata) (made_handlerArm hdata)

theorem visited_indexExpr (expr : HirExprId) (owner : HirOwner) :
    Visited program item builder (owner, .expr expr)
      (builder.indexExpr program item expr owner) := by
  have hi : Inserted builder (owner, .expr expr) (builder.insertExprOwner program expr owner) :=
    inserted_expr expr owner
  unfold indexExpr
  generalize builder.insertExprOwner program expr owner = r at hi
  obtain ⟨b, _ | _⟩ := r
  · exact hi.refused (.refl b)
  · dsimp only
    split
    · exact hi.missing (by exact ⟨rfl, rfl, id⟩) _
    · next data hdata =>
      have hp := perm_exprCalls (exprBodies item expr owner data)
        (data.children.filterMap (childCall (.expr expr)))
      have hm : Made program item (.expr expr) _ := made_expr hdata owner
      exact hi.visited ⟨rfl, rfl, id⟩ (has_of_getElem? hdata)
        ⟨(hp.flatMap_right _).trans hm.visits, (hp.flatMap_right _).trans hm.bodies⟩

end HirTreeIndexBuilder
end EtasFrontend.Hir
