import EtasFrontend.Hir.TreeForest

/-! The visitor of a tree, with the hooks at the entry and at the exit of every frame. -/
namespace EtasFrontend.Hir
open Lib Relation

inductive BodyTraversal where
  | direct
  | owned

section
variable (program : HirProgram) (index : HirTreeIndex)

/-- The bodies that an expression or an arm keeps apart. -/
def separateBodies : WalkFrame → List WalkFrame
  | .node (.expr e) => ((index.ownedBodies.get (.expr e)).getD []).map .body
  | .node (.handlerArm arm) => ((index.ownedBodies.get (.handlerArm arm)).getD []).map .body
  | _ => []

/-- What the entry of a frame pushes, from the top of the stack. -/
def treeChildren (bodies : BodyTraversal) (frame : WalkFrame) : List WalkFrame :=
  match bodies with
  | .direct => frameChildren program index frame
  | .owned => frameChildren program index frame ++ separateBodies index frame

/-- A frame that is not there panics. -/
def enterTree (bodies : BodyTraversal) (frame : WalkFrame) : Except Halt (List WalkFrame) :=
  if frameExists program index frame then .ok (treeChildren program index bodies frame)
  else .error .panic

def walkWithMode {σ : Type} (visitor : σ → Hook WalkFrame → σ) (bodies : BodyTraversal)
    (fuel : ℕ) (root : WalkFrame) (s : σ) : Except Halt σ :=
  traverse (enterTree program index bodies) visitor .outOfFuel fuel [.enter root] s

/-- The hooks that a walk calls, whoever the visitor is. -/
def Calls (bodies : BodyTraversal) (root : WalkFrame) (hooks : List (Hook WalkFrame)) : Prop :=
  ∀ (σ : Type) (visitor : σ → Hook WalkFrame → σ) (s : σ), ∃ bound, ∀ fuel ≥ bound,
    walkWithMode program index visitor bodies fuel root s = .ok (hooks.foldl visitor s)

/-- The hooks are nested, and each of the frames is entered once and left once. -/
structure VisitsOnce (frames : WalkFrame → Prop) (hooks : List (Hook WalkFrame)) : Prop where
  nested : Balanced Hook.Pair (fun _ => False) hooks
  once : ∀ frame, frames frame →
    (entered hooks).count frame = 1 ∧ (exited hooks).count frame = 1

/-- What the index assigns to an item or to its child items. -/
def Assigned (item : HirItemId) (frame : WalkFrame) : Prop :=
  ∃ owner, (owner = item ∨ owner ∈ (index.itemChildren.get item).getD []) ∧
    OwnedBy index frame (.item owner)

/-- `walk_item` visits all that is assigned to the item. -/
def WalksItem (item : HirItemId) : Prop :=
  ∃ hooks, Calls program index .direct (.item item) hooks ∧ VisitsOnce (Assigned index item) hooks

/-- `walk_expr_tree` visits the frames whose chain of owners passes through the expression, and no
others. -/
def WalksExprTree (expr : HirExprId) : Prop :=
  ∃ hooks, Calls program index .owned (.node (.expr expr)) hooks ∧
    VisitsOnce (OwnedBy index · (.node (.expr expr))) hooks ∧
    ∀ frame ∈ entered hooks, OwnedBy index frame (.node (.expr expr))

def ownChild : Option HirBodyKind × HirTreeChild → Option HirTreeChild
  | (none, child) => some child
  | (some _, _) => none

/-- The children of a node that are in no body of their own. -/
def HirProgram.ownChildren (node : HirTreeChild) : List HirTreeChild :=
  (program.entries node).filterMap ownChild

/-- A node lists no child twice; an arm, whose patterns are not walked, lists none. -/
structure HirProgram.ListsOnce (node : HirTreeChild) : Prop where
  nodup : (program.ownChildren node).Nodup
  arm : ∀ arm, node = .handlerArm arm → program.ownChildren node = []

end

variable {program : HirProgram} {index : HirTreeIndex}

theorem Calls.unique {bodies : BodyTraversal} {root : WalkFrame}
    {hooks hooks' : List (Hook WalkFrame)} (h : Calls program index bodies root hooks)
    (h' : Calls program index bodies root hooks') : hooks = hooks' := by
  obtain ⟨bound, hrun⟩ := h (List (Hook WalkFrame)) noteHook []
  obtain ⟨bound', hrun'⟩ := h' (List (Hook WalkFrame)) noteHook []
  have hfuel := hrun (max bound bound') (by omega)
  rw [hrun' (max bound bound') (by omega), foldl_noteHook, foldl_noteHook] at hfuel
  exact (Except.ok.inj hfuel).symm

theorem visitsOnce_of_count {bodies : BodyTraversal} {root : WalkFrame}
    {hooks : List (Hook WalkFrame)} {frames : WalkFrame → Prop}
    (htraverses : Traverses (treeChildren program index bodies) [root] hooks)
    (hcount : ∀ frame, frames frame → (entered hooks).count frame = 1) :
    VisitsOnce frames hooks := by
  refine ⟨htraverses.balanced, fun frame hframe => ⟨hcount frame hframe, ?_⟩⟩
  rw [htraverses.exited_perm.count_eq]
  exact hcount frame hframe

variable {node child : HirTreeChild}

theorem mem_ownChildren :
    child ∈ program.ownChildren node ↔ (none, child) ∈ program.entries node := by
  rw [HirProgram.ownChildren, List.mem_filterMap]
  constructor
  · rintro ⟨⟨kind, other⟩, hentry, heq⟩
    cases kind with
    | none =>
      cases heq
      exact hentry
    | some kind => cases heq
  · exact fun hentry => ⟨_, hentry, rfl⟩

theorem filterMap_ownChild {ι : Type} (l : List ι) (child : ι → HirTreeChild) :
    (l.map fun x => (none, child x)).filterMap ownChild = l.map child := by
  rw [List.filterMap_map]
  exact congrFun (List.filterMap_eq_map (f := child)) l

theorem filterMap_ownChild_self (children : List HirTreeChild) :
    (children.map fun child => (none, child)).filterMap ownChild = children := by
  have h := filterMap_ownChild children id
  rwa [List.map_id] at h

theorem directChildren_block (block : HirBlockId) :
    program.directChildren (.block block) =
      (program.ownChildren (.block block)).filter program.has := by
  simp only [HirProgram.directChildren, HirProgram.ownChildren, HirProgram.entries]
  cases program.blocks[block]? with
  | none => rfl
  | some data => simp only [List.filterMap_append, filterMap_ownChild]

theorem directChildren_expr (expr : HirExprId) :
    program.directChildren (.expr expr) = program.ownChildren (.expr expr) := by
  simp only [HirProgram.directChildren, HirProgram.ownChildren, HirProgram.entries]
  cases program.exprs[expr]? with
  | none => rfl
  | some data =>
    have hbodies : ((data.bodies expr).map fun body => (some body.1, body.2)).filterMap
        ownChild = [] := by
      rw [List.filterMap_map, List.filterMap_eq_nil_iff]
      exact fun body _ => rfl
    simp only [List.filterMap_append, filterMap_ownChild_self, hbodies, List.append_nil]

theorem directChildren_stmt (stmt : HirStmtId) :
    program.directChildren (.stmt stmt) = program.ownChildren (.stmt stmt) := by
  simp only [HirProgram.directChildren, HirProgram.ownChildren, HirProgram.entries]
  cases program.stmts[stmt]? with
  | none => rfl
  | some data => simp only [filterMap_ownChild_self]

theorem directChildren_pattern (pat : HirPatId) :
    program.directChildren (.pattern pat) = program.ownChildren (.pattern pat) := by
  simp only [HirProgram.directChildren, HirProgram.ownChildren, HirProgram.entries]
  cases program.pats[pat]? with
  | none => rfl
  | some data => simp only [filterMap_ownChild_self]

theorem entry_of_directChildren
    (h : child ∈ program.directChildren node) : (none, child) ∈ program.entries node := by
  rw [← mem_ownChildren]
  cases node with
  | block block =>
    rw [directChildren_block] at h
    exact (List.mem_filter.mp h).1
  | stmt stmt => rwa [directChildren_stmt] at h
  | expr expr => rwa [directChildren_expr] at h
  | handlerArm arm => cases h
  | pattern pat => rwa [directChildren_pattern] at h

variable {node : HirTreeChild}

theorem directChildren_eq (harm : ∀ arm, node ≠ .handlerArm arm)
    (hhas : ∀ child ∈ program.ownChildren node, program.has child = true) :
    program.directChildren node = program.ownChildren node := by
  cases node with
  | block block =>
    rw [directChildren_block]
    exact List.filter_eq_self.mpr hhas
  | stmt stmt => exact directChildren_stmt stmt
  | expr expr => exact directChildren_expr expr
  | handlerArm arm => exact absurd rfl (harm arm)
  | pattern pat => exact directChildren_pattern pat

theorem listsOnce_iff (hhas : ∀ child ∈ program.ownChildren node, program.has child = true) :
    program.ListsOnce node ↔
      ∀ child ∈ program.ownChildren node, (program.directChildren node).count child = 1 := by
  by_cases harm : ∃ arm, node = .handlerArm arm
  · obtain ⟨arm, rfl⟩ := harm
    constructor
    · intro hlists child hchild
      rw [hlists.arm arm rfl] at hchild
      cases hchild
    · intro hcount
      have hnil : program.ownChildren (.handlerArm arm) = [] := by
        refine List.eq_nil_iff_forall_not_mem.mpr fun child hchild => ?_
        cases hcount child hchild
      exact ⟨by rw [hnil]; exact List.nodup_nil, fun _ _ => hnil⟩
  · have hne : ∀ arm, node ≠ .handlerArm arm := fun arm heq => harm ⟨arm, heq⟩
    rw [directChildren_eq hne hhas, ← List.nodup_iff_count_eq_one]
    exact ⟨fun hlists => hlists.nodup, fun hnodup => ⟨hnodup, fun arm heq => absurd heq (hne arm)⟩⟩

theorem frameChildren_item (i : HirItemId) : frameChildren program index (.item i) =
    (index.listed (.bodies i) ++ index.listed (.items i)).filter (frameExists program index) := by
  rw [List.filter_append, HirTreeIndex.listed, HirTreeIndex.listed, List.filter_map,
    List.filter_map]
  rfl

theorem frameChildren_body (ref : HirBodyRef) : frameChildren program index (.body ref) =
    (index.listed (.exprs ref) ++ index.listed (.blocks ref)).filter
      (frameExists program index) := by
  have hlisted : index.listed (.exprs ref) ++ index.listed (.blocks ref) =
      (((index.bodyExprs.get ref).getD []).map HirTreeChild.expr ++
        ((index.bodyBlocks.get ref).getD []).map HirTreeChild.block).map .node := by
    rw [List.map_append, List.map_map, List.map_map]
    rfl
  rw [hlisted, List.filter_map]
  rfl

theorem treeChildren_body (bodies : BodyTraversal) (ref : HirBodyRef) :
    treeChildren program index bodies (.body ref) = frameChildren program index (.body ref) := by
  cases bodies with
  | direct => rfl
  | owned => exact List.append_nil _

theorem treeChildren_item (bodies : BodyTraversal) (i : HirItemId) :
    treeChildren program index bodies (.item i) = frameChildren program index (.item i) := by
  cases bodies with
  | direct => rfl
  | owned => exact List.append_nil _

theorem kind_of_entry {kind : HirBodyKind} (h : (some kind, child) ∈ program.entries node) :
    (∃ e, node = .expr e) ∨ ∃ arm, node = .handlerArm arm := by
  cases node with
  | expr e => exact .inl ⟨e, rfl⟩
  | handlerArm arm => exact .inr ⟨arm, rfl⟩
  | block block =>
    simp only [HirProgram.entries] at h
    split at h <;> simp at h
  | stmt stmt =>
    simp only [HirProgram.entries] at h
    split at h <;> simp at h
  | pattern pat =>
    simp only [HirProgram.entries] at h
    split at h <;> simp at h

namespace IndexLog
variable {log : List HirRecord} (h : IndexLog program index log)

include h

variable {item : HirItemId} {owner : HirOwner}

theorem has_of_node (hnode : .node item owner node ∈ log) : program.has node = true :=
  h.logs.admitted _ hnode

theorem exists_of_parent {frame parent : WalkFrame} (hparent : index.parent frame = some parent) :
    frameExists program index frame = true := by
  obtain ⟨owner, howner, -⟩ := Option.bind_eq_some_iff.mp hparent
  cases frame with
  | item i => cases howner
  | body ref =>
    have hsome : index.bodyOwner.get ref = some owner := howner
    rw [frameExists, hsome]
    rfl
  | node node =>
    obtain ⟨item, hnode⟩ := h.owner_node.mp howner
    exact h.has_of_node hnode

variable {i : HirItemId}

theorem child_of_item {child : WalkFrame} (hchild : child ∈ frameChildren program index (.item i)) :
    (∃ ref owner target, child = .body ref ∧ .body i ref owner target ∈ log) ∨
      ∃ position callable, child = .item callable ∧ .callable i position callable ∈ log := by
  rw [frameChildren_item] at hchild
  rcases List.mem_append.mp (List.mem_filter.mp hchild).1 with hlisted | hlisted
  · obtain ⟨record, hrecord, hpushed⟩ := h.mem_listed.mp hlisted
    cases hpushed
    exact .inl ⟨_, _, _, rfl, hrecord⟩
  · obtain ⟨record, hrecord, hpushed⟩ := h.mem_listed.mp hlisted
    cases hpushed
    exact .inr ⟨_, _, rfl, hrecord⟩

variable {ref : HirBodyRef}

theorem child_of_body {child : WalkFrame}
    (hchild : child ∈ frameChildren program index (.body ref)) :
    ∃ item owner target, child = .node target ∧ .body item ref owner target ∈ log := by
  rw [frameChildren_body] at hchild
  rcases List.mem_append.mp (List.mem_filter.mp hchild).1 with hlisted | hlisted
  · obtain ⟨record, hrecord, hpushed⟩ := h.mem_listed.mp hlisted
    cases hpushed
    obtain ⟨item, owner, hbody⟩ := h.body_of_root hrecord
    exact ⟨item, owner, _, rfl, hbody⟩
  · obtain ⟨record, hrecord, hpushed⟩ := h.mem_listed.mp hlisted
    cases hpushed
    obtain ⟨item, owner, hbody⟩ := h.body_of_root hrecord
    exact ⟨item, owner, _, rfl, hbody⟩

theorem separate_body {frame child : WalkFrame} (hchild : child ∈ separateBodies index frame) :
    ∃ (item : HirItemId) (node : HirTreeChild) (ref : HirBodyRef) (target : HirTreeChild),
      frame = .node node ∧ child = .body ref ∧ .body item ref node.asOwner target ∈ log := by
  have hlisted : ∀ node : HirTreeChild, child ∈ index.listed (.owned node.asOwner) →
      ∃ item ref target, child = .body ref ∧ .body item ref node.asOwner target ∈ log := by
    intro node hmem
    obtain ⟨record, hrecord, hpushed⟩ := h.mem_listed.mp hmem
    generalize node.asOwner = owner at hpushed hrecord ⊢
    cases hpushed
    exact ⟨_, _, _, rfl, hrecord⟩
  cases frame with
  | item i => cases hchild
  | body ref => cases hchild
  | node node =>
    cases node with
    | expr e =>
      obtain ⟨item, ref, target, hframe, hbody⟩ := hlisted (.expr e) hchild
      exact ⟨item, .expr e, ref, target, rfl, hframe, hbody⟩
    | handlerArm arm =>
      obtain ⟨item, ref, target, hframe, hbody⟩ := hlisted (.handlerArm arm) hchild
      exact ⟨item, .handlerArm arm, ref, target, rfl, hframe, hbody⟩
    | block | stmt | pattern => cases hchild

variable {bodies : BodyTraversal}

theorem parent_of_child {frame grandparent child : WalkFrame}
    (hframe : index.parent frame = some grandparent)
    (hchild : child ∈ treeChildren program index bodies frame) :
    index.parent child = some frame := by
  have hdirect : child ∈ frameChildren program index frame → index.parent child = some frame := by
    intro hchild
    cases frame with
    | item i => cases hframe
    | body ref =>
      obtain ⟨item, owner, target, rfl, hbody⟩ := h.child_of_body hchild
      exact h.parent_node (h.target_of_body hbody).1
    | node node =>
      obtain ⟨child, hlisted, rfl⟩ := List.mem_map.mp hchild
      obtain ⟨owner, howner, -⟩ := Option.bind_eq_some_iff.mp hframe
      obtain ⟨item, hnode⟩ := h.owner_node.mp howner
      have hrecord := h.child_of_node hnode (entry_of_directChildren hlisted)
      rw [h.parent_node hrecord, HirTreeChild.frame_asOwner]
  cases bodies with
  | direct => exact hdirect hchild
  | owned =>
    rcases List.mem_append.mp hchild with hchild | hchild
    · exact hdirect hchild
    · obtain ⟨item, node, ref, target, rfl, rfl, hbody⟩ := h.separate_body hchild
      rw [h.parent_body hbody, HirTreeChild.frame_asOwner]

/-! How often a frame lists another one. -/

theorem nodup_frameChildren_item (i : HirItemId) :
    (frameChildren program index (.item i)).Nodup := by
  rw [frameChildren_item]
  refine List.Nodup.filter _ ((h.listed_nodup _).append (h.listed_nodup _) ?_)
  intro frame hbody hitem
  obtain ⟨record, -, hpushed⟩ := h.mem_listed.mp hbody
  obtain ⟨record', -, hpushed'⟩ := h.mem_listed.mp hitem
  cases hpushed
  cases hpushed'

theorem nodup_frameChildren_body (ref : HirBodyRef) :
    (frameChildren program index (.body ref)).Nodup := by
  rw [frameChildren_body]
  refine List.Nodup.filter _ ((h.listed_nodup _).append (h.listed_nodup _) ?_)
  intro frame hexpr hblock
  obtain ⟨record, -, hpushed⟩ := h.mem_listed.mp hexpr
  obtain ⟨record', -, hpushed'⟩ := h.mem_listed.mp hblock
  cases hpushed
  cases hpushed'

theorem count_body_of_item {target : HirTreeChild} (hbody : .body i ref owner target ∈ log) :
    (frameChildren program index (.item i)).count (.body ref) = 1 := by
  refine List.count_eq_one_of_mem (h.nodup_frameChildren_item i) ?_
  rw [frameChildren_item]
  refine List.mem_filter.mpr ⟨List.mem_append_left _ (h.mem_listed.mpr ⟨_, hbody, .bodies⟩), ?_⟩
  have howner : index.bodyOwner.get ref = some owner := h.owner_body.mpr ⟨i, target, hbody⟩
  rw [frameExists, howner]
  rfl

theorem count_item_of_item {i callable : HirItemId} {position : ℕ}
    (hcallable : .callable i position callable ∈ log) :
    (frameChildren program index (.item i)).count (.item callable) = 1 := by
  refine List.count_eq_one_of_mem (h.nodup_frameChildren_item i) ?_
  rw [frameChildren_item]
  refine List.mem_filter.mpr
    ⟨List.mem_append_right _ (h.mem_listed.mpr ⟨_, hcallable, .items⟩), ?_⟩
  obtain ⟨decl, hdecl, -⟩ := h.callable_body hcallable
  exact has_of_getElem? hdecl

theorem count_node_of_body {target : HirTreeChild} (hbody : .body item ref owner target ∈ log) :
    (frameChildren program index (.body ref)).count (.node target) = 1 := by
  refine List.count_eq_one_of_mem (h.nodup_frameChildren_body ref) ?_
  rw [frameChildren_body]
  obtain ⟨hnode, hroot⟩ := h.target_of_body hbody
  refine List.mem_filter.mpr ⟨?_, h.has_of_node hnode⟩
  cases target with
  | expr e => exact List.mem_append_left _ (h.mem_listed.mpr ⟨_, hroot, .exprs⟩)
  | block b => exact List.mem_append_right _ (h.mem_listed.mpr ⟨_, hroot, .blocks⟩)
  | stmt | handlerArm | pattern => exact absurd (h.logs.admitted _ hbody) id

theorem count_separateBodies {node target : HirTreeChild}
    (hbody : .body item ref node.asOwner target ∈ log) :
    (separateBodies index (.node node)).count (.body ref) = 1 := by
  have hmem : .body ref ∈ index.listed (.owned node.asOwner) :=
    h.mem_listed.mpr ⟨_, hbody, .owned⟩
  have hcount := List.count_eq_one_of_mem (h.listed_nodup (.owned node.asOwner)) hmem
  obtain ⟨owner, -, hasks⟩ := h.asker_of_body hbody
  rcases kind_of_entry (entry_of_asked_body (hasks List.mem_cons_self)) with ⟨e, rfl⟩ | ⟨arm, rfl⟩
  · exact hcount
  · exact hcount

theorem acc_of_record {record : HirRecord}
    (hacc : Acc (fun next record => next ∈ program.asks record) record) (hrecord : record ∈ log)
    (hnode : record = .node item owner node) :
    Acc (fun child parent => child ∈ treeChildren program index bodies parent) (.node node) := by
  induction hacc generalizing item owner node with
  | intro record _ ih =>
    subst hnode
    have hdirect : ∀ child ∈ frameChildren program index (.node node),
        Acc (fun child parent => child ∈ treeChildren program index bodies parent) child := by
      intro child hchild
      obtain ⟨child, hlisted, rfl⟩ := List.mem_map.mp hchild
      have hentry := entry_of_directChildren hlisted
      exact ih _ (asks_child hentry) (h.child_of_node hrecord hentry) rfl
    refine ⟨_, fun child hchild => ?_⟩
    cases bodies with
    | direct => exact hdirect child hchild
    | owned =>
      rcases List.mem_append.mp hchild with hchild | hchild
      · exact hdirect child hchild
      · obtain ⟨i, node', ref, target, heq, rfl, hbody⟩ := h.separate_body hchild
        cases heq
        obtain ⟨owner', hparent, hasks⟩ := h.asker_of_body hbody
        obtain ⟨rfl, rfl⟩ := h.node_unique hrecord hparent
        -- the body comes between the node and its target
        refine ⟨_, fun child hchild => ?_⟩
        rw [treeChildren_body] at hchild
        obtain ⟨j, o, target', rfl, hbody'⟩ := h.child_of_body hchild
        cases h.body_unique hbody hbody'
        exact ih _ (hasks (List.mem_cons_of_mem _ List.mem_cons_self))
          (h.target_of_body hbody).1 rfl

theorem acc_of_node (hnode : .node item owner node ∈ log) :
    Acc (fun child parent => child ∈ treeChildren program index bodies parent) (.node node) :=
  h.acc_of_record (h.does.acc _ hnode) hnode rfl

theorem acc_of_item (i : HirItemId) :
    Acc (fun child parent => child ∈ treeChildren program index .direct parent) (.item i) := by
  have hbody : ∀ ref, Acc (fun child parent => child ∈ treeChildren program index .direct parent)
      (.body ref) := by
    refine fun ref => ⟨_, fun child hchild => ?_⟩
    obtain ⟨item, owner, target, rfl, hbody⟩ := h.child_of_body hchild
    exact h.acc_of_node (h.target_of_body hbody).1
  have hitem : ∀ i, (∀ position callable, .callable i position callable ∉ log) →
      Acc (fun child parent => child ∈ treeChildren program index .direct parent) (.item i) := by
    refine fun i hnone => ⟨_, fun child hchild => ?_⟩
    rcases h.child_of_item hchild with ⟨ref, _, _, rfl, -⟩ | ⟨position, callable, -, hcallable⟩
    · exact hbody ref
    · exact absurd hcallable (hnone position callable)
  refine ⟨_, fun child hchild => ?_⟩
  rcases h.child_of_item hchild with ⟨ref, _, _, rfl, -⟩ | ⟨position, callable, rfl, hcallable⟩
  · exact hbody ref
  · exact hitem callable (h.callable_of_flow hcallable)

/-- An item, or a frame with a recorded owner. -/
def Met (index : HirTreeIndex) (frame : WalkFrame) : Prop :=
  (∃ i, frame = .item i) ∨ ∃ parent, index.parent frame = some parent

theorem met_child {frame child : WalkFrame} (hmet : Met index frame)
    (hchild : child ∈ treeChildren program index bodies frame) :
    Met index child ∧ frameExists program index child = true := by
  rcases hmet with ⟨i, rfl⟩ | ⟨parent, hparent⟩
  · rw [treeChildren_item] at hchild
    have hexists : frameExists program index child = true := by
      rw [frameChildren_item] at hchild
      exact (List.mem_filter.mp hchild).2
    rcases h.child_of_item hchild with ⟨ref, owner, target, rfl, hbody⟩ | ⟨_, callable, rfl, -⟩
    · have hparent := h.parent_body hbody
      rcases h.owner_of_body hbody with rfl | ⟨node, rfl⟩
      · exact ⟨.inr ⟨_, hparent⟩, hexists⟩
      · exact ⟨.inr ⟨_, hparent.trans (HirTreeChild.frame_asOwner node)⟩, hexists⟩
    · exact ⟨.inl ⟨callable, rfl⟩, hexists⟩
  · have hchildParent := h.parent_of_child hparent hchild
    exact ⟨.inr ⟨frame, hchildParent⟩, h.exists_of_parent hchildParent⟩

theorem met_below {root frame : WalkFrame} (hroot : Met index root)
    (hbelow : Below (treeChildren program index bodies) root frame) : Met index frame := by
  induction hbelow with
  | refl => exact hroot
  | tail _ hchild ih => exact (h.met_child ih hchild).1

theorem exists_hooks {root : WalkFrame} (hroot : Met index root)
    (hexists : frameExists program index root = true)
    (hacc : Acc (fun child parent => child ∈ treeChildren program index bodies parent) root) :
    ∃ hooks, Traverses (treeChildren program index bodies) [root] hooks ∧
      Calls program index bodies root hooks := by
  have hall : ∀ frame ∈ [root],
      Acc (fun child parent => child ∈ treeChildren program index bodies parent) frame := by
    intro frame hframe
    rw [List.mem_singleton.mp hframe]
    exact hacc
  obtain ⟨hooks, htraverses⟩ := exists_traverses hall
  have hnext : ∀ frame ∈ entered hooks, enterTree program index bodies frame =
      .ok (treeChildren program index bodies frame) := by
    intro frame hframe
    obtain ⟨first, hfirst, hbelow⟩ := htraverses.mem_entered hframe
    rw [List.mem_singleton.mp hfirst] at hbelow
    refine if_pos ?_
    rcases ReflTransGen.cases_tail hbelow with rfl | ⟨parent, hparent, hchild⟩
    · exact hexists
    · exact (h.met_child (h.met_below hroot hparent) hchild).2
  exact ⟨hooks, htraverses, fun σ visitor s => ⟨hooks.length, fun fuel hfuel =>
    htraverses.returns hnext s hfuel⟩⟩

variable {parent : WalkFrame}

theorem count_body_of_owned (hparent : index.parent (.body ref) = some parent)
    (howned : OwnedBy index parent (.node node)) :
    (treeChildren program index .owned parent).count (.body ref) = 1 := by
  obtain ⟨owner, howner, hframe⟩ := Option.bind_eq_some_iff.mp hparent
  obtain ⟨item, target, hbody⟩ := h.owner_body.mp howner
  rcases h.owner_of_body hbody with rfl | ⟨lister, rfl⟩
  · cases hframe
    cases howned.eq_of_item
  · rw [HirTreeChild.frame_asOwner] at hframe
    cases hframe
    have hnot : .body ref ∉ frameChildren program index (.node lister) := by
      intro hmem
      obtain ⟨_, _, heq⟩ := List.mem_map.mp hmem
      cases heq
    rw [treeChildren, List.count_append, List.count_eq_zero_of_not_mem hnot,
      h.count_separateBodies hbody]

/-! How often a walk enters a frame. -/

theorem record_of_parent (hparent : index.parent (.node node) = some parent) :
    ∃ item owner, .node item owner node ∈ log ∧ owner.frame = some parent := by
  obtain ⟨owner, howner, hframe⟩ := Option.bind_eq_some_iff.mp hparent
  obtain ⟨item, hnode⟩ := h.owner_node.mp howner
  exact ⟨item, owner, hnode, hframe⟩

theorem listsOnce_iff_count (hnode : .node item owner node ∈ log) : program.ListsOnce node ↔
      ∀ child, (none, child) ∈ program.entries node →
        (program.directChildren node).count child = 1 := by
  have hhas : ∀ child ∈ program.ownChildren node, program.has child = true := fun child hchild =>
    h.has_of_node (h.child_of_node hnode (mem_ownChildren.mp hchild))
  rw [listsOnce_iff hhas]
  exact ⟨fun hall child hentry => hall child (mem_ownChildren.mpr hentry),
    fun hall child hchild => hall child (mem_ownChildren.mp hchild)⟩

theorem count_node_of_node (node child : HirTreeChild) :
    (treeChildren program index bodies (.node node)).count (.node child) =
      (program.directChildren node).count child := by
  have hdirect : (frameChildren program index (.node node)).count (.node child) =
      (program.directChildren node).count child :=
    List.count_map_of_injective _ _ (fun a b hab => by cases hab; rfl) child
  cases bodies with
  | direct => exact hdirect
  | owned =>
    have hnot : .node child ∉ separateBodies index (.node node) := by
      intro hmem
      obtain ⟨_, _, _, _, _, heq, _⟩ := h.separate_body hmem
      cases heq
    rw [treeChildren, List.count_append, hdirect, List.count_eq_zero_of_not_mem hnot,
      Nat.add_zero]

theorem count_node_of_parent (hparent : index.parent (.node node) = some parent)
    (hlists : ∀ lister, parent = .node lister → program.ListsOnce lister) :
    (treeChildren program index bodies parent).count (.node node) = 1 := by
  obtain ⟨item, owner, hnode, hframe⟩ := h.record_of_parent hparent
  rcases h.lister_of_node hnode with ⟨o, lister, rfl, hlister, hentry⟩ | ⟨ref, o, rfl, hbody⟩
  · rw [HirTreeChild.frame_asOwner] at hframe
    cases hframe
    rw [h.count_node_of_node]
    exact (h.listsOnce_iff_count hlister).mp (hlists lister rfl) node hentry
  · cases hframe
    rw [treeChildren_body]
    exact h.count_node_of_body hbody

variable {bodies : BodyTraversal} {root : WalkFrame} {hooks : List (Hook WalkFrame)}

theorem node_notMem_item (node : HirTreeChild) (i : HirItemId) :
    .node node ∉ treeChildren program index bodies (.item i) := by
  intro hmem
  rw [treeChildren_item] at hmem
  rcases h.child_of_item hmem with ⟨_, _, _, heq, -⟩ | ⟨_, _, heq, -⟩
  · cases heq
  · cases heq

section
variable (htraverses : Traverses (treeChildren program index bodies) [root] hooks)
  (hroot : Met index root)
include htraverses hroot

/-- A frame is entered by way of its recorded owner only. -/
theorem count_of_parent {frame parent : WalkFrame} (hparent : index.parent frame = some parent)
    (hne : frame ≠ root)
    (hitem : ∀ i, .item i ∈ entered hooks → frame ∉ treeChildren program index bodies (.item i)) :
    (entered hooks).count frame =
      (entered hooks).count parent * (treeChildren program index bodies parent).count frame := by
  have hnot : frame ∉ [root] := fun hmem => hne (List.mem_singleton.mp hmem)
  refine htraverses.count_entered hnot fun lister hlister hmem => ?_
  obtain ⟨first, hfirst, hbelow⟩ := htraverses.mem_entered hlister
  rw [List.mem_singleton.mp hfirst] at hbelow
  rcases h.met_below hroot hbelow with ⟨i, rfl⟩ | ⟨grandparent, hgrandparent⟩
  · exact absurd hmem (hitem i hlister)
  · have hother := h.parent_of_child hgrandparent hmem
    rw [hparent] at hother
    exact (Option.some.inj hother).symm

/-- All that a frame owns is entered once, if the frame is and every node lists its children
once. -/
theorem count_of_owned {top : WalkFrame} (hone : (entered hooks).count root = 1)
    (htop : (entered hooks).count top = 1)
    (hbody : ∀ ref parent, index.parent (.body ref) = some parent →
      OwnedBy index parent top → (entered hooks).count parent = 1 →
      (entered hooks).count (.body ref) = 1)
    (hlists : ∀ node, OwnedBy index (.node node) top → program.ListsOnce node)
    {frame : WalkFrame} (hframe : OwnedBy index frame top) :
    (entered hooks).count frame = 1 := by
  induction hframe using ReflTransGen.head_induction_on with
  | refl => exact htop
  | @head frame parent hparent hrest ih =>
    cases frame with
    | item i => cases hparent
    | body ref => exact hbody ref parent hparent hrest ih
    | node node =>
      by_cases hne : .node node = root
      · rw [hne]
        exact hone
      · rw [h.count_of_parent htraverses hroot hparent hne fun i _ => h.node_notMem_item node i, ih,
          h.count_node_of_parent hparent fun lister heq => hlists lister (heq ▸ hrest)]

/-- The other way: a node lists its children once, if it and they are entered once. -/
theorem listsOnce_of_count (hnode : .node item owner node ∈ log)
    (hone : (entered hooks).count (.node node) = 1)
    (hne : ∀ child, (none, child) ∈ program.entries node → .node child ≠ root)
    (hchildren : ∀ child, (none, child) ∈ program.entries node →
      (entered hooks).count (.node child) = 1) : program.ListsOnce node := by
  refine (h.listsOnce_iff_count hnode).mpr fun child hentry => ?_
  have hparent : index.parent (.node child) = some (.node node) := by
    rw [h.parent_node (h.child_of_node hnode hentry), HirTreeChild.frame_asOwner]
  have hcount := h.count_of_parent htraverses hroot hparent (hne child hentry)
    fun i _ => h.node_notMem_item child i
  rw [hchildren child hentry, hone, h.count_node_of_node, Nat.one_mul] at hcount
  exact hcount.symm

end

theorem mem_itemChildren {i child : HirItemId} : child ∈ (index.itemChildren.get i).getD [] ↔
    ∃ position, .callable i position child ∈ log := by
  have hlisted : .item child ∈ index.listed (.items i) ↔
      child ∈ (index.itemChildren.get i).getD [] :=
    List.mem_map_of_injective fun a b hab => by cases hab; rfl
  rw [← hlisted, h.mem_listed]
  constructor
  · rintro ⟨record, hrecord, hpushed⟩
    cases hpushed
    exact ⟨_, hrecord⟩
  · exact fun ⟨position, hcallable⟩ => ⟨_, hcallable, .items⟩

theorem count_item {i owner : HirItemId}
    (htraverses : Traverses (treeChildren program index .direct) [.item i] hooks)
    (howner : owner = i ∨ owner ∈ (index.itemChildren.get i).getD []) :
    (entered hooks).count (.item owner) = 1 := by
  have hroot : (entered hooks).count (.item i) = 1 := htraverses.count_root (h.acc_of_item i)
  rcases howner with rfl | hchild
  · exact hroot
  · obtain ⟨position, hcallable⟩ := h.mem_itemChildren.mp hchild
    have hnot : .item owner ∉ [WalkFrame.item i] := by
      intro hmem
      cases List.mem_singleton.mp hmem
      exact h.callable_of_flow hcallable _ _ hcallable
    have honly : ∀ lister ∈ entered hooks,
        .item owner ∈ treeChildren program index .direct lister → lister = .item i := by
      intro lister _ hmem
      cases lister with
      | item j =>
        rcases h.child_of_item hmem with ⟨_, _, _, heq, -⟩ | ⟨_, _, heq, hother⟩
        · cases heq
        · cases heq
          rw [(h.callable_unique hother hcallable).1]
      | body ref =>
        obtain ⟨_, _, _, heq, -⟩ := h.child_of_body hmem
        cases heq
      | node node =>
        obtain ⟨_, _, heq⟩ := List.mem_map.mp hmem
        cases heq
    have hcount : (treeChildren program index .direct (.item i)).count (.item owner) = 1 :=
      h.count_item_of_item hcallable
    rw [htraverses.count_entered hnot honly, hroot, hcount]

theorem count_body {i owner : HirItemId}
    (htraverses : Traverses (treeChildren program index .direct) [.item i] hooks)
    (howner : owner = i ∨ owner ∈ (index.itemChildren.get i).getD [])
    (hbody : OwnedBy index (.body ref) (.item owner)) : (entered hooks).count (.body ref) = 1 := by
  rcases ReflTransGen.cases_head hbody with heq | ⟨parent, hparent, -⟩
  · cases heq
  · obtain ⟨source, hsource, -⟩ := Option.bind_eq_some_iff.mp hparent
    obtain ⟨item, target, hrecord⟩ := h.owner_body.mp hsource
    cases (h.ownedBy_of_body hrecord).item_unique hbody
    have hnot : .body ref ∉ [WalkFrame.item i] := by
      intro hmem
      cases List.mem_singleton.mp hmem
    have honly : ∀ lister ∈ entered hooks,
        .body ref ∈ treeChildren program index .direct lister → lister = .item owner := by
      intro lister _ hmem
      cases lister with
      | item j =>
        rcases h.child_of_item hmem with ⟨_, _, _, heq, hother⟩ | ⟨_, _, heq, -⟩
        · cases heq
          cases h.body_unique hother hrecord
          rfl
        · cases heq
      | body other =>
        obtain ⟨_, _, _, heq, -⟩ := h.child_of_body hmem
        cases heq
      | node node =>
        obtain ⟨_, _, heq⟩ := List.mem_map.mp hmem
        cases heq
    have hcount : (treeChildren program index .direct (.item owner)).count (.body ref) = 1 :=
      h.count_body_of_item hrecord
    rw [htraverses.count_entered hnot honly, h.count_item htraverses howner, hcount]

theorem walksItem_iff (hi : i < program.items.length) :
    WalksItem program index i ↔
      ∀ node, Assigned index i (.node node) → program.ListsOnce node := by
  have hmet : Met index (.item i) := .inl ⟨i, rfl⟩
  obtain ⟨hooks, htraverses, hcalls⟩ :=
    h.exists_hooks hmet (decide_eq_true hi) (h.acc_of_item i)
  constructor
  · rintro ⟨hooks', hcalls', hvisits⟩ node hassigned
    cases hcalls.unique hcalls'
    obtain ⟨owner, howner, howned⟩ := hassigned
    rcases ReflTransGen.cases_head howned with heq | ⟨parent, hparent, -⟩
    · cases heq
    · obtain ⟨item, o, hnode, -⟩ := h.record_of_parent hparent
      refine h.listsOnce_of_count htraverses hmet hnode (hvisits.once _ ⟨owner, howner, howned⟩).1
        (fun child _ heq => by cases heq) fun child hentry => ?_
      have hchild : index.parent (.node child) = some (.node node) := by
        rw [h.parent_node (h.child_of_node hnode hentry), HirTreeChild.frame_asOwner]
      exact (hvisits.once _ ⟨owner, howner, howned.head hchild⟩).1
  · intro hlists
    refine ⟨hooks, hcalls, visitsOnce_of_count htraverses fun frame hframe => ?_⟩
    obtain ⟨owner, howner, howned⟩ := hframe
    refine h.count_of_owned htraverses hmet (htraverses.count_root (h.acc_of_item i))
      (h.count_item htraverses howner) (fun ref parent hparent hrest _ => ?_)
      (fun node hnode => hlists node ⟨owner, howner, hnode⟩) howned
    exact h.count_body htraverses howner (hrest.head hparent)

/-! The walk of the tree of an expression. -/

variable {expr : HirExprId}

theorem ownedBy_of_below {grandparent frame : WalkFrame}
    (hexpr : index.parent (.node (.expr expr)) = some grandparent)
    (hbelow : Below (treeChildren program index .owned) (.node (.expr expr)) frame) :
    OwnedBy index frame (.node (.expr expr)) ∧ ∃ parent, index.parent frame = some parent := by
  induction hbelow with
  | refl => exact ⟨.refl, grandparent, hexpr⟩
  | tail _ hchild ih =>
    obtain ⟨howned, parent, hparent⟩ := ih
    have hstep := h.parent_of_child hparent hchild
    exact ⟨howned.head hstep, _, hstep⟩

theorem walksExprTree_of_recorded (hexpr : expr < program.exprs.length) {grandparent : WalkFrame}
    (hrecorded : index.parent (.node (.expr expr)) = some grandparent) :
    WalksExprTree program index expr ↔
      ∀ node, OwnedBy index (.node node) (.node (.expr expr)) → program.ListsOnce node := by
  obtain ⟨item, owner, hnode, howner⟩ := h.record_of_parent hrecorded
  have hmet : Met index (.node (.expr expr)) := .inr ⟨grandparent, hrecorded⟩
  obtain ⟨hooks, htraverses, hcalls⟩ :=
    h.exists_hooks hmet (decide_eq_true hexpr) (h.acc_of_node hnode)
  have hbelow : ∀ frame ∈ entered hooks, OwnedBy index frame (.node (.expr expr)) ∧
      ∃ parent, index.parent frame = some parent := by
    intro frame hframe
    obtain ⟨first, hfirst, hbelow⟩ := htraverses.mem_entered hframe
    rw [List.mem_singleton.mp hfirst] at hbelow
    exact h.ownedBy_of_below hrecorded hbelow
  constructor
  · rintro ⟨hooks', hcalls', hvisits, -⟩ node howned
    cases hcalls.unique hcalls'
    have hparent : ∃ parent, index.parent (.node node) = some parent := by
      rcases ReflTransGen.cases_head howned with heq | ⟨parent, hparent, -⟩
      · cases heq
        exact ⟨grandparent, hrecorded⟩
      · exact ⟨parent, hparent⟩
    obtain ⟨parent, hparent⟩ := hparent
    obtain ⟨j, o, hlister, -⟩ := h.record_of_parent hparent
    have hchild : ∀ child, (none, child) ∈ program.entries node →
        index.parent (.node child) = some (.node node) := by
      intro child hentry
      rw [h.parent_node (h.child_of_node hlister hentry), HirTreeChild.frame_asOwner]
    refine h.listsOnce_of_count htraverses hmet hlister (hvisits.once _ howned).1
      (fun child hentry heq => ?_) fun child hentry => ?_
    · -- the expression is not below itself
      cases heq
      exact (h.ownedBy_of_node hnode).not_cycle (hchild _ hentry) howned
    · exact (hvisits.once _ (howned.head (hchild child hentry))).1
  · intro hlists
    have hroot : (entered hooks).count (.node (.expr expr)) = 1 :=
      htraverses.count_root (h.acc_of_node hnode)
    refine ⟨hooks, hcalls, visitsOnce_of_count htraverses fun frame hframe => ?_,
      fun frame hframe => (hbelow frame hframe).1⟩
    refine h.count_of_owned htraverses hmet hroot hroot (fun ref parent hparent hrest hone => ?_)
      hlists hframe
    have hne : WalkFrame.body ref ≠ .node (.expr expr) := fun heq => by cases heq
    have hitem : ∀ i, WalkFrame.item i ∈ entered hooks →
        .body ref ∉ treeChildren program index .owned (.item i) := by
      intro i hi
      obtain ⟨-, parent, hitem⟩ := hbelow _ hi
      cases hitem
    have hcount := h.count_of_parent htraverses hmet hparent hne hitem
    rw [hone, Nat.one_mul] at hcount
    rw [hcount]
    exact h.count_body_of_owned hparent hrest

section
variable (hnone : index.exprOwner.get expr = none)
include hnone

theorem not_recorded (item : HirItemId)
    (owner : HirOwner) : .node item owner (.expr expr) ∉ log := by
  intro hnode
  have howner : index.exprOwner.get expr = some owner := h.owner_node.mpr ⟨item, hnode⟩
  rw [hnone] at howner
  cases howner

theorem separateBodies_of_unrecorded : separateBodies index (.node (.expr expr)) = [] := by
  refine List.eq_nil_iff_forall_not_mem.mpr fun child hchild => ?_
  obtain ⟨item, node, ref, target, heq, -, hbody⟩ := h.separate_body hchild
  cases heq
  obtain ⟨owner, hnode, -⟩ := h.asker_of_body hbody
  exact h.not_recorded hnone item owner hnode

theorem eq_of_owned {frame : WalkFrame}
    (howned : OwnedBy index frame (.node (.expr expr))) :
    frame = .node (.expr expr) := by
  rcases ReflTransGen.cases_tail howned with heq | ⟨child, -, hchild⟩
  · exact heq.symm
  · exfalso
    obtain ⟨owner, howner, hframe⟩ := Option.bind_eq_some_iff.mp hchild
    have hexpr : owner = HirTreeChild.asOwner (.expr expr) := by
      cases owner <;> cases hframe
      rfl
    subst hexpr
    cases child with
    | item i => cases howner
    | body ref =>
      obtain ⟨item, target, hbody⟩ := h.owner_body.mp howner
      obtain ⟨o, hnode, -⟩ := h.asker_of_body hbody
      exact h.not_recorded hnone item o hnode
    | node node =>
      obtain ⟨item, hnode⟩ := h.owner_node.mp howner
      rcases h.lister_of_node hnode with ⟨o, parent, heq, hparent, -⟩ | ⟨_, _, heq, -⟩
      · cases parent <;> cases heq
        exact h.not_recorded hnone item o hparent
      · cases heq

end

theorem walksExprTree_of_unrecorded (hexpr : expr < program.exprs.length)
    (hnone : index.exprOwner.get expr = none) :
    WalksExprTree program index expr ↔ program.directChildren (.expr expr) = [] := by
  have hself : OwnedBy index (.node (.expr expr)) (.node (.expr expr)) := .refl
  have hchildren : treeChildren program index .owned (.node (.expr expr)) =
      (program.directChildren (.expr expr)).map .node := by
    rw [treeChildren, h.separateBodies_of_unrecorded hnone, List.append_nil]
    rfl
  have henter : enterTree program index .owned (.node (.expr expr)) =
      .ok ((program.directChildren (.expr expr)).map .node) := by
    rw [← hchildren]
    exact if_pos (decide_eq_true hexpr)
  constructor
  · rintro ⟨hooks, hcalls, hvisits, honly⟩
    cases hlisted : program.directChildren (.expr expr) with
    | nil => rfl
    | cons child children =>
      exfalso
      obtain ⟨bound, hrun⟩ := hcalls (List (Hook WalkFrame)) noteHook []
      have hlong := hrun (bound + 2) (by omega)
      rw [foldl_noteHook] at hlong
      rw [hlisted] at henter
      obtain ⟨rest, rfl⟩ := prefix_of_first henter hlong
      have hentered : ∀ tail : List (Hook WalkFrame), entered ([.enter (.node (.expr expr)),
          .enter (.node child)] ++ tail) = .node (.expr expr) :: .node child :: entered tail :=
        fun _ => rfl
      have hchild := h.eq_of_owned hnone (honly (.node child) (by
        rw [hentered]
        exact List.mem_cons_of_mem _ List.mem_cons_self))
      cases hchild
      have hone := (hvisits.once _ hself).1
      rw [hentered, List.count_cons_self, List.count_cons_self] at hone
      omega
  · intro hlisted
    rw [hlisted, List.map_nil] at hchildren
    have hinner : Traverses (treeChildren program index .owned)
        (treeChildren program index .owned (.node (.expr expr))) [] := by
      rw [hchildren]
      exact .nil
    have htraverses : Traverses (treeChildren program index .owned) [.node (.expr expr)]
        [.enter (.node (.expr expr)), .exit (.node (.expr expr))] := .cons hinner .nil
    have hentered : entered [Hook.enter (WalkFrame.node (.expr expr)), .exit (.node (.expr expr))] =
      [.node (.expr expr)] := rfl
    refine ⟨_, fun σ visitor s => ⟨2, fun fuel hfuel => htraverses.returns (fun frame hframe => ?_)
      s hfuel⟩, visitsOnce_of_count htraverses fun frame hframe => ?_, fun frame hframe => ?_⟩
    · rw [hentered, List.mem_singleton] at hframe
      rw [hframe, hchildren, henter, hlisted]
      rfl
    · rw [h.eq_of_owned hnone hframe, hentered, List.count_singleton_self]
    · rw [hentered, List.mem_singleton] at hframe
      rw [hframe]
      exact .refl

theorem walksExprTree_iff (hexpr : expr < program.exprs.length) :
    WalksExprTree program index expr ↔
      (∀ node, OwnedBy index (.node node) (.node (.expr expr)) → program.ListsOnce node) ∧
        (index.exprOwner.get expr = none → program.directChildren (.expr expr) = []) := by
  cases howner : index.exprOwner.get expr with
  | none =>
    rw [h.walksExprTree_of_unrecorded hexpr howner]
    constructor
    · refine fun hnil => ⟨fun node howned => ?_, fun _ => hnil⟩
      cases h.eq_of_owned howner howned
      rw [directChildren_expr] at hnil
      exact ⟨by rw [hnil]; exact List.nodup_nil, fun _ _ => hnil⟩
    · exact fun hall => hall.2 rfl
  | some owner =>
    have hnode : index.frameOwner (.node (.expr expr)) = some owner := howner
    obtain ⟨item, hrecord⟩ := h.owner_node.mp hnode
    have hparent : ∃ parent, index.parent (.node (.expr expr)) = some parent := by
      rcases ReflTransGen.cases_head (h.ownedBy_of_node hrecord) with heq | ⟨parent, hparent, -⟩
      · cases heq
      · exact ⟨parent, hparent⟩
    obtain ⟨parent, hparent⟩ := hparent
    rw [h.walksExprTree_of_recorded hexpr hparent]
    exact ⟨fun hlists => ⟨hlists, fun hnone => by cases hnone⟩, fun hall => hall.1⟩

end IndexLog

/-- `walk_item` and `walk_expr_tree` visit what the index assigns exactly when no node they are
about lists a child twice or is an arm with a pattern or a continuation. -/
theorem walks_iff_listsOnce {fuel : ℕ}
    (h : HirTreeIndex.tryBuild program fuel = .ok (.ok index)) :
    (∀ item < program.items.length, WalksItem program index item ↔
      ∀ node, Assigned index item (.node node) → program.ListsOnce node) ∧
    ∀ expr < program.exprs.length, WalksExprTree program index expr ↔
      (∀ node, OwnedBy index (.node node) (.node (.expr expr)) → program.ListsOnce node) ∧
        (index.exprOwner.get expr = none → program.directChildren (.expr expr) = []) := by
  obtain ⟨log, hlog⟩ := HirTreeIndex.exists_log h
  exact ⟨fun item hitem => hlog.walksItem_iff hitem, fun expr hexpr => hlog.walksExprTree_iff hexpr⟩

theorem walks_sharedTuple : ∃ index, HirTreeIndex.tryBuild sharedTuple 16 = .ok (.ok index) ∧
    (∀ item < sharedTuple.items.length, WalksItem sharedTuple index item ↔
      ∀ node, Assigned index item (.node node) → sharedTuple.ListsOnce node) ∧
    ∀ expr < sharedTuple.exprs.length, WalksExprTree sharedTuple index expr ↔
      (∀ node, OwnedBy index (.node node) (.node (.expr expr)) → sharedTuple.ListsOnce node) ∧
        (index.exprOwner.get expr = none → sharedTuple.directChildren (.expr expr) = []) := by
  obtain ⟨index, h⟩ : ∃ index, HirTreeIndex.tryBuild sharedTuple 16 = .ok (.ok index) :=
    ⟨_, rfl⟩
  exact ⟨index, h, walks_iff_listsOnce h⟩

/-- A handler with one arm, which binds one pattern. -/
def bindingArm : HirProgram :=
  { flowProgram [.handler [0]] with
    handlerArms := [⟨⟨⟨[], .unresolved, flowSpan⟩, "ask", .unresolved, flowSpan⟩, [0], none, 1, 2⟩]
    pats := [.wildcard]
    blocks := [⟨[], some 0, 2⟩, ⟨[], none, 2⟩] }

theorem not_listsOnce_bindingArm : ¬bindingArm.ListsOnce (.handlerArm 0) := by
  intro hlists
  have hnil := hlists.arm 0 rfl
  cases hnil

/-- The pattern belongs to the flow and to the handler, and neither walk enters it. -/
theorem walks_bindingArm : ∃ index, HirTreeIndex.tryBuild bindingArm 16 = .ok (.ok index) ∧
    ¬WalksItem bindingArm index 0 ∧ ¬WalksExprTree bindingArm index 0 := by
  obtain ⟨index, h, harm, hexpr, hblock, hbody⟩ : ∃ index,
      HirTreeIndex.tryBuild bindingArm 16 = .ok (.ok index) ∧
      index.parent (.node (.handlerArm 0)) = some (.node (.expr 0)) ∧
      index.parent (.node (.expr 0)) = some (.node (.block 0)) ∧
      index.parent (.node (.block 0)) = some (.body ⟨0, .flow⟩) ∧
      index.parent (.body ⟨0, .flow⟩) = some (.item 0) := ⟨_, rfl, rfl, rfl, rfl, rfl⟩
  obtain ⟨log, hlog⟩ := HirTreeIndex.exists_log h
  have howned : OwnedBy index (.node (.handlerArm 0)) (.node (.expr 0)) := .single harm
  have hflow : OwnedBy index (.node (.expr 0)) (.item 0) :=
    .head hexpr (.head hblock (.single hbody))
  have hitem : 0 < bindingArm.items.length := by decide
  have hexprs : 0 < bindingArm.exprs.length := by decide
  refine ⟨index, h, fun hwalks => ?_, fun hwalks => ?_⟩
  · have hassigned : Assigned index 0 (.node (.handlerArm 0)) :=
      ⟨0, .inl rfl, howned.trans hflow⟩
    exact not_listsOnce_bindingArm ((hlog.walksItem_iff hitem).mp hwalks _ hassigned)
  · exact not_listsOnce_bindingArm (((hlog.walksExprTree_iff hexprs).mp hwalks).1 _ howned)

end EtasFrontend.Hir
