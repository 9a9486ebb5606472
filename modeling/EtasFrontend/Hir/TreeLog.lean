import EtasFrontend.Hir.TreeRecords

/-! What the records of an accepted index say about its tables. -/
namespace EtasFrontend.Hir
open Lib Relation

/-! What is asked for. -/

variable {impl callable : HirItemId} {position : ℕ}

section
variable {program : HirProgram} {item : HirItemId} {record : HirRecord}

/-- A record of a body of the item, among the records with all those of the body. -/
def InBody (item : HirItemId) (records : List HirRecord) (record : HirRecord) : Prop :=
  ∃ ref target, record ∈ bodyRecords item ref (.item item) target ∧
    bodyRecords item ref (.item item) target ⊆ records

theorem InBody.mono {records records' : List HirRecord} (h : InBody item records record)
    (hsub : records ⊆ records') : InBody item records' record := by
  obtain ⟨ref, target, hmem, hall⟩ := h
  exact ⟨ref, target, hmem, List.Subset.trans hall hsub⟩

variable {ref : HirBodyRef}

theorem inBody_bodyRecords {target : HirTreeChild}
    (h : record ∈ bodyRecords item ref (.item item) target) :
    InBody item (bodyRecords item ref (.item item) target) record :=
  ⟨ref, target, h, List.Subset.refl _⟩

theorem inBody_annotationRecords (h : record ∈ program.annotationRecords item) :
    InBody item (program.annotationRecords item) record := by
  obtain ⟨arg, harg, hrecord⟩ := List.mem_flatMap.mp h
  exact (inBody_bodyRecords hrecord).mono fun other hother =>
    List.mem_flatMap.mpr ⟨arg, harg, hother⟩

theorem inBody_itemBodyRecords {data : HirItem} (h : record ∈ itemBodyRecords item data) :
    InBody item (itemBodyRecords item data) record ∨ ∃ position callable items scope,
      record = .callable item position callable ∧ data = .impl items scope ∧
        items[position]? = some (.callable callable) := by
  unfold itemBodyRecords at h ⊢
  split at h
  · exact .inl (inBody_bodyRecords h)
  · exact .inl (inBody_bodyRecords h)
  · exact .inl (inBody_bodyRecords h)
  · exact .inl (inBody_bodyRecords h)
  · next items scope =>
    obtain ⟨⟨implItem, position⟩, hmem, hrecord⟩ := List.mem_flatMap.mp h
    have hsub : implItemRecords item position implItem ⊆ items.zipIdx.flatMap
        fun x => implItemRecords item x.2 x.1 :=
      fun other hother => List.mem_flatMap.mpr ⟨_, hmem, hother⟩
    cases implItem with
    | callable callable =>
      exact .inr ⟨position, callable, items, scope, List.mem_singleton.mp hrecord, rfl,
        List.mem_zipIdx_iff_getElem?.mp hmem⟩
    | flow decl => exact .inl ((inBody_bodyRecords hrecord).mono hsub)
    | action | error => cases hrecord
  · cases h

theorem asks_module {module : HirModuleId} (h : record ∈ program.asks (.module module)) :
    ∃ data, program.modulesArena[module]? = some data ∧ ∃ i ∈ data.items,
      .item module i = record := by
  simp only [HirProgram.asks] at h
  split at h
  · next data hdata => exact ⟨data, hdata, List.mem_map.mp h⟩
  · cases h

theorem asks_item {module : HirModuleId} (h : record ∈ program.asks (.item module item)) :
    InBody item (program.asks (.item module item)) record ∨ ∃ position callable items scope,
      record = .callable item position callable ∧
        program.items[item]? = some (.impl items scope) ∧
        items[position]? = some (.callable callable) := by
  simp only [HirProgram.asks] at h ⊢
  split at h
  · next data hdata =>
    rw [hdata]
    rcases List.mem_append.mp h with h | h
    · rcases inBody_itemBodyRecords h with h | ⟨position, callable, items, scope, hrecord, hitem, hat⟩
      · exact .inl (h.mono (List.subset_append_left _ _))
      · rw [hitem]
        exact .inr ⟨position, callable, items, scope, hrecord, rfl, hat⟩
    · exact .inl ((inBody_annotationRecords h).mono (List.subset_append_right _ _))
  · cases h

theorem asks_callable (h : record ∈ program.asks (.callable impl position callable)) :
    InBody callable (program.asks (.callable impl position callable)) record := by
  simp only [HirProgram.asks] at h ⊢
  split at h
  · next decl hdecl =>
    rcases List.mem_append.mp h with h | h
    · exact (inBody_bodyRecords h).mono (List.subset_append_left _ _)
    · exact (inBody_annotationRecords h).mono (List.subset_append_right _ _)
  · cases h

variable {owner : HirOwner}

/-- What the visit of a node asks for: a child, or a body with its target. -/
theorem asks_node {node : HirTreeChild} (h : record ∈ program.asks (.node item owner node)) :
    (∃ child, record = .node item node.asOwner child ∧ (none, child) ∈ program.entries node) ∨
      ∃ ref target, record ∈ bodyRecords item ref node.asOwner target ∧
        bodyRecords item ref node.asOwner target ⊆ program.asks (.node item owner node) := by
  have hbody : ∀ kind child, (some kind, child) ∈ program.entries node →
      bodyRecords item ⟨item, kind⟩ node.asOwner child ⊆
        program.asks (.node item owner node) := by
    intro kind child hentry record hrecord
    rcases List.mem_cons.mp hrecord with rfl | hrecord
    · exact List.mem_append_left _ (List.mem_flatMap.mpr ⟨_, hentry, List.mem_singleton_self _⟩)
    · rw [List.mem_singleton.mp hrecord]
      refine List.mem_append_right _ (List.mem_map.mpr ⟨(.body ⟨item, kind⟩, child), ?_, rfl⟩)
      exact List.mem_map.mpr ⟨_, hentry, rfl⟩
  rcases List.mem_append.mp h with h | h
  · obtain ⟨⟨kind, child⟩, hentry, hrecord⟩ := List.mem_flatMap.mp h
    cases kind with
    | none => cases hrecord
    | some kind =>
      rw [List.mem_singleton.mp hrecord]
      exact .inr ⟨_, child, List.mem_cons_self, hbody kind child hentry⟩
  · obtain ⟨visit, hvisit, rfl⟩ := List.mem_map.mp h
    obtain ⟨⟨kind, child⟩, hentry, rfl⟩ := List.mem_map.mp hvisit
    cases kind with
    | none => exact .inl ⟨child, rfl, hentry⟩
    | some kind =>
      exact .inr ⟨_, child, List.mem_cons_of_mem _ List.mem_cons_self, hbody kind child hentry⟩

theorem asks_child {node child : HirTreeChild} (hentry : (none, child) ∈ program.entries node) :
    .node item node.asOwner child ∈ program.asks (.node item owner node) := by
  refine List.mem_append_right _ (List.mem_map.mpr ⟨(node.asOwner, child), ?_, rfl⟩)
  exact List.mem_map.mpr ⟨_, hentry, rfl⟩

theorem entry_of_asked_body {owner owner' : HirOwner} {node target : HirTreeChild} {i : HirItemId}
    (h : .body i ref owner' target ∈ program.asks (.node item owner node)) :
    (some ref.kind, target) ∈ program.entries node := by
  rcases List.mem_append.mp h with h | h
  · obtain ⟨⟨kind, child⟩, hentry, hrecord⟩ := List.mem_flatMap.mp h
    cases kind with
    | none => cases hrecord
    | some kind =>
      cases List.mem_singleton.mp hrecord
      exact hentry
  · obtain ⟨visit, -, heq⟩ := List.mem_map.mp h
    cases heq

theorem root_notMem_bodyRecords {ref ref' : HirBodyRef} {target target' : HirTreeChild} :
    .root ref target ∉ bodyRecords item ref' owner target' := by
  intro hmem
  rcases List.mem_cons.mp hmem with heq | hmem
  · cases heq
  · cases List.mem_singleton.mp hmem

theorem asks_root {target : HirTreeChild} (h : .root ref target ∈ program.asks record) :
    ∃ item owner, record = .body item ref owner target := by
  cases record with
  | module m =>
    obtain ⟨_, _, _, _, heq⟩ := asks_module h
    cases heq
  | item m i =>
    rcases asks_item h with ⟨_, _, hmem, -⟩ | ⟨_, _, _, _, heq, -, -⟩
    · exact absurd hmem root_notMem_bodyRecords
    · cases heq
  | callable impl position callable =>
    obtain ⟨_, _, hmem, -⟩ := asks_callable h
    exact absurd hmem root_notMem_bodyRecords
  | body i r o t =>
    cases List.mem_singleton.mp h
    exact ⟨i, o, rfl⟩
  | root r t => cases h
  | node i o n =>
    rcases asks_node h with ⟨_, heq, -⟩ | ⟨_, _, hmem, -⟩
    · cases heq
    · exact absurd hmem root_notMem_bodyRecords

/-- How a record comes to be asked for. -/
inductive Justified (program : HirProgram) (log : List HirRecord) : HirRecord → Prop
  | module (m : HirModuleId) : Justified program log (.module m)
  | item (m : HirModuleId) (i : HirItemId) : Justified program log (.item m i)
  | callable {impl callable : HirItemId} {position : ℕ} {items : List HirImplItem}
    {scope : ScopeId} (himpl : program.items[impl]? = some (.impl items scope)) :
    Justified program log (.callable impl position callable)
  | root {item : HirItemId} {ref : HirBodyRef} {owner : HirOwner} {target : HirTreeChild}
    (hbody : .body item ref owner target ∈ log) : Justified program log (.root ref target)
  | itemBody {item : HirItemId} {ref : HirBodyRef} {target : HirTreeChild} {record : HirRecord}
    (hall : bodyRecords item ref (.item item) target ⊆ log)
    (hrecord : record ∈ bodyRecords item ref (.item item) target) : Justified program log record
  | nodeBody {item : HirItemId} {owner : HirOwner} {node : HirTreeChild} {ref : HirBodyRef}
    {target : HirTreeChild} {record : HirRecord} (hnode : .node item owner node ∈ log)
    (h : Justified program log (.node item owner node))
    (hall : bodyRecords item ref node.asOwner target ⊆ program.asks (.node item owner node))
    (hrecord : record ∈ bodyRecords item ref node.asOwner target) : Justified program log record
  | child {item : HirItemId} {owner : HirOwner} {node child : HirTreeChild}
    (hnode : .node item owner node ∈ log) (h : Justified program log (.node item owner node))
    (hentry : (none, child) ∈ program.entries node) :
    Justified program log (.node item node.asOwner child)

theorem Justified.of_inBody {log records : List HirRecord} (h : InBody item records record)
    (hall : records ⊆ log) : Justified program log record := by
  obtain ⟨ref, target, hrecord, hsub⟩ := h
  exact .itemBody (List.Subset.trans hsub hall) hrecord

end

/-- The record that puts a frame on a list. -/
inductive Pushed : Lister → WalkFrame → HirRecord → Prop
  | bodies {i : HirItemId} {ref : HirBodyRef} {owner : HirOwner} {target : HirTreeChild} :
    Pushed (.bodies i) (.body ref) (.body i ref owner target)
  | owned {i : HirItemId} {ref : HirBodyRef} {owner : HirOwner} {target : HirTreeChild} :
    Pushed (.owned owner) (.body ref) (.body i ref owner target)
  | items {impl callable : HirItemId} {position : ℕ} :
    Pushed (.items impl) (.item callable) (.callable impl position callable)
  | exprs {ref : HirBodyRef} {e : HirExprId} :
    Pushed (.exprs ref) (.node (.expr e)) (.root ref (.expr e))
  | blocks {ref : HirBodyRef} {b : HirBlockId} :
    Pushed (.blocks ref) (.node (.block b)) (.root ref (.block b))

variable {frame : WalkFrame} {record : HirRecord} {key : Lister}

theorem pushed_iff : (key, frame) ∈ record.pushes ↔ Pushed key frame record := by
  constructor
  · intro h
    cases record with
    | body i ref owner target =>
      rcases List.mem_cons.mp h with heq | h
      · cases heq
        exact .bodies
      · cases List.mem_singleton.mp h
        exact .owned
    | callable impl position callable =>
      cases List.mem_singleton.mp h
      exact .items
    | root ref target =>
      cases target with
      | expr e =>
        cases List.mem_singleton.mp h
        exact .exprs
      | block b =>
        cases List.mem_singleton.mp h
        exact .blocks
      | stmt | handlerArm | pattern => cases h
    | module | item | node => cases h
  · intro h
    cases h <;> simp [HirRecord.pushes]

theorem nodup_pushes (record : HirRecord) : record.pushes.Nodup := by
  cases record with
  | root ref target => cases target <;> simp [HirRecord.pushes]
  | module | item | callable | body | node => simp [HirRecord.pushes]

/-- The frame of a record with the item that is indexed. -/
def HirRecord.places : HirRecord → List (WalkFrame × HirItemId)
  | .body i ref _ _ => [(.body ref, i)]
  | .node i _ n => [(.node n, i)]
  | _ => []

def HirTreeIndex.parent (index : HirTreeIndex) (frame : WalkFrame) : Option WalkFrame :=
  (index.frameOwner frame).bind HirOwner.frame

/-- The chain of owners of a frame passes through another one. -/
def OwnedBy (index : HirTreeIndex) : WalkFrame → WalkFrame → Prop :=
  ReflTransGen fun frame parent => index.parent frame = some parent

variable {index : HirTreeIndex}

theorem OwnedBy.eq_of_item {i : HirItemId} (h : OwnedBy index (.item i) frame) :
    frame = .item i := by
  rcases ReflTransGen.cases_head h with rfl | ⟨parent, hparent, -⟩
  · rfl
  · cases hparent

theorem OwnedBy.item_unique {i j : HirItemId} (h : OwnedBy index frame (.item i))
    (h' : OwnedBy index frame (.item j)) : i = j := by
  have hunique : Relator.RightUnique fun frame parent => index.parent frame = some parent := by
    intro frame parent parent' hp hp'
    rw [hp] at hp'
    exact Option.some.inj hp'
  rcases ReflTransGen.total_of_right_unique hunique h h' with hij | hij
  · cases OwnedBy.eq_of_item hij
    rfl
  · cases OwnedBy.eq_of_item hij
    rfl

theorem OwnedBy.not_cycle {i : HirItemId} {frame parent : WalkFrame}
    (h : OwnedBy index frame (.item i)) (hparent : index.parent frame = some parent)
    (hback : OwnedBy index parent frame) : False := by
  induction h using ReflTransGen.head_induction_on generalizing parent with
  | refl => cases hparent
  | @head frame next hnext _ ih =>
    rw [hnext] at hparent
    cases hparent
    rcases ReflTransGen.cases_head hback with rfl | ⟨after, hafter, hrest⟩
    · exact ih hnext .refl
    · exact ih hafter (hrest.tail hnext)

namespace IndexLog
variable {program : HirProgram} {index : HirTreeIndex} {log : List HirRecord}
  {item : HirItemId} {ref : HirBodyRef} {owner : HirOwner} {node target : HirTreeChild}
  (h : IndexLog program index log)

include h

theorem closed {record next : HirRecord} (hrecord : record ∈ log)
    (hnext : next ∈ program.asks record) : next ∈ log :=
  h.does.closed hrecord next hnext

theorem asks_subset (hrecord : record ∈ log) : program.asks record ⊆ log :=
  fun _ hnext => h.closed hrecord hnext

theorem owner_iff : index.frameOwner frame = some owner ↔
    ∃ record ∈ log, (frame, owner) ∈ record.notes := by
  have hempty : HirTreeIndex.empty.frameOwner frame = none := by
    cases frame with
    | node node => cases node <;> rfl
    | item | body => rfl
  rw [h.logs.owner, hempty, List.mem_flatMap]
  simp

theorem owner_node : index.frameOwner (.node node) = some owner ↔
    ∃ item, .node item owner node ∈ log := by
  rw [h.owner_iff]
  constructor
  · rintro ⟨record, hrecord, hnote⟩
    cases record with
    | node i o n =>
      cases List.mem_singleton.mp hnote
      exact ⟨i, hrecord⟩
    | body i r o t => cases List.mem_singleton.mp hnote
    | module | item | callable | root => cases hnote
  · rintro ⟨i, hrecord⟩
    exact ⟨_, hrecord, List.mem_singleton_self _⟩

theorem owner_body : index.frameOwner (.body ref) = some owner ↔
    ∃ item target, .body item ref owner target ∈ log := by
  rw [h.owner_iff]
  constructor
  · rintro ⟨record, hrecord, hnote⟩
    cases record with
    | body i r o t =>
      cases List.mem_singleton.mp hnote
      exact ⟨i, t, hrecord⟩
    | node i o n => cases List.mem_singleton.mp hnote
    | module | item | callable | root => cases hnote
  · rintro ⟨i, t, hrecord⟩
    exact ⟨_, hrecord, List.mem_singleton_self _⟩

theorem justified (hrecord : record ∈ log) : Justified program log record := by
  have hall : ∀ record ∈ log, record ∈ log ∧ Justified program log record := by
    refine h.does.forall_done (fun record hroot => ?_) fun record hjustified next hnext => ?_
    · have hmem : record ∈ log :=
        h.does.perm.mem_iff.mpr (List.mem_append_left _ hroot)
      obtain ⟨m, -, rfl⟩ := List.mem_map.mp hroot
      exact ⟨hmem, .module m⟩
    · obtain ⟨hmem, hjust⟩ := hjustified
      have hsub : program.asks record ⊆ log := h.asks_subset hmem
      refine ⟨hsub hnext, ?_⟩
      cases record with
      | module m =>
        obtain ⟨_, _, i, _, rfl⟩ := asks_module hnext
        exact .item m i
      | item m i =>
        rcases asks_item hnext with hbody | ⟨position, callable, items, scope, rfl, himpl, -⟩
        · exact .of_inBody hbody hsub
        · exact .callable himpl
      | callable impl position callable => exact .of_inBody (asks_callable hnext) hsub
      | body i r o t =>
        rw [List.mem_singleton.mp hnext]
        exact .root hmem
      | root r t => cases hnext
      | node i o n =>
        rcases asks_node hnext with ⟨child, rfl, hentry⟩ | ⟨r, t, hbody, hall⟩
        · exact .child hmem hjust hentry
        · exact .nodeBody hmem hjust hall hbody
  exact (hall record hrecord).2

theorem target_of_body (hbody : .body item ref owner target ∈ log) :
    .node item (.body ref) target ∈ log ∧ .root ref target ∈ log := by
  refine ⟨?_, h.closed hbody List.mem_cons_self⟩
  have hall : ∀ {i r o t}, bodyRecords i r o t ⊆ log →
      .body item ref owner target ∈ bodyRecords i r o t →
      .node item (.body ref) target ∈ log := by
    intro i r o t hall hmem
    rcases List.mem_cons.mp hmem with heq | hmem
    · cases heq
      exact hall (List.mem_cons_of_mem _ List.mem_cons_self)
    · cases List.mem_singleton.mp hmem
  cases h.justified hbody with
  | itemBody hsub hmem => exact hall hsub hmem
  | nodeBody hnode _ hsub hmem => exact hall (List.Subset.trans hsub (h.asks_subset hnode)) hmem

theorem child_of_node {child : HirTreeChild} (hnode : .node item owner node ∈ log)
    (hentry : (none, child) ∈ program.entries node) : .node item node.asOwner child ∈ log :=
  h.closed hnode (asks_child hentry)

theorem lister_of_node (hnode : .node item owner node ∈ log) :
    (∃ owner' parent, owner = parent.asOwner ∧ .node item owner' parent ∈ log ∧
      (none, node) ∈ program.entries parent) ∨
        ∃ ref owner', owner = .body ref ∧ .body item ref owner' node ∈ log := by
  have hall : ∀ {i r o t}, bodyRecords i r o t ⊆ log →
      .node item owner node ∈ bodyRecords i r o t →
      ∃ ref owner', owner = .body ref ∧ .body item ref owner' node ∈ log := by
    intro i r o t hall hmem
    rcases List.mem_cons.mp hmem with heq | hmem
    · cases heq
    · cases List.mem_singleton.mp hmem
      exact ⟨r, o, rfl, hall List.mem_cons_self⟩
  cases h.justified hnode with
  | itemBody hsub hmem => exact .inr (hall hsub hmem)
  | nodeBody hparent _ hsub hmem =>
    exact .inr (hall (List.Subset.trans hsub (h.asks_subset hparent)) hmem)
  | child hparent _ hentry => exact .inl ⟨_, _, rfl, hparent, hentry⟩

theorem owner_of_body (hbody : .body item ref owner target ∈ log) :
    owner = .item item ∨ ∃ node : HirTreeChild, owner = node.asOwner := by
  cases h.justified hbody with
  | itemBody _ hmem =>
    rcases List.mem_cons.mp hmem with heq | hmem
    · cases heq
      exact .inl rfl
    · cases List.mem_singleton.mp hmem
  | nodeBody _ _ _ hmem =>
    rcases List.mem_cons.mp hmem with heq | hmem
    · cases heq
      exact .inr ⟨_, rfl⟩
    · cases List.mem_singleton.mp hmem

theorem asker_of_body (hbody : .body item ref node.asOwner target ∈ log) :
    ∃ owner, .node item owner node ∈ log ∧
      bodyRecords item ref node.asOwner target ⊆ program.asks (.node item owner node) := by
  generalize hasOwner : node.asOwner = listed at hbody ⊢
  cases h.justified hbody with
  | itemBody _ hmem =>
    rcases List.mem_cons.mp hmem with heq | hmem
    · cases heq
      cases node <;> cases hasOwner
    · cases List.mem_singleton.mp hmem
  | @nodeBody i o parent r t _ hparent _ hall hmem =>
    rcases List.mem_cons.mp hmem with heq | hmem
    · cases heq
      have hanchor : node.asOwner.anchor = parent.asOwner.anchor := congrArg _ hasOwner
      rw [HirTreeChild.anchor_asOwner, HirTreeChild.anchor_asOwner] at hanchor
      cases hanchor
      exact ⟨o, hparent, hall⟩
    · cases List.mem_singleton.mp hmem

theorem parent_node (hnode : .node item owner node ∈ log) :
    index.parent (.node node) = owner.frame := by
  rw [HirTreeIndex.parent, h.owner_node.mpr ⟨item, hnode⟩]
  rfl

theorem parent_body (hbody : .body item ref owner target ∈ log) :
    index.parent (.body ref) = owner.frame := by
  rw [HirTreeIndex.parent, h.owner_body.mpr ⟨item, target, hbody⟩]
  rfl

theorem owned_bodyRecords (hall : bodyRecords item ref owner target ⊆ log)
    (howner : owner.frame = some frame) (hframe : OwnedBy index frame (.item item)) :
    ∀ record ∈ bodyRecords item ref owner target, ∀ place ∈ record.places,
      OwnedBy index place.1 (.item place.2) := by
  have hbody : OwnedBy index (.body ref) (.item item) := by
    have hparent := h.parent_body (hall List.mem_cons_self)
    rw [howner] at hparent
    exact ReflTransGen.head hparent hframe
  have hnode : OwnedBy index (.node target) (.item item) := by
    have hparent := h.parent_node (hall (List.mem_cons_of_mem _ List.mem_cons_self))
    exact ReflTransGen.head hparent hbody
  intro record hrecord place hplace
  rcases List.mem_cons.mp hrecord with rfl | hrecord
  · cases List.mem_singleton.mp hplace
    exact hbody
  · cases List.mem_singleton.mp hrecord
    cases List.mem_singleton.mp hplace
    exact hnode

theorem ownedBy_item (hrecord : record ∈ log) :
    ∀ place ∈ record.places, OwnedBy index place.1 (.item place.2) := by
  have hjust := h.justified hrecord
  induction hjust with
  | itemBody hall hmem => exact h.owned_bodyRecords hall rfl .refl _ hmem
  | nodeBody hnode _ hall hmem ih =>
    have hparent := ih hnode _ (List.mem_singleton_self _)
    have hlog := List.Subset.trans hall (h.asks_subset hnode)
    exact h.owned_bodyRecords hlog (HirTreeChild.frame_asOwner _) hparent _ hmem
  | child hnode _ hentry ih =>
    intro place hplace
    cases List.mem_singleton.mp hplace
    have hparent := h.parent_node hrecord
    rw [HirTreeChild.frame_asOwner] at hparent
    exact ReflTransGen.head hparent (ih hnode _ (List.mem_singleton_self _))
  | module | item | callable | root => exact fun place hplace => by cases hplace

theorem ownedBy_of_node (hnode : .node item owner node ∈ log) :
    OwnedBy index (.node node) (.item item) :=
  h.ownedBy_item hnode _ (List.mem_singleton_self _)

theorem ownedBy_of_body (hbody : .body item ref owner target ∈ log) :
    OwnedBy index (.body ref) (.item item) :=
  h.ownedBy_item hbody _ (List.mem_singleton_self _)

theorem node_unique {i j : HirItemId} {owner' : HirOwner} (hnode : .node i owner node ∈ log)
    (hnode' : .node j owner' node ∈ log) : i = j ∧ owner = owner' := by
  have howner := h.owner_node.mpr ⟨i, hnode⟩
  rw [h.owner_node.mpr ⟨j, hnode'⟩] at howner
  refine ⟨(h.ownedBy_of_node hnode).item_unique (h.ownedBy_of_node hnode'), ?_⟩
  exact (Option.some.inj howner).symm

theorem body_unique {i j : HirItemId} {owner' : HirOwner} {target' : HirTreeChild}
    (hbody : .body i ref owner target ∈ log) (hbody' : .body j ref owner' target' ∈ log) :
    HirRecord.body i ref owner target = .body j ref owner' target' :=
  eq_of_nodup_filterMap h.logs.distinct hbody hbody' rfl rfl

theorem count_body_le : log.count (.body item ref owner target) ≤ 1 := by
  have hle := count_le_count_filterMap log
    (show HirRecord.body? (.body item ref owner target) = some ref from rfl)
  have hone := List.nodup_iff_count_le_one.mp h.logs.distinct ref
  omega

theorem callable_body (hcallable : .callable impl position callable ∈ log) : ∃ decl,
      program.items[callable]? = some (.flow decl) ∧
      bodyRecords callable ⟨impl, .implFlow position⟩ (.item callable)
        (.block decl.body.blockId) ⊆ program.asks (.callable impl position callable) := by
  obtain ⟨decl, hdecl⟩ := h.logs.admitted _ hcallable
  refine ⟨decl, hdecl, fun record hrecord => ?_⟩
  simp only [HirProgram.asks, hdecl]
  exact List.mem_append_left _ hrecord

theorem body_of_root (hroot : .root ref target ∈ log) :
    ∃ item owner, .body item ref owner target ∈ log := by
  cases h.justified hroot with
  | root hbody => exact ⟨_, _, hbody⟩
  | itemBody _ hmem => exact absurd hmem root_notMem_bodyRecords
  | nodeBody _ _ _ hmem => exact absurd hmem root_notMem_bodyRecords

theorem count_root_le : log.count (.root ref target) ≤ 1 := by
  by_cases hroot : .root ref target ∈ log
  · obtain ⟨i, o, hbody⟩ := h.body_of_root hroot
    have honly : ∀ other ∈ log, .root ref target ∈ program.asks other →
        other = .body i ref o target := by
      intro other hother hask
      obtain ⟨j, o', rfl⟩ := asks_root hask
      exact h.body_unique hother hbody
    have hfirst : .root ref target ∉ program.rootRecords := by
      intro hmem
      obtain ⟨m, -, heq⟩ := List.mem_map.mp hmem
      cases heq
    have hcount := h.does.perm.count_eq (.root ref target)
    have hasks : (program.asks (.body i ref o target)).count (.root ref target) = 1 :=
      List.count_singleton_self
    rw [List.count_append, List.count_eq_zero_of_not_mem hfirst, count_flatMap_of_only honly,
      hasks] at hcount
    have hone : log.count (.body i ref o target) ≤ 1 := h.count_body_le
    omega
  · rw [List.count_eq_zero_of_not_mem hroot]
    exact Nat.zero_le 1

theorem callable_of_flow (hcallable : .callable impl position callable ∈ log) (position' : ℕ)
    (callable' : HirItemId) : .callable callable position' callable' ∉ log := by
  intro hnested
  obtain ⟨decl, hdecl, -⟩ := h.callable_body hcallable
  cases h.justified hnested with
  | callable himpl =>
    rw [hdecl] at himpl
    cases himpl
  | itemBody _ hmem | nodeBody _ _ _ hmem =>
    rcases List.mem_cons.mp hmem with heq | hmem
    · cases heq
    · cases List.mem_singleton.mp hmem

theorem count_callable_le : log.count (.callable impl position callable) ≤ 1 := by
  by_cases hcallable : .callable impl position callable ∈ log
  · obtain ⟨decl, -, hbody⟩ := h.callable_body hcallable
    have hle := h.does.count_le (hbody List.mem_cons_self)
    have hone : log.count (.body callable ⟨impl, .implFlow position⟩ (.item callable)
      (.block decl.body.blockId)) ≤ 1 := h.count_body_le
    omega
  · rw [List.count_eq_zero_of_not_mem hcallable]
    exact Nat.zero_le 1

theorem callable_unique {impl impl' callable : HirItemId} {position position' : ℕ}
    (hcallable : .callable impl position callable ∈ log)
    (hcallable' : .callable impl' position' callable ∈ log) :
    impl = impl' ∧ position = position' := by
  obtain ⟨decl, hdecl, hbody⟩ := h.callable_body hcallable
  obtain ⟨decl', hdecl', hbody'⟩ := h.callable_body hcallable'
  rw [hdecl] at hdecl'
  cases hdecl'
  have hnode := h.closed hcallable (hbody (List.mem_cons_of_mem _ List.mem_cons_self))
  have hnode' := h.closed hcallable' (hbody' (List.mem_cons_of_mem _ List.mem_cons_self))
  have howner := h.owner_node.mpr ⟨_, hnode⟩
  rw [h.owner_node.mpr ⟨_, hnode'⟩] at howner
  cases howner
  exact ⟨rfl, rfl⟩

theorem count_pushed_le (hpushed : Pushed key frame record) : log.count record ≤ 1 := by
  cases hpushed with
  | bodies | owned => exact h.count_body_le
  | items => exact h.count_callable_le
  | exprs | blocks => exact h.count_root_le

theorem pushed_unique {record record' : HirRecord} (hrecord : record ∈ log)
    (hrecord' : record' ∈ log) (hpushed : Pushed key frame record)
    (hpushed' : Pushed key frame record') : record = record' := by
  cases hpushed with
  | bodies =>
    cases hpushed' with
    | bodies => exact h.body_unique hrecord hrecord'
  | owned =>
    cases hpushed' with
    | owned => exact h.body_unique hrecord hrecord'
  | items =>
    cases hpushed' with
    | items => rw [(h.callable_unique hrecord hrecord').2]
  | exprs =>
    cases hpushed'
    rfl
  | blocks =>
    cases hpushed'
    rfl

theorem listed_eq (key : Lister) : index.listed key =
    ((log.flatMap HirRecord.pushes).filter fun push => push.1 = key).map Prod.snd := by
  have hempty : HirTreeIndex.empty.listed key = [] := by
    cases key <;> rfl
  rw [h.logs.listed, hempty, List.nil_append]

theorem mem_listed : frame ∈ index.listed key ↔ ∃ record ∈ log, Pushed key frame record := by
  rw [h.listed_eq, List.mem_map]
  constructor
  · rintro ⟨⟨key', frame'⟩, hfilter, rfl⟩
    obtain ⟨hmem, hkey⟩ := List.mem_filter.mp hfilter
    cases of_decide_eq_true hkey
    obtain ⟨record, hrecord, hpush⟩ := List.mem_flatMap.mp hmem
    exact ⟨record, hrecord, pushed_iff.mp hpush⟩
  · rintro ⟨record, hrecord, hpushed⟩
    refine ⟨(key, frame), List.mem_filter.mpr ⟨?_, decide_eq_true rfl⟩, rfl⟩
    exact List.mem_flatMap.mpr ⟨record, hrecord, pushed_iff.mpr hpushed⟩

theorem listed_nodup (key : Lister) : (index.listed key).Nodup := by
  have hall : (log.flatMap HirRecord.pushes).Nodup := by
    refine List.nodup_iff_count_le_one.mpr fun push => ?_
    by_cases hpush : push ∈ log.flatMap HirRecord.pushes
    · obtain ⟨record, hrecord, hmem⟩ := List.mem_flatMap.mp hpush
      have hpushed : Pushed push.1 push.2 record := pushed_iff.mp hmem
      have honly : ∀ other ∈ log, push ∈ other.pushes → other = record := fun other ho hp =>
        h.pushed_unique ho hrecord (pushed_iff.mp hp) hpushed
      have hone : record.pushes.count push ≤ 1 :=
        List.nodup_iff_count_le_one.mp (nodup_pushes record) push
      have hrecords := h.count_pushed_le hpushed
      rw [count_flatMap_of_only honly]
      exact Nat.mul_le_mul hrecords hone
    · rw [List.count_eq_zero_of_not_mem hpush]
      exact Nat.zero_le 1
  rw [h.listed_eq]
  refine (hall.filter _).map_on fun push hpush push' hpush' hframe => ?_
  have hkey := of_decide_eq_true (List.mem_filter.mp hpush).2
  have hkey' := of_decide_eq_true (List.mem_filter.mp hpush').2
  exact Prod.ext (hkey.trans hkey'.symm) hframe

end IndexLog
end EtasFrontend.Hir
