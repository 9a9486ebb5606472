import EtasFrontend.Hir.Visit
import EtasFrontend.Lib.Traversal

/-! What the index builder records while nothing is reported, in its order. -/
namespace EtasFrontend.Hir
open Lib

/-! The tables as one relation between frames. -/

/-- The node or the body that an owner stands for, or the item. -/
def HirOwner.frame : HirOwner → Option WalkFrame
  | .module _ => none
  | .item i => some (.item i)
  | .body ref => some (.body ref)
  | .block b => some (.node (.block b))
  | .stmt st => some (.node (.stmt st))
  | .expr e => some (.node (.expr e))
  | .handlerArm arm => some (.node (.handlerArm arm))
  | .pattern pat => some (.node (.pattern pat))

@[simp] theorem HirTreeChild.frame_asOwner (node : HirTreeChild) :
    node.asOwner.frame = some (.node node) := by
  cases node <;> rfl

/-- A key of the tables that list frames. -/
inductive Lister where
  | bodies (item : HirItemId)
  | items (item : HirItemId)
  | owned (owner : HirOwner)
  | exprs (body : HirBodyRef)
  | blocks (body : HirBodyRef)
  deriving DecidableEq

namespace HirTreeIndex
variable (index : HirTreeIndex)

def frameOwner : WalkFrame → Option HirOwner
  | .item _ => none
  | .body body => index.bodyOwner.get body
  | .node node => index.owner? node

def listed : Lister → List WalkFrame
  | .bodies item => ((index.itemBodies.get item).getD []).map .body
  | .items item => ((index.itemChildren.get item).getD []).map .item
  | .owned owner => ((index.ownedBodies.get owner).getD []).map .body
  | .exprs body => ((index.bodyExprs.get body).getD []).map fun expr => .node (.expr expr)
  | .blocks body => ((index.bodyBlocks.get body).getD []).map fun block => .node (.block block)

end HirTreeIndex

namespace HirRecord

def notes : HirRecord → List (WalkFrame × HirOwner)
  | .body _ ref owner _ => [(.body ref, owner)]
  | .node _ owner n => [(.node n, owner)]
  | _ => []

def pushes : HirRecord → List (Lister × WalkFrame)
  | .callable impl _ i => [(.items impl, .item i)]
  | .body i ref owner _ => [(.bodies i, .body ref), (.owned owner, .body ref)]
  | .root ref (.expr e) => [(.exprs ref, .node (.expr e))]
  | .root ref (.block b) => [(.blocks ref, .node (.block b))]
  | _ => []

def body? : HirRecord → Option HirBodyRef
  | .body _ ref _ _ => some ref
  | _ => none

/-- The item that is given a module. -/
def item? : HirRecord → Option HirItemId
  | .item _ i => some i
  | .callable _ _ i => some i
  | _ => none

end HirRecord

/-- A body with the node it starts with. -/
def bodyRecords (item : HirItemId) (body : HirBodyRef) (owner : HirOwner)
    (target : HirTreeChild) : List HirRecord :=
  [.body item body owner target, .node item (.body body) target]

def implItemRecords (item : HirItemId) (position : ℕ) : HirImplItem → List HirRecord
  | .callable callable => [.callable item position callable]
  | .flow decl =>
    bodyRecords item ⟨item, .implFlow position⟩ (.item item) (.block decl.body.blockId)
  | .action | .error => []

def itemBodyRecords (item : HirItemId) : HirItem → List HirRecord
  | .flow decl => bodyRecords item ⟨item, .flow⟩ (.item item) (.block decl.body.blockId)
  | .tool (.source body) _ => bodyRecords item ⟨item, .tool⟩ (.item item) (.block body.blockId)
  | .agent (.source block) _ => bodyRecords item ⟨item, .agent⟩ (.item item) (.block block)
  | .topLevelLet value => bodyRecords item ⟨item, .topLevelLet⟩ (.item item) (.expr value)
  | .impl items _ => items.zipIdx.flatMap fun (implItem, position) =>
    implItemRecords item position implItem
  | _ => []

/-- A body starts with an expression or with a block. -/
def HirTreeChild.IsTarget : HirTreeChild → Prop
  | .expr _ | .block _ => True
  | .stmt _ | .handlerArm _ | .pattern _ => False

namespace HirProgram
variable (program : HirProgram)

def annotationRecords (item : HirItemId) : List HirRecord :=
  (program.annotationArgs item).flatMap fun (position, number, value) =>
    bodyRecords item ⟨item, .annotationArg position number⟩ (.item item) (.expr value)

/-- What a record asks for. -/
def asks : HirRecord → List HirRecord
  | .module module =>
    match program.modulesArena[module]? with
    | some data => data.items.map (.item module)
    | none => []
  | .item _ item =>
    match program.items[item]? with
    | some data => itemBodyRecords item data ++ program.annotationRecords item
    | none => []
  | .callable impl position callable =>
    match program.items[callable]? with
    | some (.flow decl) =>
      bodyRecords callable ⟨impl, .implFlow position⟩ (.item callable)
        (.block decl.body.blockId) ++ program.annotationRecords callable
    | _ => []
  | .body _ body _ target => [.root body target]
  | .root _ _ => []
  | .node item _ node => (program.entries node).flatMap (entryBodies item node) ++
      (program.children item node).map fun visit => .node item visit.1 visit.2

/-- What is checked of a record, and what a body starts with. -/
def Admits : HirRecord → Prop
  | .module module => module < program.modulesArena.length
  | .item _ item => item < program.items.length
  | .body _ _ _ target => target.IsTarget
  | .callable _ _ callable => ∃ decl, program.items[callable]? = some (.flow decl)
  | .node _ _ node => program.has node = true
  | .root _ _ => True

def rootRecords : List HirRecord := program.modules.map .module

end HirProgram

/-- What a run adds to the tables. -/
structure Logs (program : HirProgram) (index : HirTreeIndex) (log : List HirRecord)
    (index' : HirTreeIndex) : Prop where
  owner : ∀ frame owner, index'.frameOwner frame = some owner ↔
    index.frameOwner frame = some owner ∨ (frame, owner) ∈ log.flatMap HirRecord.notes
  listed : ∀ key, index'.listed key = index.listed key ++
    ((log.flatMap HirRecord.pushes).filter fun push => push.1 = key).map Prod.snd
  fresh : ∀ body ∈ log.filterMap HirRecord.body?, index.frameOwner (.body body) = none
  distinct : (log.filterMap HirRecord.body?).Nodup
  admitted : ∀ record ∈ log, program.Admits record
  modules : ∀ item module, index.itemModule.get item = some module →
    index'.itemModule.get item = some module
  placed : ∀ item, (index'.itemModule.get item).isSome →
    (index.itemModule.get item).isSome ∨ item ∈ log.filterMap HirRecord.item?
  recorded : ∀ module item, .item module item ∈ log → index'.itemModule.get item = some module

namespace Logs
variable {program : HirProgram} {index index' index'' : HirTreeIndex}
  {log log' : List HirRecord}

theorem of_same (howner : index'.frameOwner = index.frameOwner)
    (hlisted : index'.listed = index.listed) (hmodule : index'.itemModule = index.itemModule) :
    Logs program index [] index' where
  owner frame owner := by
    rw [howner]
    simp
  listed key := by
    rw [hlisted]
    simp
  fresh body hbody := by cases hbody
  distinct := List.nodup_nil
  admitted record hrecord := by cases hrecord
  modules item module h := hmodule ▸ h
  placed item h := .inl (hmodule ▸ h)
  recorded module item h := by cases h

theorem trans (h : Logs program index log index') (h' : Logs program index' log' index'') :
    Logs program index (log ++ log') index'' where
  owner frame owner := by
    rw [h'.owner, h.owner, List.flatMap_append, List.mem_append, or_assoc]
  listed key := by
    rw [h'.listed, h.listed, List.flatMap_append, List.filter_append, List.map_append,
      List.append_assoc]
  fresh body hbody := by
    rw [List.filterMap_append, List.mem_append] at hbody
    rcases hbody with hbody | hbody
    · exact h.fresh body hbody
    · have hnone := h'.fresh body hbody
      cases hindex : index.frameOwner (.body body) with
      | none => rfl
      | some owner =>
        rw [(h.owner (.body body) owner).mpr (.inl hindex)] at hnone
        cases hnone
  distinct := by
    rw [List.filterMap_append]
    refine List.Nodup.append h.distinct h'.distinct fun body hbody hbody' => ?_
    obtain ⟨record, hrecord, hsome⟩ := List.mem_filterMap.mp hbody
    have hnone := h'.fresh body hbody'
    cases record with
    | body item ref owner target =>
      cases hsome
      have hnote : (WalkFrame.body body, owner) ∈ log.flatMap HirRecord.notes :=
        List.mem_flatMap.mpr ⟨_, hrecord, List.mem_singleton_self _⟩
      rw [(h.owner (.body body) owner).mpr (.inr hnote)] at hnone
      cases hnone
    | module | item | callable | root | node => cases hsome
  admitted record hrecord := by
    rcases List.mem_append.mp hrecord with hrecord | hrecord
    · exact h.admitted record hrecord
    · exact h'.admitted record hrecord
  modules item module hitem := h'.modules item module (h.modules item module hitem)
  placed item hitem := by
    rw [List.filterMap_append, List.mem_append]
    rcases h'.placed item hitem with hitem | hitem
    · exact (h.placed item hitem).imp id .inl
    · exact .inr (.inr hitem)
  recorded module item hrecord := by
    rcases List.mem_append.mp hrecord with hrecord | hrecord
    · exact h'.modules item module (h.recorded module item hrecord)
    · exact h'.recorded module item hrecord

end Logs

variable {fuel : ℕ}

namespace HirTreeIndexBuilder
variable {program : HirProgram} {builder builder' : HirTreeIndexBuilder}

theorem index_owner? (builder : HirTreeIndexBuilder) : builder.index.owner? = builder.owner? := by
  funext node
  cases node <;> rfl

theorem getD_pushEntry {κ ν : Type} [DecidableEq κ] (m : Map κ (List ν)) (key key' : κ)
    (value : ν) : ((pushEntry m key value).get key').getD [] =
      (m.get key').getD [] ++ if key' = key then [value] else [] := by
  rw [pushEntry, Map.get_insert]
  split_ifs with h
  · rw [h, Option.getD_some]
  · rw [List.append_nil]

theorem Quiet.logs (h : builder.Quiet builder') : Logs program builder.index [] builder'.index := by
  obtain ⟨ho, ht, -⟩ := h
  simp only [HirTreeIndexBuilder.tables, Prod.mk.injEq] at ht
  obtain ⟨hmodule, hbody, hbodies, hchildren, howned, hexprs, hblocks⟩ := ht
  refine .of_same ?_ ?_ hmodule
  · funext frame
    cases frame with
    | item item => rfl
    | body body => rw [HirTreeIndex.frameOwner, HirTreeIndex.frameOwner, hbody]
    | node node => exact congrFun ho node
  · funext key
    cases key <;> simp only [HirTreeIndex.listed, hbodies, hchildren, howned, hexprs, hblocks]

variable {owner : HirOwner} {node : HirTreeChild} {item : HirItemId}

theorem logs_node (howner : builder'.owner? = Function.update builder.owner? node (some owner))
    (hsame : ∀ o, builder.owner? node = some o → o = owner)
    (htables : builder'.tables = builder.tables) (hhas : program.has node = true) :
    Logs program builder.index [.node item owner node] builder'.index := by
  -- the other tables are those of a builder that only differs in the owners
  simp only [tables, Prod.mk.injEq] at htables
  obtain ⟨hmodule, hbody, hbodies, hchildren, howned, hexprs, hblocks⟩ := htables
  refine ⟨fun frame o => ?_, fun key => ?_, nofun, List.nodup_nil, fun record h => ?_,
    fun i m h => hmodule ▸ h, fun i h => .inl (hmodule ▸ h), fun m i h => ?_⟩
  · cases frame with
    | item i => simp [HirTreeIndex.frameOwner, HirRecord.notes]
    | body ref => simp [HirTreeIndex.frameOwner, HirRecord.notes, hbody]
    | node n =>
      have hn : builder'.owner? n = if n = node then some owner else builder.owner? n := by
        rw [howner, Function.update_apply]
      simp only [HirTreeIndex.frameOwner, index_owner?, HirRecord.notes, List.flatMap_singleton,
        List.mem_singleton, Prod.mk.injEq, WalkFrame.node.injEq, hn]
      split_ifs with heq
      · subst heq
        constructor
        · intro h
          exact .inr ⟨rfl, (Option.some.inj h).symm⟩
        · rintro (h | ⟨-, rfl⟩)
          · rw [hsame o h]
          · rfl
      · simp [heq]
  · cases key <;> simp [HirTreeIndex.listed, HirRecord.pushes, hbodies, hchildren, howned, hexprs,
      hblocks]
  · rw [List.mem_singleton.mp h]
    exact hhas
  · cases List.mem_singleton.mp h

variable {scope : Option ScopeId} {ref : HirBodyRef}

theorem insertBody_clean (h : (builder.insertBody program item ref owner scope).diagnostics = []) :
    builder.index.bodyOwner.get ref = none := by
  unfold insertBody at h
  dsimp only at h
  split at h
  · exact absurd h (report_diagnostics_ne_nil _)
  · next hnone => exact hnone

theorem logs_insertBody {target : HirTreeChild} (htarget : target.IsTarget)
    (h : (builder.insertBody program item ref owner scope).diagnostics = []) :
    Logs program builder.index [.body item ref owner target]
      (builder.insertBody program item ref owner scope).index := by
  have hnone : builder.index.bodyOwner.get ref = none := insertBody_clean h
  let owned : HirTreeIndexBuilder := { builder with index := { builder.index with
    itemBody := builder.index.itemBody.orInsert item ref
    itemBodies := pushEntry builder.index.itemBodies item ref
    bodyOwner := builder.index.bodyOwner.insert ref owner
    ownedBodies := pushEntry builder.index.ownedBodies owner ref } }
  have howned : Logs program builder.index [.body item ref owner target] owned.index := by
    refine ⟨fun frame o => ?_, fun key => ?_, fun body hbody => ?_, ?_, ?_, fun _ _ => id,
      fun _ => .inl, fun m i hi => ?_⟩
    · cases frame with
      | item i => simp [HirTreeIndex.frameOwner, HirRecord.notes]
      | node n =>
        cases n <;> simp [HirTreeIndex.frameOwner, HirRecord.notes, HirTreeIndex.owner?, owner?, owned]
      | body other =>
        simp only [HirTreeIndex.frameOwner, HirRecord.notes, List.flatMap_singleton,
          List.mem_singleton, Prod.mk.injEq, WalkFrame.body.injEq, owned, Map.get_insert]
        split_ifs with heq
        · subst heq
          rw [hnone]
          simp [eq_comm]
        · simp [heq]
    · cases key with
      | bodies i =>
        by_cases heq : i = item
        · subst heq
          simp [HirTreeIndex.listed, HirRecord.pushes, owned, getD_pushEntry]
        · have hne : ¬item = i := fun h => heq h.symm
          simp [HirTreeIndex.listed, HirRecord.pushes, owned, getD_pushEntry, heq, hne]
      | owned o =>
        by_cases heq : o = owner
        · subst heq
          simp [HirTreeIndex.listed, HirRecord.pushes, owned, getD_pushEntry]
        · have hne : ¬owner = o := fun h => heq h.symm
          simp [HirTreeIndex.listed, HirRecord.pushes, owned, getD_pushEntry, heq, hne]
      | items | exprs | blocks => simp [HirTreeIndex.listed, HirRecord.pushes, owned]
    · rw [List.mem_singleton.mp hbody]
      exact hnone
    · exact List.nodup_singleton _
    · intro record hrecord
      rw [List.mem_singleton.mp hrecord]
      exact htarget
    · cases List.mem_singleton.mp hi
  unfold insertBody
  simp only [hnone]
  cases scope with
  | none => exact howned
  | some scope => exact howned.trans (quiet_insertScopeOwner (.body ref) scope).logs

/-- A record that is kept in one table, at one key. -/
theorem logs_push {index index' : HirTreeIndex} {record : HirRecord} {key : Lister}
    {frame : WalkFrame} (hnotes : record.notes = []) (hpushes : record.pushes = [(key, frame)])
    (hbody : record.body? = none) (howner : index'.frameOwner = index.frameOwner)
    (hlisted : ∀ other, index'.listed other =
      index.listed other ++ if other = key then [frame] else [])
    (hadmits : program.Admits record)
    (hmodules : ∀ item module, index.itemModule.get item = some module →
      index'.itemModule.get item = some module)
    (hplaced : ∀ item, (index'.itemModule.get item).isSome →
      (index.itemModule.get item).isSome ∨ record.item? = some item)
    (hitem : ∀ module item, record ≠ .item module item) : Logs program index [record] index' where
  owner frame owner := by
    rw [howner, List.flatMap_singleton, hnotes]
    simp
  listed other := by
    rw [hlisted, List.flatMap_singleton, hpushes]
    by_cases heq : key = other
    · subst heq
      simp
    · have hne : ¬other = key := fun h => heq h.symm
      simp [heq, hne]
  fresh body h := by
    rw [List.filterMap_cons_none hbody] at h
    cases h
  distinct := by
    rw [List.filterMap_cons_none hbody]
    exact List.nodup_nil
  admitted other h := by
    rw [List.mem_singleton.mp h]
    exact hadmits
  modules := hmodules
  placed item h := (hplaced item h).imp id fun hrecord =>
    List.mem_filterMap.mpr ⟨record, List.mem_singleton_self _, hrecord⟩
  recorded module item h := absurd (List.mem_singleton.mp h).symm (hitem module item)

theorem logs_pushBodyExpr (ref : HirBodyRef) (expr : HirExprId) :
    Logs program builder.index [.root ref (.expr expr)]
      (builder.pushBodyExpr ref expr).index := by
  refine logs_push rfl rfl rfl rfl (fun key => ?_) trivial (fun _ _ => id) (fun _ => .inl) nofun
  cases key with
  | exprs other =>
    simp only [HirTreeIndex.listed, pushBodyExpr, getD_pushEntry, Lister.exprs.injEq,
      List.map_append]
    split_ifs <;> rfl
  | bodies | items | owned | blocks => exact (List.append_nil _).symm

theorem logs_pushBodyBlock (ref : HirBodyRef) (block : HirBlockId) :
    Logs program builder.index [.root ref (.block block)]
      (builder.pushBodyBlock ref block).index := by
  refine logs_push rfl rfl rfl rfl (fun key => ?_) trivial (fun _ _ => id) (fun _ => .inl) nofun
  cases key with
  | blocks other =>
    simp only [HirTreeIndex.listed, pushBodyBlock, getD_pushEntry, Lister.blocks.injEq,
      List.map_append]
    split_ifs <;> rfl
  | bodies | items | owned | exprs => exact (List.append_nil _).symm

variable {module : HirModuleId}

/-- Without a report the item is there, and has no other module. -/
theorem insertItemModule_clean
    (h : (builder.insertItemModule program item module).1.diagnostics = []) :
    builder.diagnostics = [] ∧ item < program.items.length ∧
      (∀ other, builder.index.itemModule.get item = some other → other = module) ∧
      builder.insertItemModule program item module =
        ({ builder with index := { builder.index with
          itemModule := builder.index.itemModule.insert item module } }, true) := by
  unfold insertItemModule at h ⊢
  split_ifs at h ⊢ with hnone
  · exact absurd h (report_diagnostics_ne_nil _)
  · have hlt : item < program.items.length := by
      by_contra hle
      exact hnone (Option.isNone_iff_eq_none.mpr (List.getElem?_eq_none (Nat.le_of_not_lt hle)))
    unfold noteOwner at h ⊢
    dsimp only at h ⊢
    split at h
    · next hprevious =>
      rw [Option.map_eq_none_iff] at hprevious
      rw [hprevious]
      exact ⟨h, hlt, nofun, rfl⟩
    · next previous hprevious =>
      obtain ⟨other, hother, rfl⟩ := Option.map_eq_some_iff.mp hprevious
      split_ifs at h with heq
      · cases heq
        refine ⟨h, hlt, fun o ho => ?_, ?_⟩
        · rw [hother] at ho
          exact (Option.some.inj ho).symm
        · simp
      · exact absurd h (report_diagnostics_ne_nil _)

section
variable {m : Map HirItemId HirModuleId} {item i : HirItemId} {module other : HirModuleId}

theorem insert_keeps (h : ∀ o, m.get item = some o → o = module) (hi : m.get i = some other) :
    (m.insert item module).get i = some other := by
  rw [Map.get_insert]
  split_ifs with heq
  · subst heq
    rw [h other hi]
  · exact hi

theorem isSome_insert (h : ((m.insert item module).get i).isSome) :
    (m.get i).isSome ∨ item = i := by
  rw [Map.get_insert] at h
  split_ifs at h with heq
  · exact .inr heq.symm
  · exact .inl h

end

theorem logs_module {index : HirTreeIndex}
    (h : module < program.modulesArena.length) : Logs program index [.module module] index :=
  ⟨by simp [HirRecord.notes], by simp [HirRecord.pushes], nofun, List.nodup_nil,
    fun record hrecord => List.mem_singleton.mp hrecord ▸ h, fun _ _ => id, fun _ => .inl, nofun⟩

theorem logs_item (hlt : item < program.items.length)
    (hsame : ∀ other, builder.index.itemModule.get item = some other → other = module) :
    Logs program builder.index [.item module item] { builder.index with
      itemModule := builder.index.itemModule.insert item module } where
  owner frame owner := by
    change builder.index.frameOwner frame = some owner ↔ _
    simp [HirRecord.notes]
  listed key := by
    change builder.index.listed key = _
    simp [HirRecord.pushes]
  fresh := nofun
  distinct := List.nodup_nil
  admitted record h := by
    rw [List.mem_singleton.mp h]
    exact hlt
  modules i other hi := insert_keeps hsame hi
  placed i hi := by
    refine (isSome_insert hi).imp id ?_
    rintro rfl
    exact List.mem_singleton_self _
  recorded other i h := by
    cases List.mem_singleton.mp h
    exact Map.get_insert_self _ _ _

theorem logs_callable {impl callable : HirItemId} (position : ℕ) {decl : HirFlowDecl}
    (hdecl : program.items[callable]? = some (.flow decl))
    (hsame : ∀ other, builder.index.itemModule.get callable = some other → other = module) :
    Logs program builder.index [.callable impl position callable] { builder.index with
      itemChildren := pushEntry builder.index.itemChildren impl callable
      itemModule := builder.index.itemModule.insert callable module } := by
  refine logs_push rfl rfl rfl rfl (fun key => ?_) ⟨decl, hdecl⟩
    (fun i other hi => insert_keeps hsame hi)
    (fun i hi => (isSome_insert hi).imp id (congrArg some)) nofun
  cases key with
  | items other =>
    simp only [HirTreeIndex.listed, getD_pushEntry, Lister.items.injEq, List.map_append]
    split_ifs <;> rfl
  | bodies | owned | exprs | blocks => exact (List.append_nil _).symm

def IndexCall.records (item : HirItemId) (call : IndexCall) : List HirRecord :=
  call.bodyRecords item ++ call.visits.map fun visit => .node item visit.1 visit.2

variable {item : HirItemId}

/-- What a run records when it reports nothing. -/
def Records (program : HirProgram) (pending : List HirRecord)
    (builder builder' : HirTreeIndexBuilder) : Prop :=
  ∃ done, Does program.asks pending done ∧ Logs program builder.index done builder'.index

variable {final : HirTreeIndexBuilder} {pending pending' : List HirRecord}

theorem Records.append (h : Records program pending builder builder')
    (h' : Records program pending' builder' final) :
    Records program (pending ++ pending') builder final := by
  obtain ⟨done, hdoes, hlogs⟩ := h
  obtain ⟨done', hdoes', hlogs'⟩ := h'
  exact ⟨done ++ done', hdoes.append hdoes', hlogs.trans hlogs'⟩

theorem Records.cons {record : HirRecord} {next : List HirRecord}
    (hlogs : Logs program builder.index [record] builder'.index)
    (hnext : next.Perm (program.asks record ++ pending))
    (h : Records program next builder' final) :
    Records program (record :: pending) builder final := by
  obtain ⟨done, hdoes, hlogs'⟩ := h
  exact ⟨record :: done, .cons hnext hdoes, hlogs.trans hlogs'⟩

theorem Records.nil (hlogs : Logs program builder.index [] builder'.index) :
    Records program [] builder builder' :=
  ⟨[], .nil, hlogs⟩

theorem perm_records (calls : List IndexCall) :
    (calls.flatMap (IndexCall.records item)).Perm
      (calls.flatMap (IndexCall.bodyRecords item) ++
        (calls.flatMap IndexCall.visits).map fun visit => .node item visit.1 visit.2) := by
  rw [List.map_flatMap]
  exact (List.flatMap_append_perm _ _ _).symm

variable {result : HirTreeIndexBuilder × List IndexCall} {call : IndexCall}

/-- The visit of a node. -/
theorem records_visit (h : Visited program item builder (owner, node) result)
    (hd : result.1.diagnostics = [])
    (hfinal : Records program (result.2.flatMap (IndexCall.records item) ++ pending) result.1
      final) : Records program (.node item owner node :: pending) builder final := by
  cases h with
  | refuse _ hreported _ => exact absurd hd hreported
  | @accept builder' made ht _ hold howner hhas hmade =>
    have hasks : (made.flatMap (IndexCall.records item)).Perm
        (program.asks (.node item owner node)) :=
      (perm_records made).trans (hmade.bodies.append (hmade.visits.map _))
    exact .cons (logs_node howner hold ht hhas) (hasks.append_right pending) hfinal

theorem records_enterExpr {expr : HirExprId}
    (hd : (builder.enterBody program item ref owner scope (.expr expr)).1.diagnostics = [])
    (h : Records program pending
      (builder.enterBody program item ref owner scope (.expr expr)).1 final) :
    Records program (.body item ref owner (.expr expr) :: pending) builder final := by
  have hbody : (builder.insertBody program item ref owner scope).diagnostics = [] := hd
  have htarget : (HirTreeChild.expr expr).IsTarget := trivial
  refine .cons (logs_insertBody htarget hbody) (.refl _) ?_
  exact .cons (logs_pushBodyExpr ref expr) (.refl _) h

theorem records_body {scope : ScopeId} {target : HirBodyTarget}
    (hr : builder.enterBody program item ref owner (some scope) target = result)
    (hd : result.1.diagnostics = [])
    (h : Records program (result.2.flatMap (IndexCall.records item) ++ pending) result.1 final) :
    Records program ((IndexCall.body ref owner scope target).records item ++ pending) builder
      final := by
  subst hr
  cases target with
  | expr expr => exact records_enterExpr hd h
  | block block =>
    have htarget : (HirTreeChild.block block).IsTarget := trivial
    refine .cons (logs_insertBody htarget hd) ?_ h
    exact .swap _ _ pending

theorem records_perform (hr : builder.perform program item fuel call = .ok result)
    (hd : result.1.diagnostics = [])
    (h : Records program (result.2.flatMap (IndexCall.records item) ++ pending) result.1 final) :
    Records program (call.records item ++ pending) builder final := by
  cases call with
  | block block owner =>
    cases hr
    exact records_visit (visited_indexBlock block owner) hd h
  | stmt stmt block =>
    cases hr
    exact records_visit (visited_indexStmt stmt block) hd h
  | expr expr owner =>
    cases hr
    exact records_visit (visited_indexExpr expr owner) hd h
  | pat pat owner =>
    cases hr
    exact records_visit (visited_indexPat pat owner) hd h
  | handlerArm arm owner =>
    cases hr
    exact records_visit (visited_indexHandlerArm arm owner) hd h
  | body ref owner scope target => exact records_body (Except.ok.inj hr) hd h
  | stageLimit ref expr owner limit =>
    rw [perform] at hr
    obtain ⟨scope, -, hr⟩ := bind_eq_ok.mp hr
    cases hr
    exact records_enterExpr hd h
  | bodyBlock ref block =>
    cases hr
    exact .cons (logs_pushBodyBlock ref block) (.refl _) h

/-- A run that ends without reports has made none, and is recorded. -/
def CleanRun (program : HirProgram) (pending : List HirRecord)
    (builder builder' : HirTreeIndexBuilder) : Prop :=
  builder'.diagnostics = [] → builder.diagnostics = [] ∧ Records program pending builder builder'

theorem CleanRun.append (h : CleanRun program pending builder builder')
    (h' : CleanRun program pending' builder' final) :
    CleanRun program (pending ++ pending') builder final := by
  intro hd
  obtain ⟨hd', hrecords'⟩ := h' hd
  obtain ⟨hd'', hrecords⟩ := h hd'
  exact ⟨hd'', hrecords.append hrecords'⟩

theorem CleanRun.of_quiet (h : builder.Quiet builder') : CleanRun program [] builder builder' :=
  fun hd => ⟨h.clean hd, .nil h.logs⟩

theorem CleanRun.refl : CleanRun program [] builder builder :=
  .of_quiet (.refl builder)

theorem CleanRun.of_missing (kind : HirTreeNodeKind) (id : ℕ) (owner : Option HirOwner)
    (pending : List HirRecord) :
    CleanRun program pending builder (builder.missing kind id owner) :=
  fun hd => absurd hd (report_diagnostics_ne_nil _)

theorem Visited.clean {visit : HirOwner × HirTreeChild}
    (h : Visited program item builder visit result) (hd : result.1.diagnostics = []) :
    builder.diagnostics = [] := by
  cases h with
  | accept _ hclean _ _ _ _ => exact hclean hd
  | refuse _ hreported _ => exact absurd hd hreported

theorem enterBody_clean {target : HirBodyTarget}
    (hd : (builder.enterBody program item ref owner scope target).1.diagnostics = []) :
    builder.diagnostics = [] := by
  cases target with
  | expr expr => exact (enterExpr_keeps ref owner scope expr).clean hd
  | block block => exact (insertBody_keeps item ref owner scope).clean hd

theorem perform_clean (hr : builder.perform program item fuel call = .ok result)
    (hd : result.1.diagnostics = []) : builder.diagnostics = [] := by
  cases call with
  | stageLimit ref expr owner limit =>
    rw [perform] at hr
    obtain ⟨scope, -, hr⟩ := bind_eq_ok.mp hr
    cases hr
    exact enterBody_clean hd
  | block block owner =>
    cases hr
    have hvisited : Visited program item builder _ _ := visited_indexBlock block owner
    exact hvisited.clean hd
  | stmt stmt block =>
    cases hr
    exact (visited_indexStmt stmt block).clean hd
  | expr expr owner =>
    cases hr
    exact (visited_indexExpr expr owner).clean hd
  | pat pat owner =>
    cases hr
    have hvisited : Visited program item builder _ _ := visited_indexPat pat owner
    exact hvisited.clean hd
  | handlerArm arm owner =>
    cases hr
    exact (visited_indexHandlerArm arm owner).clean hd
  | body ref owner scope target =>
    cases hr
    exact enterBody_clean hd
  | bodyBlock ref block =>
    cases hr
    exact hd

theorem clean_run {calls : List IndexCall} (h : run program item fuel calls builder = .ok final) :
    CleanRun program (calls.flatMap (IndexCall.records item)) builder final := by
  induction fuel generalizing calls builder with
  | zero =>
    cases calls with
    | nil =>
      cases h
      exact .refl
    | cons call calls => cases h
  | succ fuel ih =>
    cases calls with
    | nil =>
      cases h
      exact .refl
    | cons call calls =>
      rw [run] at h
      obtain ⟨result, hresult, h⟩ := bind_eq_ok.mp h
      intro hd
      obtain ⟨hd', hrecords⟩ := ih h hd
      rw [List.flatMap_append] at hrecords
      exact ⟨perform_clean hresult hd', records_perform hresult hd' hrecords⟩

/-- The body of an item with the run from its root. -/
theorem clean_root {target : HirTreeChild} {finish : HirTreeIndexBuilder → HirTreeIndexBuilder}
    (hcall : call.records item = [.node item (.body ref) target]) (htarget : target.IsTarget)
    (hfinish : ∀ b : HirTreeIndexBuilder, Logs program b.index [.root ref target] (finish b).index)
    (hdiagnostics : ∀ b : HirTreeIndexBuilder, (finish b).diagnostics = b.diagnostics)
    (h : (do
        let b ← run program item fuel [call] (builder.insertBody program item ref owner scope)
        .ok (finish b)) = .ok builder') :
    CleanRun program (bodyRecords item ref owner target) builder builder' := by
  obtain ⟨b, hrun, h⟩ := bind_eq_ok.mp h
  cases h
  intro hd
  rw [hdiagnostics] at hd
  obtain ⟨hd', hnode⟩ := clean_run hrun hd
  rw [List.flatMap_singleton, hcall] at hnode
  have hroot : Records program [.root ref target] b (finish b) :=
    .cons (hfinish b) (.refl _) (.nil (Quiet.refl _).logs)
  refine ⟨(insertBody_keeps item ref owner scope).clean hd', ?_⟩
  exact .cons (logs_insertBody htarget hd') (.swap _ _ []) (hnode.append hroot)

theorem clean_indexFlowBody {flowBody : HirFlowBody}
    (h : (builder.insertBody program item ref owner scope).indexFlowBody program fuel flowBody ref
      item = .ok builder') :
    CleanRun program (bodyRecords item ref owner (.block flowBody.blockId)) builder builder' :=
  clean_root rfl trivial (fun _ => logs_pushBodyBlock ref _) (fun _ => rfl) h

theorem clean_indexRootExpr {expr : HirExprId}
    (h : (builder.insertBody program item ref owner scope).indexRootExpr program fuel expr ref
      item = .ok builder') :
    CleanRun program (bodyRecords item ref owner (.expr expr)) builder builder' :=
  clean_root rfl trivial (fun _ => logs_pushBodyExpr ref _) (fun _ => rfl) h

theorem clean_foldlM {ι : Type} {f : HirTreeIndexBuilder → ι → Except Halt HirTreeIndexBuilder}
    {records : ι → List HirRecord} {l : List ι}
    (hf : ∀ x ∈ l, ∀ b b', f b x = .ok b' → CleanRun program (records x) b b')
    (h : l.foldlM f builder = .ok builder') :
    CleanRun program (l.flatMap records) builder builder' := by
  induction l generalizing builder with
  | nil =>
    cases h
    exact .refl
  | cons x l ih =>
    rw [List.foldlM_cons] at h
    obtain ⟨b, hx, h⟩ := bind_eq_ok.mp h
    exact (hf x List.mem_cons_self builder b hx).append
      (ih (fun y hy => hf y (List.mem_cons_of_mem x hy)) h)

theorem clean_indexItemAnnotations
    (h : builder.indexItemAnnotations program fuel item scope = .ok builder') :
    CleanRun program (program.annotationRecords item) builder builder' :=
  clean_foldlM (fun _ _ _ _ hb => clean_indexRootExpr hb) h

theorem clean_insertScopeOwner (owner : HirOwner) (scope : ScopeId) :
    CleanRun program [] builder (builder.insertScopeOwner program owner scope) :=
  .of_quiet (quiet_insertScopeOwner owner scope)

theorem clean_indexCallable {fuel position : ℕ} {callable : HirItemId}
    (h : builder.indexCallable program fuel item position callable = .ok builder') :
    CleanRun program [.callable item position callable] builder builder' := by
  unfold indexCallable at h
  cases hdata : program.items[callable]? with
  | none =>
    rw [hdata] at h
    cases h
  | some data =>
    cases data with
    | flow decl =>
      rw [hdata] at h
      dsimp only at h
      split at h
      · cases h
      · next module _ =>
        obtain ⟨b, hbody, h⟩ := bind_eq_ok.mp h
        let noted : HirTreeIndexBuilder := { builder with index := { builder.index with
          itemChildren := pushEntry builder.index.itemChildren item callable } }
        let placed := (noted.insertItemModule program callable module).1
        have hscope : CleanRun program [] placed
          (placed.insertScopeOwner program (.item callable) decl.scope) :=
            clean_insertScopeOwner (.item callable) decl.scope
        have htail := (hscope.append (clean_indexFlowBody hbody)).append
          (clean_indexItemAnnotations h)
        intro hd
        obtain ⟨hd', hrecords⟩ := htail hd
        obtain ⟨hd'', -, hsame, hplaced⟩ := insertItemModule_clean hd'
        have hlogs : Logs program builder.index [.callable item position callable]
            placed.index := by
          rw [show placed = _ from congrArg Prod.fst hplaced]
          exact logs_callable position hdata hsame
        refine ⟨hd'', .cons hlogs (.of_eq ?_) hrecords⟩
        simp only [HirProgram.asks, hdata, List.append_nil]
        rfl
    | typeAlias | type | enum | spec | impl | effect | topLevelLet | tool | agent | protocol
    | error =>
      rw [hdata] at h
      cases h
      exact .of_missing _ _ _ _

theorem clean_indexImplItem {fuel position : ℕ} {implItem : HirImplItem}
    (h : builder.indexImplItem program fuel item position implItem = .ok builder') :
    CleanRun program (implItemRecords item position implItem) builder builder' := by
  cases implItem with
  | callable callable => exact clean_indexCallable h
  | flow decl => exact clean_indexFlowBody h
  | action | error =>
    cases h
    exact .refl

theorem clean_indexItemBody {data : HirItem}
    (h : builder.indexItemBody program fuel item data = .ok builder') :
    CleanRun program (itemBodyRecords item data) builder builder' := by
  cases data with
  | flow decl => exact clean_indexFlowBody h
  | topLevelLet value => exact clean_indexRootExpr h
  | impl items scope => exact clean_foldlM (fun _ _ _ _ hb => clean_indexImplItem hb) h
  | tool body scope =>
    cases body with
    | source body => exact clean_indexFlowBody h
    | decl | error =>
      cases h
      exact .refl
  | agent body scope =>
    cases body with
    | source block => exact clean_indexFlowBody h
    | decl | error =>
      cases h
      exact .refl
  | typeAlias | type | enum | spec | effect | protocol | error =>
    cases h
    exact .refl

theorem clean_indexItem (module : HirModuleId)
    (h : builder.indexItem program fuel item = .ok builder') :
    CleanRun program (program.asks (.item module item)) builder builder' := by
  unfold indexItem at h
  cases hdata : program.items[item]? with
  | none =>
    rw [hdata] at h
    cases h
    exact .of_missing _ _ _ _
  | some data =>
    have hasks : program.asks (.item module item) =
        itemBodyRecords item data ++ program.annotationRecords item := by
      simp only [HirProgram.asks, hdata]
    rw [hdata] at h
    rw [hasks]
    dsimp only at h
    obtain ⟨b, hbody, h⟩ := bind_eq_ok.mp h
    have htail := (clean_indexItemBody hbody).append (clean_indexItemAnnotations h)
    cases hscope : data.scope with
    | none =>
      rw [hscope] at htail
      exact htail
    | some scope =>
      rw [hscope] at htail
      exact (clean_insertScopeOwner (.item item) scope).append htail

theorem clean_indexModuleItem
    (h : builder.indexModuleItem program fuel module item = .ok builder') :
    CleanRun program [.item module item] builder builder' := by
  unfold indexModuleItem at h
  have hclean := @insertItemModule_clean program builder item module
  generalize hentered : builder.insertItemModule program item module = result at h hclean
  obtain ⟨entered, accepted⟩ := result
  intro hd
  cases accepted with
  | false =>
    cases h
    obtain ⟨-, -, -, hplaced⟩ := hclean hd
    cases congrArg Prod.snd hplaced
  | true =>
    obtain ⟨hd', hitem⟩ := clean_indexItem module h hd
    obtain ⟨hd'', hlt, hsame, hplaced⟩ := hclean hd'
    have hlogs : Logs program builder.index [.item module item] entered.index := by
      rw [show entered = _ from congrArg Prod.fst hplaced]
      exact logs_item hlt hsame
    exact ⟨hd'', .cons hlogs (.of_eq (List.append_nil _).symm) hitem⟩

theorem clean_indexModule (h : builder.indexModule program fuel module = .ok builder') :
    CleanRun program [.module module] builder builder' := by
  unfold indexModule at h
  cases hdata : program.modulesArena[module]? with
  | none =>
    rw [hdata] at h
    cases h
    exact .of_missing _ _ _ _
  | some data =>
    rw [hdata] at h
    dsimp only at h
    have hitems := clean_foldlM (fun _ _ _ _ hb => clean_indexModuleItem hb) h
    rw [← List.map_eq_flatMap] at hitems
    intro hd
    obtain ⟨hd', hrecords⟩ := hitems hd
    let entered := builder.insertScopeOwner program (.module module) data.scope
    let noted : HirTreeIndexBuilder := { entered with index := { entered.index with
      moduleItems := entered.index.moduleItems.insert module data.items } }
    have hentered : builder.Quiet entered := quiet_insertScopeOwner _ _
    have hnoted : builder.Quiet noted := hentered.trans ⟨rfl, rfl, id⟩
    have hasks : program.asks (.module module) = data.items.map (.item module) := by
      simp only [HirProgram.asks, hdata]
    have hlogs := hnoted.logs.trans (logs_module (List.getElem?_eq_some_iff.mp hdata).1)
    refine ⟨hnoted.clean hd', .cons hlogs (.of_eq ?_) hrecords⟩
    rw [hasks, List.append_nil]

theorem clean_build (h : build program start fuel = .ok builder') :
    CleanRun program program.rootRecords start builder' :=
  (CleanRun.of_quiet (quiet_indexScopes _)).append
    (List.map_eq_flatMap ▸ clean_foldlM (fun _ _ _ _ hb => clean_indexModule hb) h)

end HirTreeIndexBuilder

/-- The records of an accepted index. -/
structure IndexLog (program : HirProgram) (index : HirTreeIndex) (log : List HirRecord) :
    Prop where
  does : Does program.asks program.rootRecords log
  logs : Logs program .empty log index
  visited : HirTreeIndexBuilder.AllVisited program index

theorem HirTreeIndex.exists_log {program : HirProgram} {index : HirTreeIndex}
    (h : tryBuild program fuel = .ok (.ok index)) : ∃ log, IndexLog program index log := by
  obtain ⟨builder, hbuild, h⟩ := bind_eq_ok.mp h
  dsimp only at h
  split at h
  · next hempty =>
    cases h
    obtain ⟨hd, hvisited⟩ := HirTreeIndexBuilder.allVisited_of_validateOrphans
      (List.isEmpty_iff.mp hempty)
    obtain ⟨-, log, hdoes, hlogs⟩ := HirTreeIndexBuilder.clean_build hbuild hd
    exact ⟨log, hdoes, hlogs, hvisited⟩
  · cases h

end EtasFrontend.Hir
