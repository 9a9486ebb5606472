import EtasFrontend.Hir.TreeLog

/-! What an accepted index says about the program: where nothing is listed twice, it is that of a
tree. -/
namespace EtasFrontend.Hir
open Lib HirTreeIndexBuilder

variable {program : HirProgram} {item impl callable : HirItemId} {owner : HirOwner}
variable {node : HirTreeChild} {position : ℕ} {root : HirOwner × HirTreeChild}

/-! The roots of the items. -/

theorem anchor_of_mem_annotationRoots (h : root ∈ program.annotationRoots item) :
    root.1.anchor = none := by
  obtain ⟨arg, -, rfl⟩ := List.mem_map.mp h
  rfl

theorem anchor_of_mem_implItemRoots {implItem : HirImplItem}
    (h : root ∈ program.implItemRoots item position implItem) : root.1.anchor = none := by
  unfold HirProgram.implItemRoots at h
  split at h
  · split at h
    · rcases List.mem_cons.mp h with rfl | h
      · rfl
      · exact anchor_of_mem_annotationRoots h
    · cases h
  · rw [List.mem_singleton.mp h]
    rfl
  · cases h
  · cases h

theorem anchor_of_mem_bodyRoots {data : HirItem} (h : root ∈ program.bodyRoots item data) :
    root.1.anchor = none := by
  unfold HirProgram.bodyRoots at h
  split at h
  case h_5 =>
    obtain ⟨implItem, -, h⟩ := List.mem_flatMap.mp h
    exact anchor_of_mem_implItemRoots h
  case h_6 => cases h
  all_goals
    rw [List.mem_singleton.mp h]
    rfl

theorem anchor_of_root (h : program.Root root) : root.1.anchor = none := by
  obtain ⟨item, -, h⟩ := h
  unfold HirProgram.itemRoots at h
  split at h
  · cases h
  · rcases List.mem_append.mp h with h | h
    · exact anchor_of_mem_bodyRoots h
    · exact anchor_of_mem_annotationRoots h

/-- The roots that a record visits, or asks to be visited. -/
def HirProgram.rootsOf (program : HirProgram) : HirRecord → List (HirOwner × HirTreeChild)
  | .node _ owner node => [(owner, node)]
  | .callable impl position callable => program.implItemRoots impl position (.callable callable)
  | _ => []

theorem rootsOf_annotationRecords (item : HirItemId) :
    (program.annotationRecords item).flatMap program.rootsOf = program.annotationRoots item := by
  rw [HirProgram.annotationRecords, HirProgram.annotationRoots, List.flatMap_assoc,
    List.map_eq_flatMap]
  rfl

theorem rootsOf_implItemRecords (implItem : HirImplItem) :
    (implItemRecords item position implItem).flatMap program.rootsOf =
      program.implItemRoots item position implItem := by
  cases implItem with
  | callable callable => exact List.append_nil _
  | flow | action | error => rfl

theorem rootsOf_itemBodyRecords (data : HirItem) :
    (itemBodyRecords item data).flatMap program.rootsOf = program.bodyRoots item data := by
  cases data with
  | impl items scope =>
    simp only [itemBodyRecords, HirProgram.bodyRoots, List.flatMap_assoc, rootsOf_implItemRecords]
  | tool body scope => cases body <;> rfl
  | agent body scope => cases body <;> rfl
  | typeAlias | type | enum | spec | effect | flow | topLevelLet | protocol | error => rfl

theorem itemRoots_eq (module : HirModuleId) (item : HirItemId) :
    program.itemRoots item = (program.asks (.item module item)).flatMap program.rootsOf := by
  simp only [HirProgram.itemRoots, HirProgram.asks]
  cases program.items[item]? with
  | none => rfl
  | some data => simp only [List.flatMap_append, rootsOf_itemBodyRecords, rootsOf_annotationRecords]

theorem implItemRoots_eq (impl : HirItemId) (position : ℕ) (callable : HirItemId) :
    program.implItemRoots impl position (.callable callable) =
      (program.asks (.callable impl position callable)).flatMap program.rootsOf := by
  simp only [HirProgram.implItemRoots, HirProgram.asks]
  cases program.items[callable]? with
  | none => rfl
  | some data =>
    cases data with
    | flow decl =>
      simp only [List.flatMap_append, rootsOf_annotationRecords]
      rfl
    | typeAlias | type | enum | spec | impl | effect | topLevelLet | tool | agent | protocol
    | error => rfl

theorem root_of_callable {items : List HirImplItem} {scope : ScopeId}
    (hi : program.InModule impl) (hitem : program.items[impl]? = some (.impl items scope))
    (hat : items[position]? = some (.callable callable))
    (h : root ∈ program.implItemRoots impl position (.callable callable)) : program.Root root := by
  refine ⟨impl, hi, ?_⟩
  simp only [HirProgram.itemRoots, hitem]
  refine List.mem_append_left _ (List.mem_flatMap.mpr ⟨(.callable callable, position), ?_, h⟩)
  exact List.mem_zipIdx_iff_getElem?.mpr hat

/-! What the records come from. -/

/-- What the program lists gives the record, and the owners above a node end. -/
def Supported (program : HirProgram) (index : HirTreeIndex) : HirRecord → Prop
  | .module module => module ∈ program.modules
  | .item module item => module ∈ program.modules ∧ ∃ data,
      program.modulesArena[module]? = some data ∧ item ∈ data.items
  | .callable impl position callable => program.InModule impl ∧ ∃ items scope,
      program.items[impl]? = some (.impl items scope) ∧
        items[position]? = some (.callable callable)
  | .node _ _ node => program.Reached node ∧ Acc index.Owns node
  | .body _ _ _ _ | .root _ _ => True

namespace IndexLog
variable {index : HirTreeIndex} {log : List HirRecord} {record : HirRecord}
  {module : HirModuleId} (h : IndexLog program index log)

include h

theorem acc_node (hnode : .node item owner node ∈ log)
    (hacc : ∀ parent, owner.anchor = some parent → Acc index.Owns parent) :
    Acc index.Owns node := by
  refine Acc.intro node fun parent hparent => ?_
  obtain ⟨other, hother, hanchor⟩ := hparent
  have howner : index.owner? node = some owner := h.owner_node.mpr ⟨item, hnode⟩
  rw [howner] at hother
  cases hother
  exact hacc parent hanchor

theorem supported_root (hnode : .node item owner node ∈ log) (hroot : program.Root (owner, node)) :
    Supported program index (.node item owner node) := by
  refine ⟨.root hroot, h.acc_node hnode fun parent hparent => ?_⟩
  rw [anchor_of_root hroot] at hparent
  cases hparent

theorem supported (hrecord : record ∈ log) : Supported program index record := by
  have hall : ∀ record ∈ log, record ∈ log ∧ Supported program index record := by
    refine h.does.forall_done (fun record hroot => ?_) fun record hsupported next hnext => ?_
    · have hmem : record ∈ log := h.does.perm.mem_iff.mpr (List.mem_append_left _ hroot)
      obtain ⟨module, hmodule, rfl⟩ := List.mem_map.mp hroot
      exact ⟨hmem, hmodule⟩
    · obtain ⟨hmem, hsupported⟩ := hsupported
      have hnextMem : next ∈ log := h.closed hmem hnext
      refine ⟨hnextMem, ?_⟩
      cases record with
      | module module =>
        obtain ⟨data, hdata, item, hitem, rfl⟩ := asks_module hnext
        exact ⟨hsupported, data, hdata, hitem⟩
      | item module item =>
        have hin : program.InModule item := ⟨module, hsupported⟩
        rcases asks_item hnext with ⟨ref, target, hbody, -⟩ |
          ⟨position, callable, items, scope, rfl, hitem, hat⟩
        · rcases List.mem_cons.mp hbody with rfl | hbody
          · trivial
          · cases List.mem_singleton.mp hbody
            refine h.supported_root hnextMem ⟨item, hin, ?_⟩
            rw [itemRoots_eq module]
            exact List.mem_flatMap.mpr ⟨_, hnext, List.mem_singleton_self _⟩
        · exact ⟨hin, items, scope, hitem, hat⟩
      | callable impl position callable =>
        obtain ⟨hin, items, scope, hitem, hat⟩ := hsupported
        obtain ⟨ref, target, hbody, -⟩ := asks_callable hnext
        rcases List.mem_cons.mp hbody with rfl | hbody
        · trivial
        · cases List.mem_singleton.mp hbody
          refine h.supported_root hnextMem (root_of_callable hin hitem hat ?_)
          rw [implItemRoots_eq]
          exact List.mem_flatMap.mpr ⟨_, hnext, List.mem_singleton_self _⟩
      | body item ref owner target =>
        rw [List.mem_singleton.mp hnext]
        trivial
      | root => cases hnext
      | node item owner node =>
        rcases List.mem_append.mp hnext with hnext | hnext
        · obtain ⟨⟨kind, child⟩, -, hnext⟩ := List.mem_flatMap.mp hnext
          cases kind with
          | none => cases hnext
          | some kind =>
            rw [List.mem_singleton.mp hnext]
            trivial
        · obtain ⟨visit, hvisit, rfl⟩ := List.mem_map.mp hnext
          obtain ⟨entry, hentry, rfl⟩ := List.mem_map.mp hvisit
          refine ⟨hsupported.1.step hentry, h.acc_node hnextMem fun parent hparent => ?_⟩
          rw [HirProgram.anchor_of_mem_entries hentry item] at hparent
          cases hparent
          exact hsupported.2
  exact (hall record hrecord).2

/-! Everything that is listed is recorded. -/

theorem module_mem (hmodule : module ∈ program.modules) : .module module ∈ log := by
  refine h.does.perm.mem_iff.mpr (List.mem_append_left _ ?_)
  exact List.mem_map_of_mem hmodule

theorem item_mem (hmodule : module ∈ program.modules) {data : HirModule}
    (hdata : program.modulesArena[module]? = some data) (hitem : item ∈ data.items) :
    .item module item ∈ log := by
  refine h.closed (h.module_mem hmodule) ?_
  simp only [HirProgram.asks, hdata]
  exact List.mem_map_of_mem hitem

theorem callable_mem (hi : program.InModule impl) {items : List HirImplItem} {scope : ScopeId}
    (hitem : program.items[impl]? = some (.impl items scope))
    (hat : items[position]? = some (.callable callable)) :
    .callable impl position callable ∈ log := by
  obtain ⟨module, hmodule, data, hdata, himpl⟩ := hi
  refine h.closed (h.item_mem hmodule hdata himpl) ?_
  simp only [HirProgram.asks, hitem]
  refine List.mem_append_left _ (List.mem_flatMap.mpr ⟨(.callable callable, position), ?_, ?_⟩)
  · exact List.mem_zipIdx_iff_getElem?.mpr hat
  · exact List.mem_singleton_self _

theorem node_of_root (hroot : program.Root root) : ∃ i, .node i root.1 root.2 ∈ log := by
  obtain ⟨item, ⟨module, hmodule, data, hdata, hitem⟩, hroot⟩ := hroot
  have hmem := h.item_mem hmodule hdata hitem
  rw [itemRoots_eq module] at hroot
  obtain ⟨record, hrecord, hroot⟩ := List.mem_flatMap.mp hroot
  have hrecord := h.closed hmem hrecord
  cases record with
  | node i o n =>
    cases List.mem_singleton.mp hroot
    exact ⟨i, hrecord⟩
  | callable impl position callable =>
    rw [HirProgram.rootsOf, implItemRoots_eq] at hroot
    obtain ⟨next, hnext, hroot⟩ := List.mem_flatMap.mp hroot
    obtain ⟨ref, target, hbody, -⟩ := asks_callable hnext
    rcases List.mem_cons.mp hbody with rfl | hbody
    · cases hroot
    · cases List.mem_singleton.mp hbody
      cases List.mem_singleton.mp hroot
      exact ⟨_, h.closed hrecord hnext⟩
  | module | item | body | root => cases hroot

theorem node_of_entry (hnode : .node item owner node ∈ log)
    {entry : Option HirBodyKind × HirTreeChild} (hentry : entry ∈ program.entries node) :
    .node item (node.childOwner item entry.1) entry.2 ∈ log := by
  refine h.closed hnode (List.mem_append_right _ (List.mem_map.mpr
    ⟨(node.childOwner item entry.1, entry.2), ?_, rfl⟩))
  exact List.mem_map.mpr ⟨entry, hentry, rfl⟩

theorem node_of_reached (hn : program.Reached node) : ∃ i o, .node i o node ∈ log := by
  induction hn with
  | root hroot =>
    obtain ⟨i, hnode⟩ := h.node_of_root hroot
    exact ⟨i, _, hnode⟩
  | step _ hentry ih =>
    obtain ⟨i, o, hnode⟩ := ih
    exact ⟨i, _, h.node_of_entry hnode hentry⟩

theorem owner_of_nodeAt {parent : HirTreeChild}
    (hp : program.NodeAt node (.inr (parent, position))) :
    ∃ o, index.owner? node = some o ∧ o.anchor = some parent := by
  cases hp with
  | child hreached hat =>
    obtain ⟨i, o, hparent⟩ := h.node_of_reached hreached
    have hentry := List.mem_of_getElem? hat
    refine ⟨_, h.owner_node.mpr ⟨i, h.node_of_entry hparent hentry⟩, ?_⟩
    exact HirProgram.anchor_of_mem_entries hentry i

theorem record_of_nodeAt {p : HirOwner ⊕ HirTreeChild × ℕ} (hp : program.NodeAt node p) :
    ∃ i o, .node i o node ∈ log ∧ (p = .inl o ∧ o.anchor = none ∨
      ∃ parent kind position, p = .inr (parent, position) ∧ o = parent.childOwner i kind ∧
        o.anchor = some parent ∧ program.Reached parent ∧
        (program.entries parent)[position]? = some (kind, node)) := by
  cases hp with
  | @root root hroot =>
    obtain ⟨i, hnode⟩ := h.node_of_root hroot
    exact ⟨i, root.1, hnode, .inl ⟨rfl, anchor_of_root hroot⟩⟩
  | @child parent _ kind position hreached hat =>
    obtain ⟨i, o, hparent⟩ := h.node_of_reached hreached
    have hentry := List.mem_of_getElem? hat
    exact ⟨i, _, h.node_of_entry hparent hentry, .inr ⟨parent, kind, position, rfl, rfl,
      HirProgram.anchor_of_mem_entries hentry i, hreached, hat⟩⟩

theorem nodeAt_unique (hw : program.WellListed) {p q : HirOwner ⊕ HirTreeChild × ℕ}
    (hp : program.NodeAt node p) (hq : program.NodeAt node q) : p = q := by
  obtain ⟨i, o, hnode, hp⟩ := h.record_of_nodeAt hp
  obtain ⟨j, o', hnode', hq⟩ := h.record_of_nodeAt hq
  obtain ⟨rfl, rfl⟩ := h.node_unique hnode hnode'
  rcases hp with ⟨rfl, hnone⟩ | ⟨parent, kind, position, rfl, howner, hanchor, hreached, hat⟩
  · rcases hq with ⟨rfl, -⟩ | ⟨parent, kind, position, rfl, -, hanchor, -, -⟩
    · rfl
    · rw [hnone] at hanchor
      cases hanchor
  · rcases hq with ⟨rfl, hnone⟩ | ⟨parent', kind', position', rfl, howner', hanchor', -, hat'⟩
    · rw [hnone] at hanchor
      cases hanchor
    · -- the owner tells the parent, and at the parent the body
      rw [hanchor] at hanchor'
      cases hanchor'
      rw [howner] at howner'
      cases HirTreeChild.childOwner_inj howner'
      obtain ⟨hlt, -⟩ := List.getElem?_eq_some_iff.mp hat
      rw [(List.getElem?_inj hlt (hw.children parent hreached)).mp (hat.trans hat'.symm)]

theorem not_callable (hitem : .item module item ∈ log) : .callable impl position item ∉ log := by
  intro hcallable
  obtain ⟨decl, hdecl, hbody⟩ := h.callable_body hcallable
  have hnode := h.closed hcallable (hbody (List.mem_cons_of_mem _ List.mem_cons_self))
  have hflow : .node item (.body ⟨item, .flow⟩) (.block decl.body.blockId) ∈ log := by
    refine h.closed hitem ?_
    simp only [HirProgram.asks, hdecl]
    exact List.mem_append_left _ (List.mem_cons_of_mem _ List.mem_cons_self)
  have howner := (h.node_unique hnode hflow).2
  cases howner

theorem itemAt_unique (hw : program.WellListed) {p q : HirOwner × ℕ}
    (hp : program.ItemAt item p) (hq : program.ItemAt item q) : p = q := by
  cases hp with
  | @module module data k _ hmodule hdata hat =>
    have hitem := h.item_mem hmodule hdata (List.mem_of_getElem? hat)
    cases hq with
    | @module module' data' k' _ hmodule' hdata' hat' =>
      have hget := h.logs.recorded _ _ hitem
      have hget' := h.logs.recorded _ _ (h.item_mem hmodule' hdata' (List.mem_of_getElem? hat'))
      rw [hget] at hget'
      cases hget'
      rw [hdata] at hdata'
      cases hdata'
      obtain ⟨hlt, -⟩ := List.getElem?_eq_some_iff.mp hat
      rw [(List.getElem?_inj hlt (hw.items module hmodule data hdata)).mp (hat.trans hat'.symm)]
    | impl hi hd hat' => exact absurd (h.callable_mem hi hd hat') (h.not_callable hitem)
  | impl hi hd hat =>
    have hcallable := h.callable_mem hi hd hat
    cases hq with
    | module hmodule hdata hat' =>
      have hitem := h.item_mem hmodule hdata (List.mem_of_getElem? hat')
      exact absurd hcallable (h.not_callable hitem)
    | impl hi' hd' hat' =>
      obtain ⟨rfl, rfl⟩ := h.callable_unique hcallable (h.callable_mem hi' hd' hat')
      rfl

theorem item_listed (hlt : item < program.items.length) :
    ∃ position, program.ItemAt item position := by
  rcases h.logs.placed item (h.visited.items item hlt) with hempty | hmem
  · cases hempty
  · obtain ⟨record, hrecord, hsome⟩ := List.mem_filterMap.mp hmem
    have hsupported := h.supported hrecord
    cases record with
    | item module i =>
      cases hsome
      obtain ⟨hmodule, data, hdata, hitem⟩ := hsupported
      obtain ⟨position, hat⟩ := List.mem_iff_getElem?.mp hitem
      exact ⟨_, .module hmodule hdata hat⟩
    | callable impl position i =>
      cases hsome
      obtain ⟨hi, items, scope, hd, hat⟩ := hsupported
      exact ⟨_, .impl hi hd hat⟩
    | module | body | root | node => cases hsome

theorem supported_of_owner (ho : index.owner? node = some owner) :
    program.Reached node ∧ Acc index.Owns node := by
  obtain ⟨i, hnode⟩ := h.owner_node.mp ho
  exact h.supported hnode

theorem forest : WellFounded index.Owns := by
  refine ⟨fun node => ?_⟩
  cases ho : index.owner? node with
  | some owner => exact (h.supported_of_owner ho).2
  | none =>
    refine Acc.intro node fun parent hparent => ?_
    obtain ⟨owner, howner, -⟩ := hparent
    rw [ho] at howner
    cases howner

theorem indexesTree (hw : program.WellListed) : IndexesTree program index where
  module_listed := h.visited.modules
  module_once := hw.modules
  item_listed _ hlt := h.item_listed hlt
  item_once := h.itemAt_unique hw
  node_reached node hn ho := by
    obtain ⟨owner, howner⟩ := Option.isSome_iff_exists.mp (h.visited.nodes node hn ho)
    exact (h.supported_of_owner howner).1
  node_once := h.nodeAt_unique hw
  owner_of_parent := h.owner_of_nodeAt
  forest := h.forest
  enclosing_scope node := by
    cases node with
    | expr e => exact enclosingScope_ok h.forest (.expr e)
    | pat pat => exact enclosingScope_ok h.forest (.pattern pat)
    | stmt st => exact enclosingScope_ok h.forest (.stmt st)
    | handlerArm arm => exact enclosingScope_ok h.forest (.handlerArm arm)
    | block b => exact enclosingScope_ok h.forest (.block b)
    | item | type | symbol =>
      refine ⟨1, fun fuel hf => ?_⟩
      obtain ⟨fuel, rfl⟩ : ∃ f, fuel = f + 1 := ⟨fuel - 1, by omega⟩
      exact ⟨_, rfl⟩

end IndexLog

theorem nodup_of_getElem?_inj {α : Type} {l : List α}
    (h : ∀ {i j : ℕ} {x : α}, l[i]? = some x → l[j]? = some x → i = j) : l.Nodup := by
  refine List.nodup_iff_getElem?_ne_getElem?.mpr fun i j hij hj heq => ?_
  have hget := List.getElem?_eq_getElem hj
  exact hij.ne (h (heq.trans hget) hget)

theorem IndexesTree.wellListed {index : HirTreeIndex} (h : IndexesTree program index) :
    program.WellListed where
  modules := h.module_once
  items module hmodule data hdata := nodup_of_getElem?_inj fun hi hj =>
    congrArg Prod.snd (h.item_once (.module hmodule hdata hi) (.module hmodule hdata hj))
  children node hreached := nodup_of_getElem?_inj fun {i j entry} hi hj => by
    have hone := h.node_once (.child hreached hi) (.child hreached hj)
    cases hone
    rfl

section
variable {builder final : HirTreeIndexBuilder} {fuel : ℕ}

theorem safe_of_mem {ι : Type} {step : ℕ → HirTreeIndexBuilder → ι → Except Halt HirTreeIndexBuilder}
    {safe : HirTreeIndexBuilder → ι → Prop} {l : List ι} (h : SafeLoop step safe l builder)
    (hrun : l.foldlM (step fuel) builder = .ok final) : ∀ x ∈ l, ∃ b, safe b x := by
  induction l generalizing builder with
  | nil => exact List.forall_mem_nil _
  | cons x l ih =>
    rw [List.foldlM_cons] at hrun
    obtain ⟨next, hnext, hrun⟩ := bind_eq_ok.mp hrun
    rw [List.forall_mem_cons]
    exact ⟨⟨builder, h.1⟩, ih (h.2 fuel next hnext) hrun⟩

theorem wellListed_of_safe (h : Safe program) (hbuild : build program start fuel = .ok final)
    (hgrown : start.Grown program final) (hd : final.diagnostics = []) {log : List HirRecord}
    (hlog : IndexLog program final.index log) : program.WellListed where
  modules := by
    have hall : program.modules.filter (· < program.modulesArena.length) = program.modules :=
      List.filter_eq_self.mpr fun m hm => decide_eq_true (hlog.logs.admitted _ (hlog.module_mem hm))
    exact hall ▸ h.1
  items module hmodule data hdata := by
    obtain ⟨b, hsafe⟩ := safe_of_mem h.2 hbuild module hmodule
    have hall : data.items.filter (· < program.items.length) = data.items :=
      List.filter_eq_self.mpr fun i hi =>
        decide_eq_true (hlog.logs.admitted _ (hlog.item_mem hmodule hdata hi))
    exact hall ▸ (hsafe data hdata).1
  children node hreached := by
    obtain ⟨i, o, hnode⟩ := hlog.node_of_reached hreached
    have howner : final.owner? node = some o := by
      rw [← index_owner?]
      exact hlog.owner_node.mpr ⟨i, hnode⟩
    refine (hgrown.listed hd node (Option.isSome_iff_exists.mpr ⟨o, howner⟩)).resolve_left ?_
    cases node <;> exact Bool.false_ne_true

end

/-- A build that meets no node under the owner that it has already returns, and accepts trees only.
What any build accepts is a tree if and only if nothing is listed twice. -/
theorem HirTreeIndex.tryBuild_indexesTree (program : HirProgram) :
    (HirTreeIndexBuilder.Safe program → ∃ bound, ∀ fuel ≥ bound, ∃ result,
      tryBuild program fuel = .ok result ∧
        ∀ index, result = .ok index → IndexesTree program index) ∧
    ∀ fuel index, tryBuild program fuel = .ok (.ok index) →
      (IndexesTree program index ↔ program.WellListed) := by
  have accepted : ∀ fuel index, tryBuild program fuel = .ok (.ok index) →
      (IndexesTree program index ↔ program.WellListed) := by
    intro fuel index h
    obtain ⟨log, hlog⟩ := exists_log h
    exact ⟨IndexesTree.wellListed, hlog.indexesTree⟩
  refine ⟨fun hsafe => ?_, accepted⟩
  obtain ⟨final, ⟨bound, hbuild⟩, hgrown⟩ := ends_build hsafe
  refine ⟨bound, fun fuel hf => ?_⟩
  have hbuild : build program ⟨.empty, []⟩ fuel = .ok final := hbuild fuel hf
  have htry : tryBuild program fuel = if (final.validateOrphans program).diagnostics.isEmpty then
      .ok (.ok final.index) else .ok (.error (final.validateOrphans program).diagnostics) := by
    unfold tryBuild
    rw [hbuild]
    rfl
  by_cases hd : (final.validateOrphans program).diagnostics.isEmpty
  · rw [if_pos hd] at htry
    refine ⟨.ok final.index, htry, fun index hi => ?_⟩
    cases hi
    obtain ⟨hclean, -⟩ := allVisited_of_validateOrphans (List.isEmpty_iff.mp hd)
    obtain ⟨log, hlog⟩ := exists_log htry
    exact hlog.indexesTree (wellListed_of_safe hsafe hbuild hgrown hclean hlog)
  · rw [if_neg hd] at htry
    exact ⟨_, htry, nofun⟩

def flowSpan : Span := ⟨0, 0, 0⟩

/-- A module with one flow, whose body is a block with a final expression. -/
def flowProgram (exprs : List HirExpr) : HirProgram :=
  { HirProgram.empty with
    modules := [0]
    modulesArena := [⟨[0], 0, none⟩]
    scopes := [⟨none, .module 0, ∅, flowSpan⟩, ⟨some 0, .item 0, ∅, flowSpan⟩,
      ⟨some 1, .block 0, ∅, flowSpan⟩]
    items := [.flow ⟨0, [], .block 0, 1⟩]
    exprs := exprs
    blocks := [⟨[], some 0, 2⟩] }

/-- A pipeline with one limited stage. -/
def limitedPipeline : HirProgram :=
  flowProgram [.pipeline 1 [⟨2, [3]⟩], .literal (.int "1"), .emptySequence, .literal (.int "3")]

variable {builder : HirTreeIndexBuilder}

theorem SafeRun.nil (steps : ℕ) : SafeRun program item steps [] builder := by
  cases steps <;> trivial

variable {calls : List IndexCall} {call : IndexCall} {result : HirTreeIndexBuilder × List IndexCall}

theorem SafeRun.cons (hfresh : builder.Fresh program call)
    (honly : ∀ fuel other, builder.perform program item fuel call = .ok other → other = result)
    (h : ∀ steps, SafeRun program item steps (result.2 ++ calls) result.1) (steps : ℕ) :
    SafeRun program item steps (call :: calls) builder := by
  cases steps with
  | zero => trivial
  | succ steps =>
    refine ⟨hfresh, fun fuel other hother => ?_⟩
    rw [honly fuel other hother]
    exact h steps

theorem fresh_of_visits {visit : HirOwner × HirTreeChild} (hvisit : call.visits = [visit])
    (hnone : builder.owner? visit.2 = none) : builder.Fresh program call := by
  have hall : ∀ other ∈ call.visits, program.has other.2 = true →
      builder.owner? other.2 ≠ some other.1 := by
    intro other hother _
    rw [hvisit] at hother
    rw [List.mem_singleton.mp hother, hnone]
    nofun
  cases call with
  | stageLimit => cases hvisit
  | block | stmt | expr | pat | handlerArm | body | bodyBlock => exact hall

/-- The visit of a new node. -/
theorem SafeRun.visit {visit : HirOwner × HirTreeChild}
    (hvisit : call.visits = [visit]) (hnone : builder.owner? visit.2 = none)
    (hcall : ∀ fuel, builder.perform program item fuel call = .ok result)
    (h : ∀ steps, SafeRun program item steps (result.2 ++ calls) result.1) :
    ∀ steps, SafeRun program item steps (call :: calls) builder := by
  refine SafeRun.cons (fresh_of_visits hvisit hnone) (fun fuel other hother => ?_) h
  rw [hcall fuel] at hother
  exact (Except.ok.inj hother).symm

/-- A limit below an owner with a scope. -/
theorem SafeRun.limit {ref : HirBodyRef} {expr limit : HirExprId} {scope : Option ScopeId}
    (hscope : ∀ fuel, builder.scopeForIndexOwner program (fuel + 1) owner = .ok scope)
    (h : ∀ steps, SafeRun program item steps calls
      (builder.enterBody program item ref (.expr expr) scope (.expr limit)).1) :
    ∀ steps, SafeRun program item steps (.stageLimit ref expr owner limit :: calls) builder := by
  let result := builder.enterBody program item ref (.expr expr) scope (.expr limit)
  have hrest : ∀ steps, SafeRun program item steps (result.2 ++ calls) result.1 := h
  refine SafeRun.cons ⟨1, scope, hscope 0⟩ (fun fuel other hother => ?_) hrest
  rw [perform] at hother
  cases fuel with
  | zero => cases hother
  | succ fuel =>
    rw [hscope fuel] at hother
    exact (Except.ok.inj hother).symm

theorem limitedPipeline_safe : Safe limitedPipeline := by
  refine ⟨by decide, fun data hdata => ?_, fun _ _ _ => trivial⟩
  cases hdata
  refine ⟨by decide, fun _ data hdata => ?_, fun _ _ _ => trivial⟩
  cases hdata
  refine ⟨?_, fun _ _ _ => trivial⟩
  -- the block, the pipeline, its limited stage, the input, the stage and the limit
  refine SafeRun.visit rfl rfl (fun _ => rfl) ?_
  refine SafeRun.visit rfl rfl (fun _ => rfl) ?_
  refine SafeRun.limit (fun _ => rfl) ?_
  refine SafeRun.visit rfl rfl (fun _ => rfl) ?_
  refine SafeRun.visit rfl rfl (fun _ => rfl) ?_
  refine SafeRun.visit rfl rfl (fun _ => rfl) ?_
  exact SafeRun.nil

theorem limitedPipeline_wellListed : limitedPipeline.WellListed where
  modules := by decide
  items module hm data hd := by
    obtain rfl : module = 0 := by simpa [limitedPipeline, flowProgram] using hm
    cases hd
    decide
  children node _ := by
    by_cases hn : node ∈ limitedPipeline.nodes
    · have hall : ∀ node ∈ limitedPipeline.nodes, (limitedPipeline.entries node).Nodup := by decide
      exact hall node hn
    · rw [← HirProgram.has_iff, Bool.not_eq_true] at hn
      rw [HirProgram.entries_of_not_has hn]
      exact List.nodup_nil

theorem HirTreeIndex.tryBuild_limitedPipeline :
    (HirTreeIndexBuilder.Safe limitedPipeline ∧ ∃ bound, ∀ fuel ≥ bound, ∃ result,
      tryBuild limitedPipeline fuel = .ok result ∧
        ∀ index, result = .ok index → IndexesTree limitedPipeline index) ∧
    ∃ index, tryBuild limitedPipeline 16 = .ok (.ok index) ∧
      limitedPipeline.WellListed ∧ IndexesTree limitedPipeline index := by
  have htheorem := tryBuild_indexesTree limitedPipeline
  refine ⟨⟨limitedPipeline_safe, htheorem.1 limitedPipeline_safe⟩, _, rfl,
    limitedPipeline_wellListed, ?_⟩
  exact (htheorem.2 16 _ rfl).mpr limitedPipeline_wellListed

/-- A tuple of one expression with itself. -/
def sharedTuple : HirProgram := flowProgram [.tuple [1, 1], .literal (.int "1")]

/-- A repeated child has the owner that was recorded last, and is accepted. -/
theorem HirTreeIndex.tryBuild_sharedTuple : ∃ index,
    tryBuild sharedTuple 16 = .ok (.ok index) ∧ ¬ IndexesTree sharedTuple index := by
  refine ⟨_, rfl, fun h => ?_⟩
  have hblock : sharedTuple.Reached (.block 0) := by
    have hin : sharedTuple.InModule 0 := ⟨0, by decide, _, rfl, by decide⟩
    have hroot : (HirOwner.body ⟨0, .flow⟩, HirTreeChild.block 0) ∈ sharedTuple.itemRoots 0 := by
      decide
    exact .root ⟨0, hin, hroot⟩
  have hentry : (none, HirTreeChild.expr 0) ∈ sharedTuple.entries (.block 0) := by decide
  have htuple : sharedTuple.Reached (.expr 0) := hblock.step hentry
  have hshared : ∀ k < 2, (sharedTuple.entries (.expr 0))[k]? = some (none, .expr 1) := by decide
  have hfirst : sharedTuple.NodeAt (.expr 1) (.inr (.expr 0, 0)) :=
    .child htuple (hshared 0 (by decide))
  have hsecond : sharedTuple.NodeAt (.expr 1) (.inr (.expr 0, 1)) :=
    .child htuple (hshared 1 (by decide))
  have heq := h.node_once hfirst hsecond
  cases heq

end EtasFrontend.Hir
