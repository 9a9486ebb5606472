import EtasFrontend.Hir.TreeIndexCorrect
import EtasFrontend.Lib.TreeSearch

/-! The walk of a visitor over an item. Hooks at the exit of a node are left out. -/
namespace EtasFrontend.Hir
open Lib

inductive WalkFrame where
  | item (item : HirItemId)
  | body (body : HirBodyRef)
  | node (node : HirTreeChild)
  deriving DecidableEq

section
variable (program : HirProgram) (index : HirTreeIndex)

/-- The children of a node, without the bodies it keeps apart. -/
def HirProgram.directChildren : HirTreeChild → List HirTreeChild
  | .block block =>
    match program.blocks[block]? with
    | some data =>
      (data.stmts.map HirTreeChild.stmt ++
        data.finalExpr.toList.map HirTreeChild.expr).filter program.has
    | none => []
  | .stmt stmt =>
    match program.stmts[stmt]? with
    | some data => data.children
    | none => []
  | .expr expr =>
    match program.exprs[expr]? with
    | some data => data.children
    | none => []
  | .handlerArm _ => []
  | .pattern pat =>
    match program.pats[pat]? with
    | some data => data.children
    | none => []

/-- All bodies of an item are listed with the item, those of its lambdas and arms too. -/
def frameChildren : WalkFrame → List WalkFrame
  | .item item =>
    (((index.itemBodies.get item).getD []).filter fun body =>
        (index.bodyOwner.get body).isSome).map .body ++
      (((index.itemChildren.get item).getD []).filter fun child =>
        child < program.items.length).map .item
  | .body body =>
    (((index.bodyExprs.get body).getD []).map HirTreeChild.expr ++
      ((index.bodyBlocks.get body).getD []).map HirTreeChild.block).filter program.has |>.map .node
  | .node node => (program.directChildren node).map .node

def frameExists : WalkFrame → Bool
  | .item item => item < program.items.length
  | .body body => (index.bodyOwner.get body).isSome
  | .node node => program.has node

/-- A frame that is not there panics. -/
def enterFrame (frame : WalkFrame) : Except Halt (List WalkFrame) :=
  if frameExists program index frame then .ok (frameChildren program index frame)
  else .error .panic

def walkItem {σ : Type} (visit : σ → WalkFrame → σ) (fuel : ℕ) (item : HirItemId) (s : σ) :
    Except Halt σ :=
  walk (enterFrame program index) visit .outOfFuel fuel [.item item] s

/-- What a node lists is in the arenas, and every path down ends. -/
structure HirProgram.Formed : Prop where
  listed : ∀ node, ∀ child ∈ (program.entries node).map Prod.snd, child ∈ program.nodes
  ends : WellFounded fun child parent => child ∈ (program.entries parent).map Prod.snd

end

variable {program : HirProgram} {index : HirTreeIndex}

theorem HirProgram.Formed.of_rank (rank : HirTreeChild → ℕ)
    (h : ∀ node ∈ program.nodes, ∀ child ∈ (program.entries node).map Prod.snd,
      child ∈ program.nodes ∧ rank child < rank node) : program.Formed := by
  have hall : ∀ node, ∀ child ∈ (program.entries node).map Prod.snd,
      child ∈ program.nodes ∧ rank child < rank node := by
    intro node child hchild
    by_cases hn : node ∈ program.nodes
    · exact h node hn child hchild
    · rw [← HirProgram.has_iff, Bool.not_eq_true] at hn
      rw [HirProgram.entries_of_not_has hn] at hchild
      cases hchild
  constructor
  · exact fun node child hchild => (hall node child hchild).1
  · exact Subrelation.wf (fun {child parent} hchild => (hall parent child hchild).2)
      (InvImage.wf rank Nat.lt_wfRel.wf)

theorem directChildren_subset (node : HirTreeChild) :
    program.directChildren node ⊆ (program.entries node).map Prod.snd := by
  intro child h
  cases node with
  | block block =>
    simp only [HirProgram.directChildren, HirProgram.entries] at h ⊢
    cases hb : program.blocks[block]? with
    | none => simp [hb] at h
    | some data =>
      simp only [hb] at h
      simpa using List.mem_of_mem_filter h
  | stmt stmt =>
    simp only [HirProgram.directChildren, HirProgram.entries] at h ⊢
    cases hs : program.stmts[stmt]? with
    | none => simp [hs] at h
    | some data => simpa [hs] using h
  | expr expr =>
    simp only [HirProgram.directChildren, HirProgram.entries] at h ⊢
    cases he : program.exprs[expr]? with
    | none => simp [he] at h
    | some data =>
      simp only [he] at h
      rw [List.map_append]
      exact List.mem_append_left _ (by simpa using h)
  | handlerArm arm => cases h
  | pattern pat =>
    simp only [HirProgram.directChildren, HirProgram.entries] at h ⊢
    cases hp : program.pats[pat]? with
    | none => simp [hp] at h
    | some data => simpa [hp] using h

theorem frameExists_child (h : program.Formed) {frame child : WalkFrame}
    (hc : child ∈ frameChildren program index frame) : frameExists program index child = true := by
  cases frame with
  | item item =>
    rcases List.mem_append.mp hc with hc | hc
    · obtain ⟨body, hbody, rfl⟩ := List.mem_map.mp hc
      exact (List.mem_filter.mp hbody).2
    · obtain ⟨item, hitem, rfl⟩ := List.mem_map.mp hc
      exact (List.mem_filter.mp hitem).2
  | body body =>
    obtain ⟨node, hnode, rfl⟩ := List.mem_map.mp hc
    exact (List.mem_filter.mp hnode).2
  | node node =>
    obtain ⟨child, hchild, rfl⟩ := List.mem_map.mp hc
    exact (HirProgram.has_iff child).mpr (h.listed node child (directChildren_subset node hchild))

theorem acc_node (h : program.Formed) (node : HirTreeChild) :
    Acc (fun child parent => child ∈ frameChildren program index parent) (.node node) := by
  induction node using h.ends.induction with
  | h node ih =>
    constructor
    intro child hc
    obtain ⟨child, hchild, rfl⟩ := List.mem_map.mp hc
    exact ih child (directChildren_subset node hchild)

theorem acc_body (h : program.Formed) (body : HirBodyRef) :
    Acc (fun child parent => child ∈ frameChildren program index parent) (.body body) := by
  constructor
  intro child hc
  obtain ⟨node, _, rfl⟩ := List.mem_map.mp hc
  exact acc_node h node

/-- The nested items of an item end. -/
def ItemsEnd (index : HirTreeIndex) : Prop :=
  WellFounded fun child parent => child ∈ (index.itemChildren.get parent).getD []

theorem acc_item (h : program.Formed) (hi : ItemsEnd index) (item : HirItemId) :
    Acc (fun child parent => child ∈ frameChildren program index parent) (.item item) := by
  induction item using hi.induction with
  | h item ih =>
    constructor
    intro child hc
    rcases List.mem_append.mp hc with hc | hc
    · obtain ⟨body, _, rfl⟩ := List.mem_map.mp hc
      exact acc_body h body
    · obtain ⟨child, hchild, rfl⟩ := List.mem_map.mp hc
      exact ih child (List.mem_filter.mp hchild).1

/-- A walk of an item visits exactly the frames below it. -/
theorem walkItem_visits {σ : Type} (h : program.Formed) (hi : ItemsEnd index) {item : HirItemId}
    (hitem : item < program.items.length) (visit : σ → WalkFrame → σ) (s : σ) :
    ∃ visited : List WalkFrame,
      (∀ frame, frame ∈ visited ↔ Below (frameChildren program index) (.item item) frame) ∧
        ∀ fuel ≥ visited.length,
          walkItem program index visit fuel item s = .ok (visited.foldl visit s) := by
  have hexists : ∀ frame, Below (frameChildren program index) (.item item) frame →
      enterFrame program index frame = .ok (frameChildren program index frame) := by
    intro frame hb
    apply if_pos
    rcases Relation.ReflTransGen.cases_tail hb with rfl | ⟨parent, _, hc⟩
    · exact decide_eq_true hitem
    · exact frameExists_child h hc
  obtain ⟨visited, hwalk, hmem⟩ := walk_visits visit Halt.outOfFuel (acc_item h hi item) hexists
  exact ⟨visited, hmem, fun fuel hfuel => hwalk.returns s hfuel⟩

end EtasFrontend.Hir
