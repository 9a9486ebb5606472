import EtasFrontend.Contract.Latent
import EtasFrontend.Lib.Fallible
import EtasFrontend.Lib.Search
import EtasFrontend.Lib.Unfolding

/-! The classification of an output agrees with what its infinite unfolding contains. -/
namespace EtasFrontend.Contract
open Lib Relation

/-! The unfolding. -/

variable {node : TypeInfo}

namespace TypeInfo

/-- What makes a type latent by itself. -/
def isLatent (node : TypeInfo) : Bool :=
  match node with
  | .function _ | .handler | .existential _ => true
  | _ => node.isAgent || node.isExternalToolHandle

/-- The inside of these types is not looked at. -/
def isClosed : TypeInfo → Bool
  | .function _ | .handler | .existential _ => true
  | _ => false

theorem isLatent_of_isClosed (h : node.isClosed = true) : node.isLatent = true := by
  cases node with
  | function | handler | existential => rfl
  | _ => cases h

end TypeInfo

namespace DescriptorGraph

/-- A parameter is a hole, and an application fills those of a declaration. -/
def equation (graph : DescriptorGraph) (ty : TypeInfoRef) :
    Option (Equation TypeInfoRef GenericParameterRef TypeInfo) :=
  (graph.typeInfo ty).bind fun node =>
    match node with
    | .parameter parameter => some (.hole parameter)
    | .applied constructor arguments =>
      ((graph.typeInfo constructor).bind TypeInfo.genericParameters).map fun parameters =>
        .apply constructor parameters arguments
    | node => some (.node node node.children)

/-- The infinite unfolding of a type contains something latent (`none`), or a free parameter
outside of what is latent by its form. -/
abbrev Unfolds (graph : DescriptorGraph) (x : Option GenericParameterRef) (ty : TypeInfoRef) :
    Prop :=
  Contains graph.equation TypeInfo.isLatent TypeInfo.isClosed x ty

/-- The infinite unfolding contains something latent. -/
def ContainsLatent (graph : DescriptorGraph) (ty : TypeInfoRef) : Prop :=
  Contains graph.equation TypeInfo.isLatent (fun _ => false) none ty

def Child (graph : DescriptorGraph) (a b : TypeInfoRef) : Prop :=
  ∃ node, graph.typeInfo a = some node ∧ b ∈ node.children

/-- The type is described, and an application has as many arguments as its declaration
parameters. -/
def Described (graph : DescriptorGraph) (ty : TypeInfoRef) : Prop :=
  match graph.typeInfo ty with
  | none => False
  | some (.applied constructor arguments) =>
    ∃ parameters, (graph.typeInfo constructor).bind TypeInfo.genericParameters = some parameters ∧
      parameters.length = arguments.length
  | some _ => True

/-- Every type below is described. -/
def Fits (graph : DescriptorGraph) (root : TypeInfoRef) : Prop :=
  ∀ ty, ReflTransGen graph.Child root ty → graph.Described ty

end DescriptorGraph

/-! What a classification says. -/

variable {x : Option GenericParameterRef}

namespace Latent

def Says (latent : Latent) : Option GenericParameterRef → Prop
  | none => latent.intrinsic = true
  | some parameter => parameter ∈ latent.parameters

theorem says_default (x : Option GenericParameterRef) : ¬ default.Says x := by
  cases x <;> simp [default, Says]

theorem says_join {latent other : Latent} :
    (latent.join other).Says x ↔ latent.Says x ∨ other.Says x := by
  cases x <;> simp [join, Says]

theorem ext_says {latent other : Latent} (h : ∀ x, latent.Says x ↔ other.Says x) :
    latent = other := by
  obtain ⟨i, p⟩ := latent
  obtain ⟨j, q⟩ := other
  obtain rfl : i = j := Bool.eq_iff_iff.mpr (h none)
  obtain rfl : p = q := Finset.ext fun parameter => h (some parameter)
  rfl

end Latent

/-- What the states record about a type. -/
def Shown (states : LatentStates) (x : Option GenericParameterRef) (ty : TypeInfoRef) : Prop :=
  ∃ latent, states.get ty = some latent ∧ latent.Says x

variable {states : LatentStates} {ty : TypeInfoRef}

theorem lookup_eq_ok (h : (states.get ty).isSome = true) :
    ∃ latent, lookup states ty = .ok latent ∧ ∀ x, latent.Says x ↔ Shown states x ty := by
  obtain ⟨latent, hget⟩ := Option.isSome_iff_exists.mp h
  refine ⟨latent, by rw [lookup, hget], fun x => ?_⟩
  simp [Shown, hget]

private theorem exists_mem_cons {α : Type} {p : α → Prop} {a : α} {l : List α} :
    (∃ b ∈ a :: l, p b) ↔ p a ∨ ∃ b ∈ l, p b := by
  simp

theorem joinLookup_run {types : List TypeInfoRef} (h : ∀ ty ∈ types, (states.get ty).isSome = true)
    (init : Latent) :
    ∃ latent, types.foldlM (joinLookup states) init = .ok latent ∧
      ∀ x, latent.Says x ↔ init.Says x ∨ ∃ ty ∈ types, Shown states x ty := by
  induction types generalizing init with
  | nil => exact ⟨init, rfl, by simp⟩
  | cons ty types ih =>
    rw [List.forall_mem_cons] at h
    obtain ⟨found, hlookup, hfound⟩ := lookup_eq_ok h.1
    obtain ⟨latent, hrun, hlatent⟩ := ih h.2 (init.join found)
    refine ⟨latent, ?_, fun x => ?_⟩
    · rw [List.foldlM_cons, joinLookup, hlookup]
      exact hrun
    · rw [hlatent, Latent.says_join, hfound, exists_mem_cons, or_assoc]

/-- The same for the parameters of a constructor. -/
theorem applyParameter_run (formals : List GenericParameterRef) {arguments : List TypeInfoRef}
    (h : ∀ ty ∈ arguments, (states.get ty).isSome = true) (parameters : List GenericParameterRef)
    (init : Latent) :
    ∃ latent, parameters.foldlM (applyParameter states formals arguments) init = .ok latent ∧
      ∀ x, latent.Says x ↔ init.Says x ∨ ∃ parameter ∈ parameters,
        Filled (Shown states) formals arguments x parameter := by
  induction parameters generalizing init with
  | nil => exact ⟨init, rfl, by simp⟩
  | cons parameter parameters ih =>
    obtain ⟨next, hstep, hnext⟩ : ∃ next,
        applyParameter states formals arguments init parameter = .ok next ∧
          ∀ x, next.Says x ↔ init.Says x ∨ Filled (Shown states) formals arguments x parameter := by
      unfold applyParameter Filled
      rcases harg : arguments[formals.idxOf parameter]? with _ | argument
      · refine ⟨_, rfl, fun x => ?_⟩
        cases x <;> simp [Latent.Says, or_comm]
      · obtain ⟨found, hlookup, hfound⟩ := lookup_eq_ok (h argument (List.mem_of_getElem? harg))
        refine ⟨init.join found, ?_, fun x => ?_⟩
        · dsimp only
          rw [joinLookup, hlookup]
          rfl
        · rw [Latent.says_join, hfound]
    obtain ⟨latent, hrun, hlatent⟩ := ih next
    refine ⟨latent, ?_, fun x => ?_⟩
    · rw [List.foldlM_cons, hstep]
      exact hrun
    · rw [hlatent, hnext, exists_mem_cons, or_assoc]

namespace DescriptorGraph
variable {graph : DescriptorGraph}

/-- A step of the analysis is a step of the unfolding. -/
abbrev TypeStep (graph : DescriptorGraph) (shown : Option GenericParameterRef → TypeInfoRef → Prop)
    (x : Option GenericParameterRef) (ty : TypeInfoRef) : Prop :=
  ShowStep graph.equation TypeInfo.isLatent TypeInfo.isClosed shown x ty

theorem typeStep_node {shown : Option GenericParameterRef → TypeInfoRef → Prop}
    (h : graph.equation ty = some (.node node node.children)) :
    graph.TypeStep shown x ty ↔ x = none ∧ node.isLatent = true ∨
      node.isClosed = false ∧ ∃ child ∈ node.children, shown x child := by
  unfold TypeStep ShowStep
  rw [h]

theorem equation_node (hnode : graph.typeInfo ty = some node)
    (hparameter : ∀ parameter, node ≠ .parameter parameter)
    (happlied : ∀ constructor arguments, node ≠ .applied constructor arguments) :
    graph.equation ty = some (.node node node.children) := by
  unfold equation
  rw [hnode, Option.bind_some]
  cases node with
  | parameter parameter => exact (hparameter parameter rfl).elim
  | applied constructor arguments => exact (happlied constructor arguments rfl).elim
  | _ => rfl

theorem transfer_closed (h : node.isClosed = true) (states : LatentStates) :
    graph.transfer node states = .ok ⟨true, ∅⟩ := by
  cases node with
  | function | handler | existential => rfl
  | _ => cases h

theorem transfer_open (hclosed : node.isClosed = false)
    (hparameter : ∀ parameter, node ≠ .parameter parameter)
    (happlied : ∀ constructor arguments, node ≠ .applied constructor arguments)
    (hchildren : ∀ child ∈ node.children, (states.get child).isSome = true) :
    ∃ latent, graph.transfer node states = .ok latent ∧ ∀ x, latent.Says x ↔
      x = none ∧ node.isLatent = true ∨ ∃ child ∈ node.children, Shown states x child := by
  obtain ⟨latent, hrun, hlatent⟩ := joinLookup_run hchildren
    { Latent.default with intrinsic := node.isAgent || node.isExternalToolHandle }
  have hown : ∀ x, ({ Latent.default with
      intrinsic := node.isAgent || node.isExternalToolHandle } : Latent).Says x ↔
        x = none ∧ node.isLatent = true := by
    intro x
    have hlatent : node.isLatent = (node.isAgent || node.isExternalToolHandle) := by
      cases node with
      | function | handler | existential => cases hclosed
      | _ => rfl
    rw [hlatent]
    cases x <;> simp [Latent.Says, Latent.default]
  simp only [hown] at hlatent
  refine ⟨latent, ?_, hlatent⟩
  rw [← hrun]
  cases node with
  | function | handler | existential => cases hclosed
  | parameter parameter => exact (hparameter parameter rfl).elim
  | applied constructor arguments => exact (happlied constructor arguments rfl).elim
  | _ => rfl

theorem transfer_applied {constructor : TypeInfoRef} {arguments : List TypeInfoRef}
    {parameters : List GenericParameterRef}
    (hparameters : (graph.typeInfo constructor).bind TypeInfo.genericParameters = some parameters)
    (harity : parameters.length = arguments.length)
    (hchildren : ∀ child ∈ constructor :: arguments, (states.get child).isSome = true) :
    ∃ latent, graph.transfer (.applied constructor arguments) states = .ok latent ∧
      ∀ x, latent.Says x ↔ x = none ∧ Shown states none constructor ∨
        ∃ parameter, Shown states (some parameter) constructor ∧
          Filled (Shown states) parameters arguments x parameter := by
  rw [List.forall_mem_cons] at hchildren
  obtain ⟨head, hlookup, hhead⟩ := lookup_eq_ok hchildren.1
  obtain ⟨latent, hrun, hlatent⟩ := applyParameter_run parameters hchildren.2
    (head.parameters.sort (· ≤ ·)) { Latent.default with intrinsic := head.intrinsic }
  refine ⟨latent, ?_, fun x => ?_⟩
  · unfold transfer
    dsimp only
    rw [hparameters]
    dsimp only
    rw [if_neg (not_not.mpr harity), hlookup]
    exact hrun
  · rw [hlatent]
    have hown : ({ Latent.default with intrinsic := head.intrinsic } : Latent).Says x ↔
        x = none ∧ Shown states none constructor := by
      rw [← hhead none]
      cases x <;> simp [Latent.Says, Latent.default]
    have hmem : ∀ parameter, parameter ∈ head.parameters.sort (· ≤ ·) ↔
        Shown states (some parameter) constructor := by
      intro parameter
      rw [Finset.mem_sort, ← hhead (some parameter)]
      exact Iff.rfl
    simp only [hown, hmem]

theorem transfer_spec (hnode : graph.typeInfo ty = some node) (hdescribed : graph.Described ty)
    (hchildren : ∀ child ∈ node.children, (states.get child).isSome = true) :
    ∃ latent, graph.transfer node states = .ok latent ∧
      ∀ x, latent.Says x ↔ graph.TypeStep (Shown states) x ty := by
  by_cases hparameter : ∃ parameter, node = .parameter parameter
  · obtain ⟨parameter, rfl⟩ := hparameter
    have hequation : graph.equation ty = some (.hole parameter) := by simp [equation, hnode]
    refine ⟨_, rfl, fun x => ?_⟩
    unfold TypeStep ShowStep
    rw [hequation]
    cases x <;> simp [Latent.Says, Latent.default, eq_comm]
  by_cases happlied : ∃ constructor arguments, node = .applied constructor arguments
  · obtain ⟨constructor, arguments, rfl⟩ := happlied
    unfold Described at hdescribed
    rw [hnode] at hdescribed
    obtain ⟨parameters, hparameters, harity⟩ := hdescribed
    have hequation : graph.equation ty = some (.apply constructor parameters arguments) := by
      unfold equation
      rw [hnode, Option.bind_some]
      dsimp only
      rw [hparameters]
      rfl
    obtain ⟨latent, hrun, hlatent⟩ := transfer_applied hparameters harity hchildren
    refine ⟨latent, hrun, fun x => ?_⟩
    unfold TypeStep ShowStep
    rw [hequation, hlatent]
  rw [not_exists] at hparameter
  simp only [not_exists] at happlied
  have hstep : ∀ x, graph.TypeStep (Shown states) x ty ↔ x = none ∧ node.isLatent = true ∨
      node.isClosed = false ∧ ∃ child ∈ node.children, Shown states x child :=
    fun x => typeStep_node (equation_node hnode hparameter happlied)
  cases hclosed : node.isClosed with
  | true =>
    have hlatent := TypeInfo.isLatent_of_isClosed hclosed
    refine ⟨_, transfer_closed hclosed states, fun x => ?_⟩
    rw [hstep]
    cases x <;> simp [Latent.Says, hlatent, hclosed]
  | false =>
    obtain ⟨latent, hrun, hlatent⟩ := transfer_open hclosed hparameter happlied hchildren
    refine ⟨latent, hrun, fun x => ?_⟩
    rw [hstep, hlatent, hclosed]
    simp

theorem child_of_component {e : Equation TypeInfoRef GenericParameterRef TypeInfo}
    (h : graph.equation ty = some e) {b : TypeInfoRef} (hb : b ∈ e.components) :
    graph.Child ty b := by
  unfold equation at h
  obtain ⟨node, hnode, h⟩ := Option.bind_eq_some_iff.mp h
  refine ⟨node, hnode, ?_⟩
  cases node with
  | parameter =>
    cases h
    cases hb
  | applied constructor arguments =>
    obtain ⟨parameters, -, rfl⟩ := Option.map_eq_some_iff.mp h
    exact hb
  | _ =>
    cases h
    exact hb

theorem typeStep_mono {shown shown' : Option GenericParameterRef → TypeInfoRef → Prop}
    (hle : ∀ x b, graph.Child ty b → shown x b → shown' x b) (h : graph.TypeStep shown x ty) :
    graph.TypeStep shown' x ty :=
  ShowStep.mono (fun _ he x b hb => hle x b (child_of_component he hb)) h

/-! The types below the output. -/

/-- The state of the first loop. -/
structure Discovering (graph : DescriptorGraph) (root : TypeInfoRef) (pending : List TypeInfoRef)
    (states : LatentStates) (dependents : Dependents) : Prop where
  reached : ∀ ty, (states.get ty).isSome = true ∨ ty ∈ pending → ReflTransGen graph.Child root ty
  root : (states.get root).isSome = true ∨ root ∈ pending
  children : ∀ ty child, (states.get ty).isSome = true → graph.Child ty child →
    ((states.get child).isSome = true ∨ child ∈ pending) ∧ ty ∈ (dependents.get child).getD []
  dependents : ∀ child ty, ty ∈ (dependents.get child).getD [] → (states.get ty).isSome = true
  default : ∀ ty latent, states.get ty = some latent → latent = .default

theorem get_addDependent (ty : TypeInfoRef) (dependents : Dependents) (child other : TypeInfoRef) :
    ((addDependent ty dependents child).get other).getD [] =
      (dependents.get other).getD [] ++ if other = child then [ty] else [] := by
  rw [addDependent, Map.get_insert]
  by_cases h : other = child
  · simp [h]
  · simp [h]

variable {dependents : Dependents}

theorem mem_addDependents {children : List TypeInfoRef} {other parent : TypeInfoRef} :
    parent ∈ ((children.foldl (addDependent ty) dependents).get other).getD [] ↔
      parent ∈ (dependents.get other).getD [] ∨ parent = ty ∧ other ∈ children := by
  induction children generalizing dependents with
  | nil => simp
  | cons child children ih =>
    rw [List.foldl_cons, ih, get_addDependent, List.mem_append, List.mem_cons, or_assoc]
    refine or_congr_right ?_
    by_cases h : other = child
    · simp only [h, if_true, List.mem_singleton, true_or, and_true]
      tauto
    · simp [h]

variable {pending : List TypeInfoRef}

theorem Discovering.skip {root ty : TypeInfoRef}
    (h : Discovering graph root (ty :: pending) states dependents)
    (hseen : (states.get ty).isSome = true) : Discovering graph root pending states dependents := by
  have hpending : ∀ other, (states.get other).isSome = true ∨ other ∈ ty :: pending →
      (states.get other).isSome = true ∨ other ∈ pending := by
    rintro other (hother | hother)
    · exact Or.inl hother
    · rcases List.mem_cons.mp hother with rfl | hother
      · exact Or.inl hseen
      · exact Or.inr hother
  refine ⟨fun other hother => h.reached other ?_, hpending _ h.root, fun parent child hp hc => ?_,
    h.dependents, h.default⟩
  · exact hother.imp_right (List.mem_cons_of_mem _)
  · exact ⟨hpending child (h.children parent child hp hc).1, (h.children parent child hp hc).2⟩

theorem Discovering.expand {root ty : TypeInfoRef}
    (h : Discovering graph root (ty :: pending) states dependents)
    (hnode : graph.typeInfo ty = some node) :
    Discovering graph root (node.children.reverse ++ pending) (states.insert ty .default)
      (node.children.foldl (addDependent ty) dependents) := by
  have hsome : ∀ other, ((states.insert ty .default).get other).isSome = true ↔
      other = ty ∨ (states.get other).isSome = true := by
    intro other
    rw [Map.get_insert]
    by_cases heq : other = ty <;> simp [heq]
  have hreached := h.reached ty (Or.inr List.mem_cons_self)
  have hkeep : ∀ other, (states.get other).isSome = true ∨ other ∈ ty :: pending →
      ((states.insert ty .default).get other).isSome = true ∨
        other ∈ node.children.reverse ++ pending := by
    rintro other (hother | hother)
    · exact Or.inl ((hsome other).mpr (Or.inr hother))
    · rcases List.mem_cons.mp hother with rfl | hother
      · exact Or.inl ((hsome _).mpr (Or.inl rfl))
      · exact Or.inr (List.mem_append_right _ hother)
  refine ⟨?_, hkeep _ h.root, ?_, ?_, ?_⟩
  · rintro other (hother | hother)
    · rcases (hsome other).mp hother with rfl | hother
      · exact hreached
      · exact h.reached other (Or.inl hother)
    · rcases List.mem_append.mp hother with hother | hother
      · exact hreached.tail ⟨node, hnode, List.mem_reverse.mp hother⟩
      · exact h.reached other (Or.inr (List.mem_cons_of_mem _ hother))
  · intro parent child hparent hchild
    rcases (hsome parent).mp hparent with rfl | hparent
    · obtain ⟨node', hnode', hmem⟩ := hchild
      cases hnode.symm.trans hnode'
      refine ⟨Or.inr (List.mem_append_left _ (List.mem_reverse.mpr hmem)), ?_⟩
      exact mem_addDependents.mpr (Or.inr ⟨rfl, hmem⟩)
    · obtain ⟨hchild', hdependent⟩ := h.children parent child hparent hchild
      exact ⟨hkeep child hchild', mem_addDependents.mpr (Or.inl hdependent)⟩
  · intro child parent hparent
    rcases mem_addDependents.mp hparent with hparent | ⟨rfl, -⟩
    · exact (hsome parent).mpr (Or.inr (h.dependents child parent hparent))
    · exact (hsome _).mpr (Or.inl rfl)
  · intro other latent hget
    rw [Map.get_insert] at hget
    by_cases heq : other = ty
    · rw [if_pos heq] at hget
      cases hget
      rfl
    · rw [if_neg heq] at hget
      exact h.default other latent hget

/-- The children of a type, as successors in a graph. -/
def successors (graph : DescriptorGraph) (ty : TypeInfoRef) : List TypeInfoRef :=
  ((graph.typeInfo ty).map TypeInfo.children).getD []

theorem successors_of_not_mem (h : ty ∉ Finset.range graph.types.length) :
    graph.successors ty = [] := by
  have hnone : graph.typeInfo ty = none := by
    rw [Finset.mem_range, not_lt] at h
    exact List.getElem?_eq_none h
  simp [successors, hnone]

variable {root : TypeInfoRef}

theorem discover_spec (hfits : graph.Fits root) {n : ℕ} {pending seen : List TypeInfoRef}
    (h : Discovering graph root pending states dependents)
    (hseen : ∀ ty, ty ∈ seen ↔ (states.get ty).isSome = true)
    (hn : pending.length +
      Lib.pending graph.successors (Finset.range graph.types.length) seen ≤ n) :
    ∃ states' dependents', graph.discover n pending states dependents =
        some (.ok (states', dependents')) ∧ Discovering graph root [] states' dependents' := by
  induction n generalizing pending seen states dependents with
  | zero =>
    have hnil : pending = [] := List.length_eq_zero_iff.mp (by omega)
    subst hnil
    exact ⟨states, dependents, rfl, h⟩
  | succ n ih =>
    obtain _ | ⟨ty, pending⟩ := pending
    · exact ⟨states, dependents, rfl, h⟩
    rw [discover]
    rw [List.length_cons] at hn
    by_cases hty : (states.get ty).isSome = true
    · rw [if_pos hty]
      exact ih (h.skip hty) hseen (by omega)
    · rw [if_neg hty]
      have hdescribed := hfits ty (h.reached ty (Or.inr List.mem_cons_self))
      obtain ⟨node, hnode⟩ : ∃ node, graph.typeInfo ty = some node := by
        rcases hnode : graph.typeInfo ty with _ | node
        · rw [Described, hnode] at hdescribed
          exact hdescribed.elim
        · exact ⟨node, rfl⟩
      rw [hnode]
      have hseen' : ∀ other, other ∈ ty :: seen ↔
          ((states.insert ty .default).get other).isSome = true := by
        intro other
        rw [List.mem_cons, hseen, Map.get_insert]
        by_cases heq : other = ty <;> simp [heq]
      refine ih (h.expand hnode) hseen' ?_
      · have hnot : ty ∉ seen := fun hmem => hty ((hseen ty).mp hmem)
        have hstep := Lib.pending_cons (fun a => graph.successors_of_not_mem) hnot
        have hsucc : graph.successors ty = node.children := by simp [successors, hnode]
        rw [hsucc] at hstep
        rw [List.length_append, List.length_reverse]
        omega

/-- What the second loop runs over: types closed under their children, with their dependents. -/
structure Setting (graph : DescriptorGraph) (nodes : TypeInfoRef → Prop)
    (dependents : Dependents) : Prop where
  described : ∀ ty, nodes ty → graph.Described ty
  closed : ∀ ty child, nodes ty → graph.Child ty child → nodes child
  complete : ∀ ty child, nodes ty → graph.Child ty child → ty ∈ (dependents.get child).getD []
  sound : ∀ child ty, ty ∈ (dependents.get child).getD [] → nodes ty

/-- The state of the second loop. What is recorded is in the unfolding, grows, and is complete for
the types that are not pending. -/
structure Propagating (graph : DescriptorGraph) (nodes : TypeInfoRef → Prop)
    (states : LatentStates) (pending : List TypeInfoRef) : Prop where
  keys : ∀ ty, (states.get ty).isSome = true ↔ nodes ty
  pending_nodes : ∀ ty ∈ pending, nodes ty
  sound : ∀ x ty, Shown states x ty → graph.Unfolds x ty
  grows : ∀ x ty, Shown states x ty → graph.TypeStep (Shown states) x ty
  settled : ∀ ty, nodes ty → ty ∈ pending ∨
    ∀ x, graph.TypeStep (Shown states) x ty → Shown states x ty

theorem shown_insert {ty other : TypeInfoRef} {latent : Latent} :
    Shown (states.insert ty latent) x other ↔
      other = ty ∧ latent.Says x ∨ other ≠ ty ∧ Shown states x other := by
  unfold Shown
  rw [Map.get_insert]
  by_cases h : other = ty <;> simp [h]

section
variable {nodes : TypeInfoRef → Prop} {dependents : Dependents} {states : LatentStates}
  {pending : List TypeInfoRef} {ty : TypeInfoRef} {latent : Latent}

variable (h : Propagating graph nodes states (ty :: pending))
  (hlatent : ∀ x, latent.Says x ↔ graph.TypeStep (Shown states) x ty)
include h hlatent

theorem Propagating.unchanged (hget : states.get ty = some latent) :
    Propagating graph nodes states pending := by
  refine ⟨h.keys, fun other hother => h.pending_nodes other (List.mem_cons_of_mem _ hother),
    h.sound, h.grows, fun other hother => ?_⟩
  by_cases heq : other = ty
  · subst heq
    exact Or.inr fun x hx => ⟨latent, hget, (hlatent x).mpr hx⟩
  · exact (h.settled other hother).imp_left fun hmem => (List.mem_cons.mp hmem).resolve_left heq

theorem Propagating.shown_mono {other : TypeInfoRef} (hx : Shown states x other) :
    Shown (states.insert ty latent) x other := by
  rw [shown_insert]
  by_cases heq : other = ty
  · subst heq
    exact Or.inl ⟨rfl, (hlatent x).mpr (h.grows x _ hx)⟩
  · exact Or.inr ⟨heq, hx⟩

theorem Propagating.changed (hset : Setting graph nodes dependents) :
    Propagating graph nodes (states.insert ty latent)
      (pending ++ (dependents.get ty).getD []) := by
  have hty := h.pending_nodes ty List.mem_cons_self
  have hmono : ∀ x other, Shown states x other → Shown (states.insert ty latent) x other :=
    fun x other => h.shown_mono hlatent
  refine ⟨?_, ?_, ?_, ?_, ?_⟩
  · intro other
    rw [← h.keys, Map.get_insert]
    by_cases heq : other = ty
    · subst heq
      simpa using (h.keys _).mpr hty
    · simp [heq]
  · intro other hother
    rcases List.mem_append.mp hother with hother | hother
    · exact h.pending_nodes other (List.mem_cons_of_mem _ hother)
    · exact hset.sound ty other hother
  · intro x other hx
    rcases shown_insert.mp hx with ⟨rfl, hsay⟩ | ⟨-, hx⟩
    · exact contains_of_step (typeStep_mono (fun y b _ => h.sound y b) ((hlatent x).mp hsay))
    · exact h.sound x other hx
  · intro x other hx
    rcases shown_insert.mp hx with ⟨rfl, hsay⟩ | ⟨-, hx⟩
    · exact typeStep_mono (fun y b _ => hmono y b) ((hlatent x).mp hsay)
    · exact typeStep_mono (fun y b _ => hmono y b) (h.grows x other hx)
  · intro other hother
    -- a type without the changed one among its children takes the same step as before
    by_cases hchild : graph.Child other ty
    · exact Or.inl (List.mem_append_right _ (hset.complete other ty hother hchild))
    have hback : ∀ x, graph.TypeStep (Shown (states.insert ty latent)) x other →
        graph.TypeStep (Shown states) x other := by
      refine fun x => typeStep_mono fun y b hb hy => ?_
      rcases shown_insert.mp hy with ⟨rfl, -⟩ | ⟨-, hy⟩
      · exact (hchild hb).elim
      · exact hy
    by_cases heq : other = ty
    · subst heq
      exact Or.inr fun x hx => shown_insert.mpr (Or.inl ⟨rfl, (hlatent x).mpr (hback x hx)⟩)
    · rcases h.settled other hother with hmem | hsettled
      · exact Or.inl (List.mem_append_left _ ((List.mem_cons.mp hmem).resolve_left heq))
      · exact Or.inr fun x hx => hmono x other (hsettled x (hback x hx))

end

/-! The second loop ends: there are finitely many facts to record. -/

/-- The parameters of the graph, and the fact that a type is latent by itself. -/
def facts (graph : DescriptorGraph) : Finset (Option GenericParameterRef) :=
  (none :: graph.types.map fun node =>
    match node with
    | .parameter parameter => some parameter
    | _ => none).toFinset

theorem mem_facts (h : graph.Unfolds x ty) : x ∈ graph.facts := by
  have hparameter : ∀ ref parameter, graph.typeInfo ref = some (.parameter parameter) →
      some parameter ∈ graph.facts := by
    intro ref parameter href
    rw [facts, List.mem_toFinset]
    exact List.mem_cons_of_mem _
      (List.mem_map.mpr ⟨.parameter parameter, List.mem_of_getElem? href, rfl⟩)
  refine Contains.least (fun _ => True) (fun x _ => x ∈ graph.facts)
    (fun _ _ _ _ _ _ => trivial) ?_ trivial h
  intro y a _ hy
  have hnone : none ∈ graph.facts := by simp [facts]
  unfold ShowStep at hy
  rcases hequation : graph.equation a with _ | parameter | ⟨head, formals, args⟩ | ⟨label, children⟩
  all_goals rw [hequation] at hy
  · exact hy.elim
  · obtain ⟨node, hnode, he⟩ := Option.bind_eq_some_iff.mp hequation
    cases node with
    | parameter other =>
      obtain rfl : other = parameter := by simpa using he
      rw [show y = some other from hy]
      exact hparameter a other hnode
    | applied =>
      obtain ⟨formals, -, hhole⟩ := Option.map_eq_some_iff.mp he
      cases hhole
    | _ => cases he
  · rcases hy with ⟨rfl, -⟩ | ⟨parameter, hmem, hfilled⟩
    · exact hnone
    · unfold Filled at hfilled
      split at hfilled
      · exact hfilled
      · rw [hfilled]
        exact hmem
  · rcases hy with ⟨rfl, -⟩ | ⟨-, child, -, hmem⟩
    · exact hnone
    · exact hmem

open Classical in
/-- The facts that are not recorded. -/
noncomputable def unrecorded (graph : DescriptorGraph) (states : LatentStates) : ℕ :=
  ((Finset.range graph.types.length ×ˢ graph.facts).filter
    fun entry => ¬ Shown states entry.2 entry.1).card

open Classical in
theorem unrecorded_lt {nodes : TypeInfoRef → Prop} {latent : Latent}
    (h : Propagating graph nodes states (ty :: pending))
    (hlatent : ∀ x, latent.Says x ↔ graph.TypeStep (Shown states) x ty)
    (hlt : ty < graph.types.length) (hne : states.get ty ≠ some latent) :
    graph.unrecorded (states.insert ty latent) < graph.unrecorded states := by
  have hty := (h.keys ty).mpr (h.pending_nodes ty List.mem_cons_self)
  obtain ⟨old, hold⟩ := Option.isSome_iff_exists.mp hty
  obtain ⟨x, hx, hnot⟩ : ∃ x, latent.Says x ∧ ¬ old.Says x := by
    by_contra hno
    refine hne (hold.trans (congrArg some (Latent.ext_says fun x => ⟨fun hx => ?_, fun hx => ?_⟩)))
    · exact (hlatent x).mpr (h.grows x ty ⟨old, hold, hx⟩)
    · by_contra hnot
      exact hno ⟨x, hx, hnot⟩
  have hfact : x ∈ graph.facts :=
    mem_facts (contains_of_step (typeStep_mono (fun y b _ => h.sound y b) ((hlatent x).mp hx)))
  unfold unrecorded
  refine Finset.card_lt_card (Finset.ssubset_iff_of_subset ?_ |>.mpr ⟨(ty, x), ?_, ?_⟩)
  · intro entry hentry
    rw [Finset.mem_filter] at hentry ⊢
    exact ⟨hentry.1, fun hshown => hentry.2 (h.shown_mono hlatent hshown)⟩
  · rw [Finset.mem_filter, Finset.mem_product, Finset.mem_range]
    refine ⟨⟨hlt, hfact⟩, ?_⟩
    rintro ⟨other, hother, hsay⟩
    cases hold.symm.trans hother
    exact hnot hsay
  · rw [Finset.mem_filter, not_and, not_not]
    exact fun _ => shown_insert.mpr (Or.inl ⟨rfl, hx⟩)

theorem exists_node (h : graph.Described ty) : ∃ node, graph.typeInfo ty = some node := by
  rcases hnode : graph.typeInfo ty with _ | node
  · rw [Described, hnode] at h
    exact h.elim
  · exact ⟨node, rfl⟩

theorem propagate_returns {nodes : TypeInfoRef → Prop} (hset : Setting graph nodes dependents)
    (h : Propagating graph nodes states pending) :
    ∃ n final, graph.propagate dependents n states pending = some (.ok final) ∧
      Propagating graph nodes final [] := by
  -- a step shortens the queue, or records a fact
  induction hcount : graph.unrecorded states using Nat.strong_induction_on
    generalizing states pending with
  | _ count ih =>
    induction pending with
    | nil => exact ⟨0, states, rfl, h⟩
    | cons ty pending ihp =>
      have hty := h.pending_nodes ty List.mem_cons_self
      have hdescribed := hset.described ty hty
      obtain ⟨node, hnode⟩ := exists_node hdescribed
      have hlt : ty < graph.types.length := (List.getElem?_eq_some_iff.mp hnode).1
      have hchildren : ∀ child ∈ node.children, (states.get child).isSome = true :=
        fun child hchild => (h.keys child).mpr (hset.closed ty child hty ⟨node, hnode, hchild⟩)
      obtain ⟨latent, htransfer, hlatent⟩ := transfer_spec hnode hdescribed hchildren
      by_cases hget : states.get ty = some latent
      · obtain ⟨n, final, hrun, hfinal⟩ := ihp (h.unchanged hlatent hget)
        refine ⟨n + 1, final, ?_, hfinal⟩
        rw [propagate, hnode]
        dsimp only
        rw [htransfer]
        dsimp only
        rw [if_pos hget]
        exact hrun
      · have hdrop := unrecorded_lt h hlatent hlt hget
        obtain ⟨n, final, hrun, hfinal⟩ := ih _ (hcount ▸ hdrop) (h.changed hlatent hset) rfl
        refine ⟨n + 1, final, ?_, hfinal⟩
        rw [propagate, hnode]
        dsimp only
        rw [htransfer]
        dsimp only
        rw [if_neg hget]
        exact hrun

/-! More rounds change nothing. -/

theorem discover_mono {n m : ℕ} (hle : n ≤ m)
    {result : Except ProjectionError (LatentStates × Dependents)}
    (h : graph.discover n pending states dependents = some result) :
    graph.discover m pending states dependents = some result := by
  induction n generalizing m pending states dependents with
  | zero =>
    cases pending with
    | nil => cases m <;> exact h
    | cons => cases h
  | succ n ih =>
    obtain ⟨m, rfl⟩ := Nat.exists_eq_succ_of_ne_zero (n := m) (by omega)
    cases pending with
    | nil => exact h
    | cons ty pending =>
      rw [discover] at h ⊢
      split at h
      · rw [if_pos ‹_›]
        exact ih (by omega) h
      · rw [if_neg ‹_›]
        rcases hnode : graph.typeInfo ty with _ | node
        · rw [hnode] at h
          exact h
        · rw [hnode] at h
          exact ih (by omega) h

theorem propagate_mono {n m : ℕ} (hle : n ≤ m) {result : Except ProjectionError LatentStates}
    (h : graph.propagate dependents n states pending = some result) :
    graph.propagate dependents m states pending = some result := by
  induction n generalizing m states pending with
  | zero =>
    cases pending with
    | nil => cases m <;> exact h
    | cons => cases h
  | succ n ih =>
    obtain ⟨m, rfl⟩ := Nat.exists_eq_succ_of_ne_zero (n := m) (by omega)
    cases pending with
    | nil => exact h
    | cons ty pending =>
      rw [propagate] at h ⊢
      rcases hnode : graph.typeInfo ty with _ | node
      · rw [hnode] at h
        exact h
      rw [hnode] at h
      dsimp only at h ⊢
      rcases htransfer : graph.transfer node states with error | state
      · rw [htransfer] at h
        exact h
      rw [htransfer] at h
      dsimp only at h ⊢
      split at h
      · rw [if_pos ‹_›]
        exact ih (by omega) h
      · rw [if_neg ‹_›]
        exact ih (by omega) h

theorem Discovering.setting (h : Discovering graph root [] states dependents)
    (hfits : graph.Fits root) :
    Setting graph (fun ty => (states.get ty).isSome = true) dependents where
  described := fun ty hty => hfits ty (h.reached ty (Or.inl hty))
  closed := fun ty child hty hchild => (h.children ty child hty hchild).1.resolve_right nofun
  complete := fun ty child hty hchild => (h.children ty child hty hchild).2
  sound := h.dependents

theorem Discovering.propagating (h : Discovering graph root [] states dependents)
    (hkeys : ∀ ty, ty ∈ pending ↔ (states.get ty).isSome = true) :
    Propagating graph (fun ty => (states.get ty).isSome = true) states pending := by
  have hempty : ∀ x ty, ¬ Shown states x ty := by
    rintro x ty ⟨latent, hget, hsay⟩
    rw [h.default ty latent hget] at hsay
    exact Latent.says_default x hsay
  refine ⟨fun _ => Iff.rfl, fun ty hty => (hkeys ty).mp hty, ?_, ?_, ?_⟩
  · exact fun x ty hx => (hempty x ty hx).elim
  · exact fun x ty hx => (hempty x ty hx).elim
  · exact fun ty hty => Or.inl ((hkeys ty).mpr hty)

theorem latentOutput_spec {signature : TypeInfoRef} {info : SignatureInfo}
    (hsignature : graph.typeInfo signature = some (.function info)) (hfits : graph.Fits info.output)
    {keys : LatentStates → List TypeInfoRef}
    (hkeys : ∀ states ty, ty ∈ keys states ↔ (states.get ty).isSome = true) :
    ∃ latent limit, (∀ n, limit ≤ n → graph.latentOutput keys n signature = some (.ok latent)) ∧
      ∀ x, latent.Says x ↔ graph.Unfolds x info.output := by
  have hstart : Discovering graph info.output [info.output] ∅ ∅ := by
    refine ⟨?_, Or.inr List.mem_cons_self, ?_, ?_, ?_⟩
    · rintro ty (hty | hty)
      · cases hty
      · rw [List.mem_singleton.mp hty]
    · intro ty child hty
      cases hty
    · intro child ty hty
      cases hty
    · intro ty latent hget
      cases hget
  have hnone : ∀ ty, ty ∈ ([] : List TypeInfoRef) ↔
      ((∅ : LatentStates).get ty).isSome = true := by
    intro ty
    simp
  obtain ⟨bound, states, dependents, hdiscover, hfound⟩ : ∃ bound states dependents,
      graph.discover bound [info.output] ∅ ∅ = some (.ok (states, dependents)) ∧
        Discovering graph info.output [] states dependents :=
    ⟨_, discover_spec hfits hstart hnone le_rfl⟩
  obtain ⟨rounds, final, hpropagate, hfinal⟩ := propagate_returns (hfound.setting hfits)
    (hfound.propagating (hkeys states))
  have hroot := hfound.root.resolve_right nofun
  obtain ⟨latent, hget⟩ := Option.isSome_iff_exists.mp ((hfinal.keys info.output).mpr hroot)
  refine ⟨latent, max bound rounds, fun n hn => ?_, fun x => ⟨fun hx => ?_, fun hx => ?_⟩⟩
  · unfold latentOutput
    rw [hsignature]
    dsimp only
    rw [discover_mono ((le_max_left _ _).trans hn) hdiscover]
    dsimp only [Option.bind_eq_bind, Option.bind_some]
    rw [propagate_mono ((le_max_right _ _).trans hn) hpropagate]
    dsimp only [Option.bind_some]
    rw [hget]
    rfl
  · exact hfinal.sound x info.output ⟨latent, hget, hx⟩
  · -- what is recorded at the end is a solution
    have hsetting := hfound.setting hfits
    obtain ⟨other, hother, hsay⟩ : Shown final x info.output := by
      refine Contains.least (fun ty => (states.get ty).isSome = true) (Shown final)
        (fun ty hty e he b hb => hsetting.closed ty b hty (child_of_component he hb)) ?_ hroot hx
      exact fun y ty hty hy => (hfinal.settled ty hty).resolve_left nofun y hy
    cases hget.symm.trans hother
    exact hsay

theorem unfolds_none_iff : graph.Unfolds none ty ↔ graph.ContainsLatent ty := by
  exact exists_congr fun depth => Tree.shows_none_iff fun _ => TypeInfo.isLatent_of_isClosed

/-- The analysis ends, whatever the order of its maps, and classifies the output by its infinite
unfolding. -/
theorem latentOutput_exact (graph : DescriptorGraph) {signature : TypeInfoRef}
    {info : SignatureInfo} (hsignature : graph.typeInfo signature = some (.function info))
    (hfits : graph.Fits info.output) :
    ∃ latent : Latent,
      (∀ keys : LatentStates → List TypeInfoRef,
        (∀ states ty, ty ∈ keys states ↔ (states.get ty).isSome = true) →
        ∃ limit, ∀ n, limit ≤ n → graph.latentOutput keys n signature = some (.ok latent)) ∧
      (latent.intrinsic = true ↔ graph.ContainsLatent info.output) ∧
      ∀ parameter, parameter ∈ latent.parameters ↔ graph.Unfolds (some parameter) info.output := by
  have hlist : ∀ (states : LatentStates) (ty : TypeInfoRef),
      ty ∈ states.toList.map Prod.fst ↔ (states.get ty).isSome = true := by
    intro states ty
    simp [Map.mem_toList, Option.isSome_iff_exists]
  obtain ⟨latent, -, -, hsay⟩ := latentOutput_spec hsignature hfits hlist
  refine ⟨latent, fun keys hkeys => ?_, (hsay none).trans unfolds_none_iff,
    fun parameter => hsay (some parameter)⟩
  obtain ⟨other, limit, hrun, hother⟩ := latentOutput_spec hsignature hfits hkeys
  obtain rfl : other = latent :=
    Latent.ext_says fun x => (hother x).trans (hsay x).symm
  exact ⟨limit, hrun⟩

theorem fits_of_lt {n : ℕ} (hroot : root < n)
    (hchild : ∀ ty < n, ∀ child ∈ graph.successors ty, child < n)
    (hdescribed : ∀ ty < n, graph.Described ty) : graph.Fits root := by
  intro ty hty
  have hlt : ty < n := by
    induction hty with
    | refl => exact hroot
    | tail _ hstep ih =>
      obtain ⟨node, hnode, hmem⟩ := hstep
      exact hchild _ ih _ (by simpa [successors, hnode] using hmem)
  exact hdescribed ty hlt

/-- A recursive enumeration whose second field applies it again, and a callable that returns the
application of it to handlers. -/
def chainGraph : DescriptorGraph :=
  ⟨[.enum ⟨"app", [], ["Chain"], .type⟩ [7] [⟨.positional [1, 2]⟩], .parameter 7, .applied 0 [1],
    .applied 0 [4], .handler, .function ⟨3⟩]⟩

theorem chainGraph_described : ∀ ty < 5, chainGraph.Described ty
  | 0, _ => trivial
  | 1, _ => trivial
  | 2, _ => ⟨[7], rfl, rfl⟩
  | 3, _ => ⟨[7], rfl, rfl⟩
  | 4, _ => trivial
  | n + 5, h => absurd h (Nat.not_lt.mpr (Nat.le_add_left 5 n))

theorem chainGraph_fits : chainGraph.Fits 3 :=
  fits_of_lt (by decide) (by decide) chainGraph_described

theorem latentOutput_exact_chain :
    ∃ latent : Latent,
      (∀ keys : LatentStates → List TypeInfoRef,
        (∀ states ty, ty ∈ keys states ↔ (states.get ty).isSome = true) →
        ∃ limit, ∀ n, limit ≤ n → chainGraph.latentOutput keys n 5 = some (.ok latent)) ∧
      (latent.intrinsic = true ↔ chainGraph.ContainsLatent 3) ∧
      ∀ parameter, parameter ∈ latent.parameters ↔ chainGraph.Unfolds (some parameter) 3 :=
  latentOutput_exact chainGraph rfl chainGraph_fits

/-- A callable that returns an existential type with a parameter in its bound. -/
def boundGraph : DescriptorGraph :=
  ⟨[.existential [⟨[1]⟩], .parameter 7, .function ⟨0⟩]⟩

theorem boundGraph_described : ∀ ty < 2, boundGraph.Described ty
  | 0, _ => trivial
  | 1, _ => trivial
  | n + 2, h => absurd h (Nat.not_lt.mpr (Nat.le_add_left 2 n))

/-- The parameter stands in the unfolding, but an existential type is not looked into. -/
theorem latentOutput_existential :
    boundGraph.Fits 0 ∧
      boundGraph.latentOutput (fun states => states.toList.map Prod.fst) 9 2 =
        some (.ok ⟨true, ∅⟩) ∧
      Contains boundGraph.equation TypeInfo.isLatent (fun _ => false) (some 7) 0 := by
  refine ⟨?_, ?_, 2, ?_⟩
  · exact fits_of_lt (by decide) (by decide) boundGraph_described
  · decide
  · exact .child rfl (List.mem_singleton.mpr rfl) (.hole 7)

end DescriptorGraph
end EtasFrontend.Contract
