import EtasFrontend.Types.Settled

/-! Types between which assignability goes both ways. -/
namespace EtasFrontend.Types
open Lib Relation

/-- The unifier reads this node the same from both sides: it is no variable, the fields of a record
are told apart by their names, and no read-only view stands for an application. -/
def Ty.Reversible (store : TypeStore) : Ty → Prop
  | .var _ => False
  | .record r => (r.fields.map FieldType.name).Nodup
  | .applied constructor _ => Unifier.isErasedView store constructor = false
  | _ => True

/-- Every node of the type is reversible. -/
def Reversible (store : TypeStore) (ty : TypeId) : Prop :=
  ∀ b, ReflTransGen (Component store) ty b → ∃ t, store.get b = some t ∧ t.Reversible store

variable {store : TypeStore}

theorem Reversible.node {ty : TypeId} (h : Reversible store ty) :
    ∃ t, store.get ty = some t ∧ t.Reversible store := h ty .refl

theorem Reversible.child {ty b : TypeId} {t : Ty} (h : Reversible store ty)
    (hget : store.get ty = some t) (hb : b ∈ t.children) : Reversible store b :=
  fun c hc => h c (.head ⟨t, hget, hb⟩ hc)

theorem Reversible.ground {ty : TypeId} (h : Reversible store ty) : Ground store ty := by
  intro b hb
  obtain ⟨t, hget, ht⟩ := h b hb
  refine ⟨t, hget, ?_⟩
  rintro v rfl
  exact ht

theorem Reversible.of_leaf {ty : TypeId} {t : Ty} (hget : store.get ty = some t)
    (hleaf : t.children = []) (ht : t.Reversible store) : Reversible store ty := by
  intro b hb
  rcases ReflTransGen.cases_head hb with rfl | ⟨c, ⟨t', hget', hc⟩, -⟩
  · exact ⟨t, hget, ht⟩
  · cases hget.symm.trans hget'
    rw [hleaf] at hc
    cases hc

variable {x y : TypeId}

namespace Unifier

/-- A task that succeeds does so from the other side. -/
def Mirrors (R R' : UnifyTask → Prop) : Prop :=
  ∀ x y erasure contract, R ⟨x, y, erasure, contract⟩ → R' ⟨y, x, erasure, contract⟩

section
variable {R R' : UnifyTask → Prop} (hR : Mirrors R R') {u : Unifier}
include hR

theorem mirror_zipTasks {xs ys : List TypeId} (h : ∀ t ∈ u.zipTasks xs ys, R t) :
    ∀ t ∈ u.zipTasks ys xs, R' t := by
  induction xs generalizing ys with
  | nil => cases ys <;> simp [zipTasks]
  | cons x xs ih =>
    cases ys with
    | nil => simp [zipTasks]
    | cons y ys =>
      obtain ⟨hhead, hrest⟩ := List.forall_mem_cons.mp h
      exact List.forall_mem_cons.mpr ⟨hR _ _ _ _ hhead, ih hrest⟩

theorem mirror_task (h : ∀ t ∈ [u.task x y], R t) : ∀ t ∈ [u.task y x], R' t := by
  simp only [List.forall_mem_singleton] at h ⊢
  exact hR _ _ _ _ h

theorem mirror_pair {x x' y y' : TypeId} (h : ∀ t ∈ [u.task x y, u.task x' y'], R t) :
    ∀ t ∈ [u.task y x, u.task y' x'], R' t := by
  obtain ⟨hfirst, hsecond⟩ := List.forall_mem_cons.mp h
  exact List.forall_mem_cons.mpr ⟨hR _ _ _ _ hfirst, mirror_task hR hsecond⟩

theorem mirror_optionTasks {x y : Option TypeId} (h : ∀ t ∈ u.optionTasks x y, R t) :
    ∀ t ∈ u.optionTasks y x, R' t := by
  cases x with
  | none => cases y <;> simp [optionTasks]
  | some x =>
    cases y with
    | none => simp [optionTasks]
    | some y => exact mirror_task hR h

/-- Where names are distinct and as many, a field finds its partner and is found by it. -/
theorem mirror_fields {as bs : List FieldType} (hlen : as.length = bs.length)
    (has : (as.map FieldType.name).Nodup) (hbs : (bs.map FieldType.name).Nodup)
    (h : ∀ a ∈ as, ∃ b, bs.find? (fun candidate => candidate.name == a.name) = some b ∧
      R (u.task a.ty b.ty)) :
    ∀ b ∈ bs, ∃ a, as.find? (fun candidate => candidate.name == b.name) = some a ∧
      R' (u.task b.ty a.ty) := by
  intro b hb
  have hsub : as.map FieldType.name ⊆ bs.map FieldType.name := by
    intro name hname
    obtain ⟨a, ha, rfl⟩ := List.mem_map.mp hname
    obtain ⟨b, hfind, -⟩ := h a ha
    exact List.mem_map.mpr ⟨b, List.mem_of_find?_eq_some hfind, by simpa using List.find?_some hfind⟩
  have hperm : (as.map FieldType.name).Perm (bs.map FieldType.name) :=
    (has.subperm hsub).perm_of_length_le (by simp [hlen])
  obtain ⟨a, ha, hname⟩ := List.mem_map.mp (hperm.mem_iff.mpr (List.mem_map_of_mem hb))
  have hinj : ∀ {l : List FieldType}, (l.map FieldType.name).Nodup → ∀ {x y : FieldType}, x ∈ l →
      y ∈ l → x.name = y.name → x = y := fun hl _ _ hx hy => List.inj_on_of_nodup_map hl hx hy
  obtain ⟨b', hfind', hR'⟩ := h a ha
  have hb' : b' = b := hinj hbs (List.mem_of_find?_eq_some hfind') hb
    ((by simpa using List.find?_some hfind' : b'.name = a.name).trans hname)
  obtain ⟨a', hfind⟩ : ∃ a', as.find? (fun candidate => candidate.name == b.name) = some a' :=
    Option.isSome_iff_exists.mp (List.find?_isSome.mpr ⟨a, ha, by simp [hname]⟩)
  have ha' : a' = a := hinj has (List.mem_of_find?_eq_some hfind) ha
    ((by simpa using List.find?_some hfind : a'.name = b.name).trans hname.symm)
  subst ha' hb'
  exact ⟨a', hfind, hR _ _ _ _ hR'⟩

end

theorem sameEffectRow_comm (r s : Option EffectRowRef) : sameEffectRow r s = sameEffectRow s r := by
  cases r with
  | none => cases s <;> rfl
  | some r =>
    cases s with
    | none => rfl
    | some s =>
      simp only [sameEffectRow]
      rw [Bool.and_assoc, Bool.and_assoc, Bool.and_comm (r.effects.all _), BEq.comm]

theorem sameParameter_comm (store : TypeStore) (x y : TypeId) (a b : NamedTypeRef) :
    sameParameter store x y a b = sameParameter store y x b a := by
  unfold sameParameter
  cases store.parameterIdentity x <;> cases store.parameterIdentity y <;> first
    | rfl
    | exact BEq.comm

theorem sameNominal_comm (store : TypeStore) (x y : TypeId) (a b : NominalTypeRef) :
    sameNominal store x y a b = sameNominal store y x b a := by
  unfold sameNominal
  cases store.nominalIdentity x <;> cases store.nominalIdentity y <;> first
    | rfl
    | exact BEq.comm

theorem boundsAlign_symm {left right : List CheckedSpecBound} (h : boundsAlign left right = true) :
    boundsAlign right left = true := by
  rw [boundsAlign_iff] at h ⊢
  induction h with
  | nil => exact .nil
  | cons hab _ ih => exact .cons ⟨hab.1.symm, hab.2.symm⟩ ih

section
variable {R R' : UnifyTask → Prop} {u : Unifier} {x y : TypeId}

theorem mirror_function (hR : Mirrors R R') {a b : FlowType} {e e' : UnifyError}
    (h : Passes R (if u.definitionContract && !sameEffectRow a.effects b.effects then .fail e
      else .descend ({ u with readOnlyErasure := false }.zipTasks a.input b.input ++
        [{ u with readOnlyErasure := false }.task a.output b.output]) none)) :
    Passes R' (if u.definitionContract && !sameEffectRow b.effects a.effects then .fail e'
      else .descend ({ u with readOnlyErasure := false }.zipTasks b.input a.input ++
        [{ u with readOnlyErasure := false }.task b.output a.output]) none) := by
  rw [sameEffectRow_comm b.effects a.effects]
  split_ifs at h ⊢ with hrow
  · exact h.elim
  · obtain ⟨hin, hout⟩ := List.forall_mem_append.mp h
    exact List.forall_mem_append.mpr ⟨mirror_zipTasks hR hin, mirror_task hR hout⟩

variable (hR : Mirrors R R') (hxy : x ≠ y)
include hxy

theorem mirror_ite {p q : Prop} [Decidable p] [Decidable q] {goal goal' : UnifyGoal}
    {e e' : UnifyError} (h : Passes R (if p then goal else if x = y then .done else .fail e))
    (hpq : p → q) (hgoal : p → Passes R goal → Passes R' goal') :
    Passes R' (if q then goal' else if y = x then .done else .fail e') := by
  obtain ⟨hp, h⟩ := (passes_ite hxy).mp h
  exact (passes_ite hxy.symm).mpr ⟨hpq hp, hgoal hp h⟩

variable {a b : Ty} (h : Passes R (u.nodeGoal store x y a b))
include h

theorem mirror_primitive {t : PrimitiveType} (ha : a = .primitive t) :
    Passes R' (u.nodeGoal store y x b a) := by
  subst ha
  cases b with
  | primitive => exact mirror_ite hxy h Eq.symm fun _ => id
  | integerLiteral => exact mirror_ite hxy h id fun _ => id
  | _ => exact (not_passes_mismatch hxy h).elim

theorem mirror_integerLiteral {t : String} (ha : a = .integerLiteral t) :
    Passes R' (u.nodeGoal store y x b a) := by
  subst ha
  cases b with
  | primitive => exact mirror_ite hxy h id fun _ => id
  | integerLiteral => trivial
  | _ => exact (not_passes_mismatch hxy h).elim

theorem mirror_named {t : NamedTypeRef} (ha : a = .named t) :
    Passes R' (u.nodeGoal store y x b a) := by
  subst ha
  cases b with
  | named => exact mirror_ite hxy h (sameParameter_comm store x y _ _ ▸ id) fun _ => id
  | _ => exact (not_passes_mismatch hxy h).elim

theorem mirror_nominal {t : NominalTypeRef} (ha : a = .nominal t) :
    Passes R' (u.nodeGoal store y x b a) := by
  subst ha
  cases b with
  | nominal => exact mirror_ite hxy h (sameNominal_comm store x y _ _ ▸ id) fun _ => id
  | _ => exact (not_passes_mismatch hxy h).elim

include hR

theorem mirror_existential {bounds : List CheckedSpecBound} (ha : a = .existential bounds) :
    Passes R' (u.nodeGoal store y x b a) := by
  subst ha
  cases b with
  | existential =>
    refine mirror_ite hxy h boundsAlign_symm fun halign h => ?_
    rw [existential_tasks halign] at h
    rw [existential_tasks (boundsAlign_symm halign)]
    exact mirror_zipTasks hR h
  | _ => exact (not_passes_mismatch hxy h).elim

theorem mirror_record {t : RecordType} (ha : a = .record t) (hrev : a.Reversible store)
    (hb : b.Reversible store) : Passes R' (u.nodeGoal store y x b a) := by
  subst ha
  cases b with
  | record =>
    obtain ⟨hlen, h⟩ := (passes_ite hxy).mp h
    refine (passes_ite hxy.symm).mpr ⟨hlen.symm, passes_record_iff.mpr ?_⟩
    exact mirror_fields hR hlen hrev hb (passes_record_iff.mp h)
  | _ => exact (not_passes_mismatch hxy h).elim

theorem mirror_tuple {ts : List TypeId} (ha : a = .tuple ts) :
    Passes R' (u.nodeGoal store y x b a) := by
  subst ha
  cases b with
  | tuple => exact mirror_ite hxy h Eq.symm fun _ => mirror_zipTasks hR
  | _ => exact (not_passes_mismatch hxy h).elim

theorem mirror_functionNode {flow : FlowType} (ha : a = .function flow) :
    Passes R' (u.nodeGoal store y x b a) := by
  subst ha
  cases b with
  | function => exact mirror_ite hxy h Eq.symm fun _ => mirror_function hR
  | _ => exact (not_passes_mismatch hxy h).elim

theorem mirror_handler {t : HandlerType} (ha : a = .handler t) :
    Passes R' (u.nodeGoal store y x b a) := by
  subst ha
  cases b with
  | handler => exact mirror_ite hxy h Eq.symm fun _ => mirror_optionTasks hR
  | _ => exact (not_passes_mismatch hxy h).elim

theorem mirror_taskNode {t : TaskType} (ha : a = .task t) :
    Passes R' (u.nodeGoal store y x b a) := by
  subst ha
  cases b with
  | task => exact mirror_ite hxy h (sameEffectRow_comm _ _ ▸ id) fun _ => mirror_task hR
  | _ => exact (not_passes_mismatch hxy h).elim

theorem mirror_continuation {t : ContinuationType} (ha : a = .continuation t) :
    Passes R' (u.nodeGoal store y x b a) := by
  subst ha
  cases b with
  | continuation =>
    refine mirror_ite hxy h (sameEffectRow_comm _ _ ▸ id) fun _ h => ?_
    obtain ⟨hout, hanswer⟩ := List.forall_mem_cons.mp h
    exact List.forall_mem_cons.mpr ⟨hR _ _ _ _ hout, mirror_optionTasks hR hanswer⟩
  | _ => exact (not_passes_mismatch hxy h).elim

theorem mirror_applied {constructor : TypeId} {args : List TypeId}
    (ha : a = .applied constructor args) (hview : isErasedView store constructor = false)
    (hb : b.Reversible store) : Passes R' (u.nodeGoal store y x b a) := by
  subst ha
  cases b with
  | nominal => exact (not_erasesTo hview ((passes_ite hxy).mp h).1).elim
  | applied other =>
    refine mirror_ite hxy h Eq.symm fun _ h => ?_
    obtain ⟨hcon, hargs⟩ := List.forall_mem_cons.mp h
    rw [hview] at hargs
    refine List.forall_mem_cons.mpr ⟨hR _ _ _ _ hcon, ?_⟩
    rw [show isErasedView store other = false from hb]
    exact mirror_zipTasks hR hargs
  | _ => exact (not_passes_mismatch hxy h).elim

theorem mirror_trust {wrapper : TrustWrapper} {t : TypeId} (ha : a = .trust wrapper t) :
    Passes R' (u.nodeGoal store y x b a) := by
  subst ha
  cases b with
  | trust => exact mirror_ite hxy h Eq.symm fun _ => mirror_task hR
  | _ => exact (not_passes_mismatch hxy h).elim

theorem mirror_resourceHandle {t : ResourceHandleType} (ha : a = .resourceHandle t) :
    Passes R' (u.nodeGoal store y x b a) := by
  have hno := not_passes_mismatch (R := R) hxy
  subst ha
  cases b with
  | resourceHandle s =>
    cases t with
    | other =>
      cases s with
      | other =>
        exact mirror_ite hxy h (fun h => ⟨h.1.symm, h.2.symm⟩) fun _ => mirror_zipTasks hR
      | _ => exact (hno h).elim
    | _ =>
      cases s <;> first
        | exact (hno h).elim
        | exact mirror_task hR h
  | _ => cases t <;> exact (hno h).elim

/-- Between reversible nodes a goal that passes does so from the other side. -/
theorem nodeGoal_mirror (ha : a.Reversible store) (hb : b.Reversible store) :
    Passes R' (u.nodeGoal store y x b a) := by
  have hno := not_passes_mismatch (R := R) hxy
  cases a with
  | var => exact ha.elim
  | existential => exact mirror_existential hR hxy h rfl
  | primitive => exact mirror_primitive hxy h rfl
  | integerLiteral => exact mirror_integerLiteral hxy h rfl
  | record => exact mirror_record hR hxy h rfl ha hb
  | tuple => exact mirror_tuple hR hxy h rfl
  | function => exact mirror_functionNode hR hxy h rfl
  | handler => exact mirror_handler hR hxy h rfl
  | task => exact mirror_taskNode hR hxy h rfl
  | continuation => exact mirror_continuation hR hxy h rfl
  | named => exact mirror_named hxy h rfl
  | nominal => exact mirror_nominal hxy h rfl
  | applied => exact mirror_applied hR hxy h rfl ha hb
  | trust => exact mirror_trust hR hxy h rfl
  | resourceHandle => exact mirror_resourceHandle hR hxy h rfl
  | schedulerHandle =>
    cases b with
    | schedulerHandle => trivial
    | _ => exact (hno h).elim
  | enum | refined | prompt | promptPart | memoryPlace => exact (hno h).elim
  | map | store | result =>
    cases b <;> first
      | exact (hno h).elim
      | exact mirror_pair hR h
  | _ =>
    cases b <;> first
      | exact (hno h).elim
      | exact mirror_task hR h

end

theorem Unifies.symm {n : ℕ} {erasure contract : Bool} (hx : Reversible store x)
    (hy : Reversible store y) (h : Unifies store n ⟨x, y, erasure, contract⟩) :
    Unifies store n ⟨y, x, erasure, contract⟩ := by
  induction n generalizing x y erasure contract with
  | zero =>
    obtain ⟨u, h⟩ := h
    cases h
  | succ n ih =>
    obtain ⟨a, ha, harev⟩ := hx.node
    obtain ⟨b, hb, hbrev⟩ := hy.node
    refine (unifies_succ_iff hy.ground hx.ground hb ha).mpr ?_
    by_cases heq : x = y
    · exact Or.inl heq.symm
    · right
      have h := ((unifies_succ_iff hx.ground hy.ground ha hb).mp h).resolve_left heq
      -- the tasks stay inside of the two types
      have h := h.of_component (nodeGoal_component ..)
      refine nodeGoal_mirror ?_ heq h harev hbrev
      rintro x' y' e c ⟨hxy, hx', hy'⟩
      exact ih (hx.child ha hx') (hy.child hb hy') hxy

end Unifier

/-- The two types are reversible, and neither special case of `assignable` tells them apart: one is
not `Never` alone, and neither is a named type that the other satisfies the constraint of. -/
structure Interchangeable (store : TypeStore) (x y : TypeId) : Prop where
  left : Reversible store x
  right : Reversible store y
  never : store.get x = some (.primitive .never) ↔ store.get y = some (.primitive .never)
  leftSupport : supportConstraintAssignable store x y = false
  rightSupport : supportConstraintAssignable store y x = false

theorem Interchangeable.symm (h : Interchangeable store x y) : Interchangeable store y x :=
  ⟨h.right, h.left, h.never.symm, h.rightSupport, h.leftSupport⟩

theorem TypeRelation.assignable_symm {n : ℕ} (h : Interchangeable store x y)
    (hxy : (TypeRelation.new store).assignable n x y = some (.ok ())) :
    (TypeRelation.new store).assignable n y x = some (.ok ()) := by
  rw [assignable_iff, h.leftSupport] at hxy
  rw [assignable_iff, h.rightSupport]
  rcases hxy with hnever | hsupport | hxy
  · exact Or.inl (h.never.mp hnever)
  · cases hsupport
  · exact Or.inr (Or.inr (hxy.symm h.left h.right))

end EtasFrontend.Types
