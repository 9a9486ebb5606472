import EtasFrontend.Types.Assignability
import EtasFrontend.Types.UnifierSound

/-! Types that leave nothing open, between which assignability composes. -/
namespace EtasFrontend.Types
open Lib Relation

/-- The type is in the store with all its parts, and no part is a variable. -/
def Ground (store : TypeStore) (ty : TypeId) : Prop :=
  ∀ b, ReflTransGen (Component store) ty b → ∃ t, store.get b = some t ∧ ∀ v, t ≠ .var v

/-- The relaxations of the unifier do not reach this node: it stands for no other type, it lacks
no optional result, and no read-only view stands for it. -/
def Ty.Settled (store : TypeStore) : Ty → Prop
  | .var _ | .integerLiteral _ => False
  | .handler h => h.result.isSome = true
  | .continuation c => c.handledAnswer.isSome = true
  | .applied c _ => Unifier.isErasedView store c = false
  | _ => True

/-- Every node of the type is settled. -/
def Settled (store : TypeStore) (ty : TypeId) : Prop :=
  ∀ b, ReflTransGen (Component store) ty b → ∃ t, store.get b = some t ∧ t.Settled store

variable {store : TypeStore} {ty : TypeId}

theorem Ground.node (h : Ground store ty) :
    ∃ t, store.get ty = some t ∧ ∀ v, t ≠ .var v := h ty .refl

theorem Ground.child {ty b : TypeId} {t : Ty} (h : Ground store ty) (hget : store.get ty = some t)
    (hb : b ∈ t.children) : Ground store b :=
  fun c hc => h c (.head ⟨t, hget, hb⟩ hc)

theorem Settled.node (h : Settled store ty) :
    ∃ t, store.get ty = some t ∧ t.Settled store := h ty .refl

theorem Settled.child {ty b : TypeId} {t : Ty} (h : Settled store ty) (hget : store.get ty = some t)
    (hb : b ∈ t.children) : Settled store b :=
  fun c hc => h c (.head ⟨t, hget, hb⟩ hc)

theorem Settled.of_leaf {t : Ty} (hget : store.get ty = some t) (hleaf : t.children = [])
    (ht : t.Settled store) : Settled store ty := by
  intro b hb
  rcases ReflTransGen.cases_head hb with rfl | ⟨c, ⟨t', hget', hc⟩, -⟩
  · exact ⟨t, hget, ht⟩
  · cases hget.symm.trans hget'
    rw [hleaf] at hc
    cases hc

theorem Ty.Settled.ne_var {t : Ty} (h : t.Settled store) (v : TypeVarId) : t ≠ .var v := by
  rintro rfl
  exact h

theorem Settled.ground (h : Settled store ty) : Ground store ty := by
  intro b hb
  obtain ⟨t, hget, ht⟩ := h b hb
  exact ⟨t, hget, ht.ne_var⟩

variable {n : ℕ} {x y z lhs rhs : TypeId}

namespace Unifier

/-- The goal succeeds, given the tasks that do. -/
def Passes (R : UnifyTask → Prop) : UnifyGoal → Prop
  | .done => True
  | .descend tasks none => ∀ t ∈ tasks, R t
  | _ => False

/-- Tasks compose through a type in the middle. -/
def Chain (R₁ R₂ R₃ : UnifyTask → Prop) : Prop :=
  ∀ x y z erasure contract, R₁ ⟨x, y, erasure, contract⟩ → R₂ ⟨y, z, erasure, contract⟩ →
    R₃ ⟨x, z, erasure, contract⟩

variable {u : Unifier} {R : UnifyTask → Prop}

section
variable {R₁ R₂ R₃ : UnifyTask → Prop} (hR : Chain R₁ R₂ R₃)
include hR

theorem chain_zipTasks {xs ys zs : List TypeId} (hxy : xs.length = ys.length)
    (hyz : ys.length = zs.length) (h₁ : ∀ t ∈ u.zipTasks xs ys, R₁ t)
    (h₂ : ∀ t ∈ u.zipTasks ys zs, R₂ t) : ∀ t ∈ u.zipTasks xs zs, R₃ t := by
  induction xs generalizing ys zs with
  | nil => simp [zipTasks]
  | cons x xs ih =>
    obtain _ | ⟨y, ys⟩ := ys
    · cases hxy
    obtain _ | ⟨z, zs⟩ := zs
    · cases hyz
    intro t ht
    rcases List.mem_cons.mp ht with rfl | ht
    · exact hR x y z _ _ (h₁ _ List.mem_cons_self) (h₂ _ List.mem_cons_self)
    · refine ih (Nat.succ_injective hxy) (Nat.succ_injective hyz) ?_ ?_ t ht
      · exact fun t ht => h₁ t (List.mem_cons_of_mem _ ht)
      · exact fun t ht => h₂ t (List.mem_cons_of_mem _ ht)

theorem chain_task (h₁ : ∀ t ∈ [u.task x y], R₁ t) (h₂ : ∀ t ∈ [u.task y z], R₂ t) :
    ∀ t ∈ [u.task x z], R₃ t := by
  rw [List.forall_mem_singleton] at h₁ h₂ ⊢
  exact hR x y z _ _ h₁ h₂

theorem chain_pair {x x' y y' z z' : TypeId} (h₁ : ∀ t ∈ [u.task x y, u.task x' y'], R₁ t)
    (h₂ : ∀ t ∈ [u.task y z, u.task y' z'], R₂ t) :
    ∀ t ∈ [u.task x z, u.task x' z'], R₃ t := by
  rw [List.forall_mem_cons, List.forall_mem_singleton] at h₁ h₂ ⊢
  exact ⟨hR x y z _ _ h₁.1 h₂.1, hR x' y' z' _ _ h₁.2 h₂.2⟩

theorem chain_optionTasks {x y z : Option TypeId} (hy : y.isSome = true)
    (h₁ : ∀ t ∈ u.optionTasks x y, R₁ t) (h₂ : ∀ t ∈ u.optionTasks y z, R₂ t) :
    ∀ t ∈ u.optionTasks x z, R₃ t := by
  obtain ⟨y, rfl⟩ := Option.isSome_iff_exists.mp hy
  cases x with
  | none => simp [optionTasks]
  | some x =>
    cases z with
    | none => simp [optionTasks]
    | some z => exact chain_task hR h₁ h₂

omit hR in
theorem fieldTasks_iff {as bs : List FieldType} :
    ((u.fieldTasks bs as).2 = true ∧ ∀ t ∈ (u.fieldTasks bs as).1, R t) ↔
      ∀ a ∈ as, ∃ b, bs.find? (fun candidate => candidate.name == a.name) = some b ∧
        R (u.task a.ty b.ty) := by
  induction as with
  | nil => simp [fieldTasks]
  | cons a as ih =>
    rw [List.forall_mem_cons, ← ih, fieldTasks]
    cases bs.find? (fun candidate => candidate.name == a.name) with
    | none => simp
    | some b =>
      simp only [List.forall_mem_cons, Option.some.injEq, exists_eq_left']
      tauto

theorem chain_fields {as bs cs : List FieldType}
    (h₁ : ∀ a ∈ as, ∃ b, bs.find? (fun candidate => candidate.name == a.name) = some b ∧
      R₁ (u.task a.ty b.ty))
    (h₂ : ∀ b ∈ bs, ∃ c, cs.find? (fun candidate => candidate.name == b.name) = some c ∧
      R₂ (u.task b.ty c.ty)) :
    ∀ a ∈ as, ∃ c, cs.find? (fun candidate => candidate.name == a.name) = some c ∧
      R₃ (u.task a.ty c.ty) := by
  intro a ha
  obtain ⟨b, hfind, hab⟩ := h₁ a ha
  obtain ⟨c, hfind', hbc⟩ := h₂ b (List.mem_of_find?_eq_some hfind)
  have hname : b.name = a.name := by simpa using List.find?_some hfind
  rw [hname] at hfind'
  exact ⟨c, hfind', hR _ _ _ _ _ hab hbc⟩

end

theorem sameEffectRow_trans {r s t : Option EffectRowRef} (h₁ : sameEffectRow r s = true)
    (h₂ : sameEffectRow s t = true) : sameEffectRow r t = true := by
  cases r <;> cases s <;> cases t <;> simp only [sameEffectRow, reduceCtorEq] at h₁ h₂ ⊢
  simp only [Bool.and_eq_true, beq_iff_eq, List.all_eq_true, List.contains_iff_mem] at h₁ h₂ ⊢
  obtain ⟨⟨htail, hrs⟩, hsr⟩ := h₁
  obtain ⟨⟨htail', hst⟩, hts⟩ := h₂
  exact ⟨⟨htail.trans htail', fun e he => hst e (hrs e he)⟩, fun e he => hsr e (hts e he)⟩

theorem sameParameter_trans {a b c : NamedTypeRef} (h₁ : sameParameter store x y a b = true)
    (h₂ : sameParameter store y z b c = true) :
    sameParameter store x z a c = true := by
  unfold sameParameter at h₁ h₂ ⊢
  cases hx : store.parameterIdentity x <;> cases hy : store.parameterIdentity y <;>
    cases hz : store.parameterIdentity z <;> simp_all

theorem sameNominal_trans {a b c : NominalTypeRef} (h₁ : sameNominal store x y a b = true)
    (h₂ : sameNominal store y z b c = true) :
    sameNominal store x z a c = true := by
  unfold sameNominal at h₁ h₂ ⊢
  cases hx : store.nominalIdentity x <;> cases hy : store.nominalIdentity y <;>
    cases hz : store.nominalIdentity z <;> simp_all

theorem boundsAlign_trans {a b c : List CheckedSpecBound} (h₁ : boundsAlign a b = true)
    (h₂ : boundsAlign b c = true) : boundsAlign a c = true := by
  rw [boundsAlign_iff] at h₁ h₂ ⊢
  induction h₁ generalizing c with
  | nil => exact h₂
  | cons hab _ ih =>
    cases h₂ with
    | cons hbc hrest => exact .cons ⟨hab.1.trans hbc.1, hab.2.trans hbc.2⟩ (ih hrest)

section
variable {R₁ R₂ R₃ : UnifyTask → Prop} {u : Unifier} {x y z : TypeId}

theorem not_passes_mismatch (hne : x ≠ y) :
    ¬ Passes R (if x = y then .done else .fail (.mismatch x y)) := by
  rw [if_neg hne]
  exact id

theorem passes_ite {p : Prop} [Decidable p] {goal : UnifyGoal} {error : UnifyError} (hne : x ≠ y) :
    Passes R (if p then goal else if x = y then .done else .fail error) ↔ p ∧ Passes R goal := by
  by_cases hp : p
  · simp [hp]
  · simp [hp, hne, Passes]

theorem passes_record_iff {as bs : List FieldType} {error : UnifyError} :
    Passes R (.descend (u.fieldTasks bs as).1
        (if (u.fieldTasks bs as).2 then none else some error)) ↔
      ∀ a ∈ as, ∃ b, bs.find? (fun candidate => candidate.name == a.name) = some b ∧
        R (u.task a.ty b.ty) := by
  rw [← fieldTasks_iff]
  cases (u.fieldTasks bs as).2 <;> simp [Passes]

theorem length_args {a b : List CheckedSpecBound} (h : boundsAlign a b = true) :
    (a.flatMap CheckedSpecBound.args).length = (b.flatMap CheckedSpecBound.args).length := by
  rw [boundsAlign_iff] at h
  induction h with
  | nil => rfl
  | cons hab _ ih => rw [List.flatMap_cons, List.flatMap_cons, List.length_append,
      List.length_append, hab.2, ih]

theorem not_erasesTo {c : TypeId} {args : List TypeId} {view : NominalTypeRef}
    (hc : isErasedView store c = false) : ¬ u.erasesTo store c args y view = true := by
  intro h
  simp only [erasesTo, Bool.and_eq_true, beq_iff_eq] at h
  obtain ⟨⟨⟨⟨-, hview⟩, -⟩, -⟩, hget⟩ := h
  simp [isErasedView, hget, hview] at hc

theorem passes_function (hR : Chain R₁ R₂ R₃) {a b c : FlowType} {e₁ e₂ e₃ : UnifyError}
    (hab : a.input.length = b.input.length) (hbc : b.input.length = c.input.length)
    (h₁ : Passes R₁ (if u.definitionContract && !sameEffectRow a.effects b.effects then .fail e₁
      else .descend ({ u with readOnlyErasure := false }.zipTasks a.input b.input ++
        [{ u with readOnlyErasure := false }.task a.output b.output]) none))
    (h₂ : Passes R₂ (if u.definitionContract && !sameEffectRow b.effects c.effects then .fail e₂
      else .descend ({ u with readOnlyErasure := false }.zipTasks b.input c.input ++
        [{ u with readOnlyErasure := false }.task b.output c.output]) none)) :
    Passes R₃ (if u.definitionContract && !sameEffectRow a.effects c.effects then .fail e₃
      else .descend ({ u with readOnlyErasure := false }.zipTasks a.input c.input ++
        [{ u with readOnlyErasure := false }.task a.output c.output]) none) := by
  split_ifs at h₁ with hrow₁
  · exact h₁.elim
  split_ifs at h₂ with hrow₂
  · exact h₂.elim
  have hrow : ¬ (u.definitionContract && !sameEffectRow a.effects c.effects) = true := by
    cases hc : u.definitionContract with
    | false => simp
    | true =>
      simp only [hc, Bool.true_and, Bool.not_eq_true', Bool.not_eq_false] at hrow₁ hrow₂ ⊢
      exact sameEffectRow_trans hrow₁ hrow₂
  rw [if_neg hrow]
  obtain ⟨hin₁, hout₁⟩ := List.forall_mem_append.mp h₁
  obtain ⟨hin₂, hout₂⟩ := List.forall_mem_append.mp h₂
  refine List.forall_mem_append.mpr ⟨?_, ?_⟩
  · exact chain_zipTasks hR hab hbc hin₁ hin₂
  · exact chain_task hR hout₁ hout₂

variable (hR : Chain R₁ R₂ R₃) (hxy : x ≠ y) (hyz : y ≠ z) (hxz : x ≠ z)
include hxy hyz hxz

theorem chain_ite {p q r : Prop} [Decidable p] [Decidable q] [Decidable r] {g₁ g₂ g₃ : UnifyGoal}
    {e₁ e₂ e₃ : UnifyError} (h₁ : Passes R₁ (if p then g₁ else if x = y then .done else .fail e₁))
    (h₂ : Passes R₂ (if q then g₂ else if y = z then .done else .fail e₂)) (h : p → q → r)
    (hg : p → q → Passes R₁ g₁ → Passes R₂ g₂ → Passes R₃ g₃) :
    Passes R₃ (if r then g₃ else if x = z then .done else .fail e₃) := by
  obtain ⟨hp, h₁⟩ := (passes_ite hxy).mp h₁
  obtain ⟨hq, h₂⟩ := (passes_ite hyz).mp h₂
  exact (passes_ite hxz).mpr ⟨h hp hq, hg hp hq h₁ h₂⟩

variable {a b c : Ty} (h₁ : Passes R₁ (u.nodeGoal store x y a b))
variable (h₂ : Passes R₂ (u.nodeGoal store y z b c))
include h₁ h₂

theorem chain_named {t : NamedTypeRef} (ha : a = .named t) :
    Passes R₃ (u.nodeGoal store x z a c) := by
  subst ha
  cases b with
  | named =>
    cases c with
    | named => exact chain_ite hxy hyz hxz h₁ h₂ sameParameter_trans fun _ _ _ => id
    | _ => exact (not_passes_mismatch hyz h₂).elim
  | _ => exact (not_passes_mismatch hxy h₁).elim

theorem chain_nominal {t : NominalTypeRef} (ha : a = .nominal t) :
    Passes R₃ (u.nodeGoal store x z a c) := by
  subst ha
  cases b with
  | nominal =>
    cases c with
    | nominal => exact chain_ite hxy hyz hxz h₁ h₂ sameNominal_trans fun _ _ _ => id
    | _ => exact (not_passes_mismatch hyz h₂).elim
  | _ => exact (not_passes_mismatch hxy h₁).elim

theorem chain_primitive {t : PrimitiveType} (ha : a = .primitive t) (hb : b.Settled store) :
    Passes R₃ (u.nodeGoal store x z a c) := by
  subst ha
  cases b with
  | integerLiteral => exact hb.elim
  | primitive =>
    obtain ⟨rfl, -⟩ := (passes_ite hxy).mp h₁
    cases c with
    | primitive => exact chain_ite hxy hyz hxz h₁ h₂ Eq.trans fun _ _ _ => id
    | integerLiteral => exact (passes_ite hxz).mpr ⟨((passes_ite hyz).mp h₂).1, trivial⟩
    | _ => exact (not_passes_mismatch hyz h₂).elim
  | _ => exact (not_passes_mismatch hxy h₁).elim

include hR

theorem chain_existential {bounds : List CheckedSpecBound} (ha : a = .existential bounds) :
    Passes R₃ (u.nodeGoal store x z a c) := by
  subst ha
  cases b with
  | existential =>
    cases c with
    | existential =>
      refine chain_ite hxy hyz hxz h₁ h₂ boundsAlign_trans fun hab hbc h₁ h₂ => ?_
      rw [existential_tasks hab] at h₁
      rw [existential_tasks hbc] at h₂
      rw [existential_tasks (boundsAlign_trans hab hbc)]
      exact chain_zipTasks hR (length_args hab) (length_args hbc) h₁ h₂
    | _ => exact (not_passes_mismatch hyz h₂).elim
  | _ => exact (not_passes_mismatch hxy h₁).elim

theorem chain_record {t : RecordType} (ha : a = .record t) :
    Passes R₃ (u.nodeGoal store x z a c) := by
  subst ha
  cases b with
  | record =>
    cases c with
    | record =>
      refine chain_ite hxy hyz hxz h₁ h₂ Eq.trans fun _ _ h₁ h₂ => passes_record_iff.mpr ?_
      exact chain_fields hR (passes_record_iff.mp h₁) (passes_record_iff.mp h₂)
    | _ => exact (not_passes_mismatch hyz h₂).elim
  | _ => exact (not_passes_mismatch hxy h₁).elim

theorem chain_tuple {ts : List TypeId} (ha : a = .tuple ts) :
    Passes R₃ (u.nodeGoal store x z a c) := by
  subst ha
  cases b with
  | tuple =>
    cases c with
    | tuple => exact chain_ite hxy hyz hxz h₁ h₂ Eq.trans (chain_zipTasks hR)
    | _ => exact (not_passes_mismatch hyz h₂).elim
  | _ => exact (not_passes_mismatch hxy h₁).elim

theorem chain_function {flow : FlowType} (ha : a = .function flow) :
    Passes R₃ (u.nodeGoal store x z a c) := by
  subst ha
  cases b with
  | function =>
    cases c with
    | function => exact chain_ite hxy hyz hxz h₁ h₂ Eq.trans (passes_function hR)
    | _ => exact (not_passes_mismatch hyz h₂).elim
  | _ => exact (not_passes_mismatch hxy h₁).elim

theorem chain_handler {t : HandlerType} (ha : a = .handler t) (hb : b.Settled store) :
    Passes R₃ (u.nodeGoal store x z a c) := by
  subst ha
  cases b with
  | handler =>
    cases c with
    | handler => exact chain_ite hxy hyz hxz h₁ h₂ Eq.trans fun _ _ => chain_optionTasks hR hb
    | _ => exact (not_passes_mismatch hyz h₂).elim
  | _ => exact (not_passes_mismatch hxy h₁).elim

theorem chain_taskNode {t : TaskType} (ha : a = .task t) :
    Passes R₃ (u.nodeGoal store x z a c) := by
  subst ha
  cases b with
  | task =>
    cases c with
    | task => exact chain_ite hxy hyz hxz h₁ h₂ sameEffectRow_trans fun _ _ => chain_task hR
    | _ => exact (not_passes_mismatch hyz h₂).elim
  | _ => exact (not_passes_mismatch hxy h₁).elim

theorem chain_continuation {t : ContinuationType} (ha : a = .continuation t)
    (hb : b.Settled store) : Passes R₃ (u.nodeGoal store x z a c) := by
  subst ha
  cases b with
  | continuation =>
    cases c with
    | continuation =>
      refine chain_ite hxy hyz hxz h₁ h₂ sameEffectRow_trans fun _ _ h₁ h₂ => ?_
      obtain ⟨hout₁, hans₁⟩ := List.forall_mem_cons.mp h₁
      obtain ⟨hout₂, hans₂⟩ := List.forall_mem_cons.mp h₂
      refine List.forall_mem_cons.mpr ⟨hR _ _ _ _ _ hout₁ hout₂, ?_⟩
      exact chain_optionTasks hR hb hans₁ hans₂
    | _ => exact (not_passes_mismatch hyz h₂).elim
  | _ => exact (not_passes_mismatch hxy h₁).elim

theorem chain_applied {constructor : TypeId} {args : List TypeId} (ha : a = .applied constructor args)
    (hview : isErasedView store constructor = false) (hb : b.Settled store) :
    Passes R₃ (u.nodeGoal store x z a c) := by
  subst ha
  cases b with
  | nominal => exact (not_erasesTo hview ((passes_ite hxy).mp h₁).1).elim
  | applied view =>
    cases c with
    | nominal => exact (not_erasesTo hb ((passes_ite hyz).mp h₂).1).elim
    | applied =>
      refine chain_ite hxy hyz hxz h₁ h₂ Eq.trans fun hab hbc h₁ h₂ => ?_
      obtain ⟨hcon₁, hargs₁⟩ := List.forall_mem_cons.mp h₁
      obtain ⟨hcon₂, hargs₂⟩ := List.forall_mem_cons.mp h₂
      refine List.forall_mem_cons.mpr ⟨hR _ _ _ _ _ hcon₁ hcon₂, ?_⟩
      rw [hview] at hargs₁ ⊢
      rw [show isErasedView store view = false from hb] at hargs₂
      exact chain_zipTasks hR hab hbc hargs₁ hargs₂
    | _ => exact (not_passes_mismatch hyz h₂).elim
  | _ => exact (not_passes_mismatch hxy h₁).elim

theorem chain_trust {wrapper : TrustWrapper} {t : TypeId} (ha : a = .trust wrapper t) :
    Passes R₃ (u.nodeGoal store x z a c) := by
  subst ha
  cases b with
  | trust =>
    cases c with
    | trust => exact chain_ite hxy hyz hxz h₁ h₂ Eq.trans fun _ _ => chain_task hR
    | _ => exact (not_passes_mismatch hyz h₂).elim
  | _ => exact (not_passes_mismatch hxy h₁).elim

theorem chain_resourceHandle {t : ResourceHandleType} (ha : a = .resourceHandle t) :
    Passes R₃ (u.nodeGoal store x z a c) := by
  have hno₁ := not_passes_mismatch (R := R₁) hxy
  have hno₂ := not_passes_mismatch (R := R₂) hyz
  subst ha
  cases b with
  | resourceHandle s =>
    cases c with
    | resourceHandle r =>
      cases t with
      | other =>
        cases s with
        | other =>
          cases r with
          | other =>
            exact chain_ite hxy hyz hxz h₁ h₂
              (fun h h' => ⟨h.1.trans h'.1, h.2.trans h'.2⟩)
              fun h h' => chain_zipTasks hR h.2 h'.2
          | _ => exact (hno₂ h₂).elim
        | _ => exact (hno₁ h₁).elim
      | _ =>
        cases s <;> first
          | exact (hno₁ h₁).elim
          | cases r <;> first
            | exact (hno₂ h₂).elim
            | exact chain_task hR h₁ h₂
    | _ => cases s <;> exact (hno₂ h₂).elim
  | _ => cases t <;> exact (hno₁ h₁).elim

/-- Goals compose at a settled node in the middle. -/
theorem nodeGoal_chain (ha : a.Settled store) (hb : b.Settled store) :
    Passes R₃ (u.nodeGoal store x z a c) := by
  have hno₁ := not_passes_mismatch (R := R₁) hxy
  have hno₂ := not_passes_mismatch (R := R₂) hyz
  cases a with
  | var | integerLiteral => exact ha.elim
  | existential => exact chain_existential hR hxy hyz hxz h₁ h₂ rfl
  | primitive => exact chain_primitive hxy hyz hxz h₁ h₂ rfl hb
  | record => exact chain_record hR hxy hyz hxz h₁ h₂ rfl
  | tuple => exact chain_tuple hR hxy hyz hxz h₁ h₂ rfl
  | function => exact chain_function hR hxy hyz hxz h₁ h₂ rfl
  | handler => exact chain_handler hR hxy hyz hxz h₁ h₂ rfl hb
  | task => exact chain_taskNode hR hxy hyz hxz h₁ h₂ rfl
  | continuation => exact chain_continuation hR hxy hyz hxz h₁ h₂ rfl hb
  | named => exact chain_named hxy hyz hxz h₁ h₂ rfl
  | nominal => exact chain_nominal hxy hyz hxz h₁ h₂ rfl
  | applied => exact chain_applied hR hxy hyz hxz h₁ h₂ rfl ha hb
  | trust => exact chain_trust hR hxy hyz hxz h₁ h₂ rfl
  | resourceHandle => exact chain_resourceHandle hR hxy hyz hxz h₁ h₂ rfl
  | schedulerHandle =>
    cases b with
    | schedulerHandle =>
      cases c with
      | schedulerHandle => exact trivial
      | _ => exact (hno₂ h₂).elim
    | _ => exact (hno₁ h₁).elim
  | enum | refined | prompt | promptPart | memoryPlace => exact (hno₁ h₁).elim
  | map | store | result =>
    cases b <;> first
      | exact (hno₁ h₁).elim
      | cases c <;> first
        | exact (hno₂ h₂).elim
        | exact chain_pair hR h₁ h₂
  | _ =>
    cases b <;> first
      | exact (hno₁ h₁).elim
      | cases c <;> first
        | exact (hno₂ h₂).elim
        | exact chain_task hR h₁ h₂

end

theorem Passes.of_component {l r : Ty} {goal : UnifyGoal} (h : Passes R goal)
    (hc : ComponentGoal l r goal) :
    Passes (fun t => R t ∧ t.lhs ∈ l.children ∧ t.rhs ∈ r.children) goal := by
  unfold Passes at h ⊢
  split at h
  · trivial
  · exact fun t ht => ⟨h t ht, hc t ht⟩
  · exact h.elim

/-- The task succeeds for a unifier without bindings. -/
def Unifies (store : TypeStore) (n : ℕ) (t : UnifyTask) : Prop :=
  ∃ u, unify store n (new.enter t) t.lhs t.rhs = some (.ok (), u)

/-- On ground types a call that succeeds binds nothing. -/
def BindsNothing (store : TypeStore) (n : ℕ) : Prop :=
  ∀ (t : UnifyTask) (u : Unifier), Ground store t.lhs → Ground store t.rhs →
    unify store n (new.enter t) t.lhs t.rhs = some (.ok (), u) → u = new.enter t

variable {tasks : List UnifyTask} {t : UnifyTask}

theorem runTasks_cons_iff
    {run : Unifier → TypeId → TypeId → Option (Except UnifyError Unit × Unifier)} {u u' : Unifier} :
    runTasks run u (t :: tasks) = some (.ok (), u') ↔
      ∃ w, run (u.enter t) t.lhs t.rhs = some (.ok (), w) ∧
        runTasks run (w.leave u) tasks = some (.ok (), u') := by
  rw [runTasks]
  rcases run (u.enter t) t.lhs t.rhs with _ | ⟨_ | ⟨⟨⟩⟩, w⟩ <;> simp

theorem unify_descend_iff {u u' : Unifier} {after : Option UnifyError}
    (hg : u.goal store lhs rhs = .descend tasks after) :
    unify store (n + 1) u lhs rhs = some (.ok (), u') ↔
      after = none ∧ runTasks (unify store n) u tasks = some (.ok (), u') := by
  rw [unify, hg]
  dsimp only
  rcases runTasks (unify store n) u tasks with _ | ⟨_ | ⟨⟨⟩⟩, w⟩
  · simp
  · simp
  · cases after <;> simp

theorem runTasks_ground (hn : BindsNothing store n) {s : UnifyTask}
    (hs : ∀ t ∈ tasks, Ground store t.lhs ∧ Ground store t.rhs) :
    runTasks (unify store n) (new.enter s) tasks = some (.ok (), u) ↔
      u = new.enter s ∧ ∀ t ∈ tasks, Unifies store n t := by
  induction tasks with
  | nil => simp [runTasks, eq_comm]
  | cons t tasks ih =>
    rw [List.forall_mem_cons] at hs ⊢
    rw [runTasks_cons_iff]
    constructor
    · rintro ⟨w, hcall, hrest⟩
      rw [hn t w hs.1.1 hs.1.2 hcall] at hrest
      obtain ⟨hu, htasks⟩ := (ih hs.2).mp hrest
      exact ⟨hu, ⟨w, hcall⟩, htasks⟩
    · rintro ⟨hu, ⟨w, hcall⟩, htasks⟩
      refine ⟨w, hcall, ?_⟩
      rw [hn t w hs.1.1 hs.1.2 hcall]
      exact (ih hs.2).mpr ⟨hu, htasks⟩

theorem unify_ground_succ (hn : BindsNothing store n) {l r : Ty}
    (hls : Ground store t.lhs) (hrs : Ground store t.rhs) (hl : store.get t.lhs = some l)
    (hr : store.get t.rhs = some r) :
    unify store (n + 1) (new.enter t) t.lhs t.rhs = some (.ok (), u) ↔
      u = new.enter t ∧ (t.lhs = t.rhs ∨
        Passes (Unifies store n) ((new.enter t).nodeGoal store t.lhs t.rhs l r)) := by
  obtain ⟨l', hl', hlvar⟩ := hls.node
  obtain ⟨r', hr', hrvar⟩ := hrs.node
  cases hl'.symm.trans hl
  cases hr'.symm.trans hr
  have hgoal := goal_of_not_var (u := new.enter t) rfl hl hr hlvar hrvar
  by_cases heq : t.lhs = t.rhs
  · rw [if_pos heq] at hgoal
    rw [unify, hgoal]
    simp [heq, eq_comm]
  · rw [if_neg heq] at hgoal
    have hc := nodeGoal_component store (new.enter t) t.lhs t.rhs l r
    cases hg : (new.enter t).nodeGoal store t.lhs t.rhs l r with
    | fail error => simp [unify, hgoal, hg, Passes, heq]
    | done => simp [unify, hgoal, hg, Passes, eq_comm]
    | remember | exact | bind => exact (hg ▸ hc :).elim
    | descend tasks after =>
      rw [hg] at hc hgoal
      have hground : ∀ t ∈ tasks, Ground store t.lhs ∧ Ground store t.rhs :=
        fun t ht => ⟨hls.child hl (hc t ht).1, hrs.child hr (hc t ht).2⟩
      rw [unify_descend_iff hgoal, runTasks_ground hn hground]
      cases after <;> simp [Passes, heq]

theorem bindsNothing (n : ℕ) : BindsNothing store n := by
  induction n with
  | zero =>
    intro t u _ _ h
    cases h
  | succ n ih =>
    intro t u hl hr h
    obtain ⟨l, hl', -⟩ := hl.node
    obtain ⟨r, hr', -⟩ := hr.node
    exact ((unify_ground_succ ih hl hr hl' hr').mp h).1

theorem unifies_succ_iff {l r : Ty} (hls : Ground store t.lhs)
    (hrs : Ground store t.rhs) (hl : store.get t.lhs = some l) (hr : store.get t.rhs = some r) :
    Unifies store (n + 1) t ↔ t.lhs = t.rhs ∨
      Passes (Unifies store n) ((new.enter t).nodeGoal store t.lhs t.rhs l r) := by
  rw [Unifies]
  simp only [unify_ground_succ (bindsNothing n) hls hrs hl hr, exists_eq_left]

variable {erasure contract : Bool}

theorem Unifies.trans (hx : Settled store x) (hy : Settled store y) (hz : Settled store z)
    (hxy : Unifies store n ⟨x, y, erasure, contract⟩)
    (hyz : Unifies store n ⟨y, z, erasure, contract⟩) :
    Unifies store n ⟨x, z, erasure, contract⟩ := by
  induction n generalizing x y z erasure contract with
  | zero =>
    obtain ⟨u, h⟩ := hxy
    cases h
  | succ n ih =>
    obtain ⟨a, ha, haset⟩ := hx.node
    obtain ⟨b, hb, hbset⟩ := hy.node
    obtain ⟨c, hc, -⟩ := hz.node
    by_cases hexy : x = y
    · subst hexy
      exact hyz
    by_cases heyz : y = z
    · subst heyz
      exact hxy
    by_cases hexz : x = z
    · exact (unifies_succ_iff hx.ground hz.ground ha hc).mpr (Or.inl hexz)
    refine (unifies_succ_iff hx.ground hz.ground ha hc).mpr (Or.inr ?_)
    have h₁ := ((unifies_succ_iff hx.ground hy.ground ha hb).mp hxy).resolve_left hexy
    have h₂ := ((unifies_succ_iff hy.ground hz.ground hb hc).mp hyz).resolve_left heyz
    -- the tasks stay inside of the three types
    have h₁ := h₁.of_component (nodeGoal_component ..)
    have h₂ := h₂.of_component (nodeGoal_component ..)
    refine nodeGoal_chain ?_ hexy heyz hexz h₁ h₂ haset hbset
    rintro x' y' z' e c' ⟨hxy, hx', hy'⟩ ⟨hyz, -, hz'⟩
    exact ih (hx.child ha hx') (hy.child hb hy') (hz.child hc hz') hxy hyz

variable {x y : TypeId} (h : Unifies store n ⟨x, y, erasure, contract⟩)
include h

theorem Unifies.exists_named {name : NamedTypeRef} (hy : Settled store y)
    (hx : store.get x = some (.named name)) : ∃ other, store.get y = some (.named other) := by
  obtain ⟨t, hget, ht⟩ := hy.node
  have hset : Settled store x := .of_leaf hx rfl trivial
  cases n with
  | zero => obtain ⟨u, h⟩ := h; cases h
  | succ n =>
    rw [unifies_succ_iff hset.ground hy.ground hx hget] at h
    by_cases heq : x = y
    · subst heq
      exact ⟨name, hx⟩
    have h := h.resolve_left heq
    have hno := not_passes_mismatch (R := Unifies store n) heq
    cases t with
    | named other => exact ⟨other, hget⟩
    | _ => exact (hno h).elim

theorem Unifies.named_eq {name : NamedTypeRef} (hy : Settled store y)
    (hx : store.get x = some (.named name)) (hid : store.parameterIdentity x = none) :
    store.get y = some (.named name) := by
  obtain ⟨other, hother⟩ := h.exists_named hy hx
  have hset : Settled store x := .of_leaf hx rfl trivial
  cases n with
  | zero => obtain ⟨u, h⟩ := h; cases h
  | succ n =>
    rw [unifies_succ_iff hset.ground hy.ground hx hother] at h
    by_cases heq : x = y
    · subst heq
      exact hx
    have hsame : sameParameter store x y name other = true :=
      ((passes_ite heq).mp (h.resolve_left heq)).1
    rw [sameParameter, hid] at hsame
    cases hy : store.parameterIdentity y with
    | some _ => simp [hy] at hsame
    | none =>
      rw [hy] at hsame
      rw [hother, beq_iff_eq.mp hsame]

theorem Unifies.never
    (hx : Settled store x) (hy : store.get y = some (.primitive .never)) :
    store.get x = some (.primitive .never) := by
  obtain ⟨t, hget, ht⟩ := hx.node
  have hset : Settled store y := .of_leaf hy rfl trivial
  cases n with
  | zero => obtain ⟨u, h⟩ := h; cases h
  | succ n =>
    rw [unifies_succ_iff hx.ground hset.ground hget hy] at h
    by_cases heq : x = y
    · subst heq
      exact hy
    have h := h.resolve_left heq
    have hno := not_passes_mismatch (R := Unifies store n) heq
    cases t with
    | primitive p =>
      obtain ⟨rfl, -⟩ := (passes_ite heq).mp h
      exact hget
    | integerLiteral => exact ht.elim
    | resourceHandle handle => cases handle <;> exact (hno h).elim
    | _ => exact (hno h).elim

theorem Unifies.support
    (hx : Settled store x) (hy : Settled store y) :
    (isIndexInput store y = true → isIndexInput store x = true) ∧
      (isLengthInput store y = true → isLengthInput store x = true) := by
  obtain ⟨s, hs, hsset⟩ := hx.node
  obtain ⟨t, ht, htset⟩ := hy.node
  cases n with
  | zero => obtain ⟨u, h⟩ := h; cases h
  | succ n =>
    rw [unifies_succ_iff hx.ground hy.ground hs ht] at h
    by_cases heq : x = y
    · subst heq
      exact ⟨id, id⟩
    have h := h.resolve_left heq
    have hno := not_passes_mismatch (R := Unifies store n) heq
    unfold isIndexInput isLengthInput
    rw [hs, ht]
    cases t with
    | primitive p =>
      cases s with
      | primitive q =>
        obtain ⟨rfl, -⟩ := (passes_ite heq).mp h
        exact ⟨id, id⟩
      | integerLiteral => exact hsset.elim
      | resourceHandle handle => cases handle <;> exact (hno h).elim
      | _ => exact (hno h).elim
    | integerLiteral => exact htset.elim
    | array | list | slice | map =>
      refine ⟨by simp, fun _ => ?_⟩
      cases s with
      | array | list | slice | map => rfl
      | resourceHandle handle => cases handle <;> exact (hno h).elim
      | _ => exact (hno h).elim
    | _ => exact ⟨by simp, by simp⟩

end Unifier

open Unifier

theorem TypeRelation.assignable_iff :
    (TypeRelation.new store).assignable n lhs rhs = some (.ok ()) ↔
      store.get lhs = some (.primitive .never) ∨ supportConstraintAssignable store lhs rhs = true ∨
        Unifies store n ⟨lhs, rhs, true, false⟩ := by
  unfold TypeRelation.assignable TypeRelation.new Unifies
  by_cases hnever : store.get lhs = some (.primitive .never)
  · simp [hnever]
  by_cases hsupport : supportConstraintAssignable store lhs rhs = true
  · simp [hsupport]
  · simp only [hnever, if_false, hsupport, false_or, Bool.false_eq_true]
    change Option.map Prod.fst (unify store n (Unifier.new.enter ⟨lhs, rhs, true, false⟩) lhs rhs) =
      _ ↔ _
    cases unify store n (Unifier.new.enter ⟨lhs, rhs, true, false⟩) lhs rhs <;>
      simp [Prod.ext_iff]

theorem not_supportConstraintAssignable (hn : ∀ name, store.get rhs ≠ some (.named name)) :
    ¬ supportConstraintAssignable store lhs rhs = true := by
  unfold supportConstraintAssignable
  split
  · exact (hn _ ‹_›).elim
  · exact Bool.false_ne_true

/-- Between settled types assignability composes, unless it ends in a named parameter: only such a
type is assignable from the types of a support constraint. -/
theorem TypeRelation.assignable_trans (hx : Settled store x) (hy : Settled store y)
    (hz : Settled store z) (hn : ∀ name, store.get z ≠ some (.named name))
    (hxy : (TypeRelation.new store).assignable n x y = some (.ok ()))
    (hyz : (TypeRelation.new store).assignable n y z = some (.ok ())) :
    (TypeRelation.new store).assignable n x z = some (.ok ()) := by
  rw [assignable_iff] at hxy hyz ⊢
  rcases hxy with hnever | hsupport | hxy
  · exact Or.inl hnever
  · -- the type in the middle is named, so it is assignable to named types only
    obtain ⟨name, hname⟩ : ∃ name, store.get y = some (.named name) := by
      by_contra hno
      exact not_supportConstraintAssignable (not_exists.mp hno) hsupport
    rcases hyz with hnever | hsupport' | hyz
    · cases hname.symm.trans hnever
    · exact (not_supportConstraintAssignable hn hsupport').elim
    · exact (hyz.exists_named hz hname).elim fun other h => (hn other h).elim
  · rcases hyz with hnever | hsupport' | hyz
    · exact Or.inl (hxy.never hx hnever)
    · exact (not_supportConstraintAssignable hn hsupport').elim
    · exact Or.inr (Or.inr (hxy.trans hx hy hz hyz))

theorem supportConstraintAssignable_iff :
    supportConstraintAssignable store lhs rhs = true ↔
      ∃ name, store.get rhs = some (.named name) ∧
        (name.name = "Index" ∧ isIndexInput store lhs = true ∨
          (name.name = "LengthInput" ∨ name.name = "EmptinessInput") ∧
            isLengthInput store lhs = true) := by
  unfold supportConstraintAssignable isEmptinessInput
  split
  next name hname =>
    simp only [hname, Option.some.injEq, Ty.named.injEq, exists_eq_left']
    split_ifs with hindex hlength hempty
    · simp [hindex]
    · simp [hlength]
    · simp [hempty]
    · simp [hindex, hlength, hempty]
  next hnone =>
    refine iff_of_false Bool.false_ne_true ?_
    rintro ⟨name, hname, -⟩
    exact hnone name hname

/-- A type with the name of a support constraint is no generic parameter. -/
def ProperSupport (store : TypeStore) (ty : TypeId) : Prop :=
  ∀ name, store.get ty = some (.named name) →
    name.name = "Index" ∨ name.name = "LengthInput" ∨ name.name = "EmptinessInput" →
      store.parameterIdentity ty = none

/-- Between settled types assignability composes, through a named type too when that is a generic
parameter or a support constraint and not both. -/
theorem TypeRelation.assignable_trans_proper (hx : Settled store x) (hy : Settled store y)
    (hz : Settled store z) (hp : ProperSupport store y)
    (hxy : (TypeRelation.new store).assignable n x y = some (.ok ()))
    (hyz : (TypeRelation.new store).assignable n y z = some (.ok ())) :
    (TypeRelation.new store).assignable n x z = some (.ok ()) := by
  rw [assignable_iff, supportConstraintAssignable_iff] at hxy hyz ⊢
  rcases hxy with hnever | ⟨name, hname, hinput⟩ | hxy
  · exact Or.inl hnever
  · have hid : store.parameterIdentity y = none := by
      refine hp name hname ?_
      rcases hinput with ⟨hindex, -⟩ | ⟨hlength, -⟩
      · exact Or.inl hindex
      · exact Or.inr hlength
    rcases hyz with hnever | ⟨other, -, hinput'⟩ | hyz
    · cases hname.symm.trans hnever
    · simp [isIndexInput, isLengthInput, hname] at hinput'
    · exact Or.inr (Or.inl ⟨name, hyz.named_eq hz hname hid, hinput⟩)
  · rcases hyz with hnever | ⟨name, hname, hinput⟩ | hyz
    · exact Or.inl (hxy.never hx hnever)
    · obtain ⟨hindex, hlength⟩ := hxy.support hx hy
      refine Or.inr (Or.inl ⟨name, hname, ?_⟩)
      exact hinput.imp (And.imp_right hindex) (And.imp_right hlength)
    · exact Or.inr (Or.inr (hxy.trans hx hy hz hyz))

end EtasFrontend.Types
