import EtasFrontend.Types.UnifierOccurs

/-! One call of `unify`: what it can do, what it leaves alone, and the bindings it asks for.
Every statement about a whole call follows from `unify_step` and an induction on the rounds. -/
namespace EtasFrontend.Types
open Lib Relation

variable {store : TypeStore}

namespace Unifier

/-! The shape of the goals. -/

/-- What the arms for two nodes can ask for: recursive calls on components of `l` and `r`. -/
def ComponentGoal (l r : Ty) : UnifyGoal → Prop
  | .fail _ | .done => True
  | .descend tasks _ => ∀ t ∈ tasks, t.lhs ∈ l.children ∧ t.rhs ∈ r.children
  | .remember .. | .exact .. | .bind .. => False

variable {u : Unifier} {t : UnifyTask}

theorem mem_zipTasks {as bs : List TypeId} (h : t ∈ u.zipTasks as bs) :
    t.lhs ∈ as ∧ t.rhs ∈ bs := by
  unfold zipTasks at h
  rw [← List.map_uncurry_zip_eq_zipWith] at h
  obtain ⟨⟨a, b⟩, hab, rfl⟩ := List.mem_map.mp h
  exact List.of_mem_zip hab

theorem mem_fieldTasks {as bs : List FieldType} (h : t ∈ (u.fieldTasks bs as).1) :
    t.lhs ∈ as.map FieldType.ty ∧ t.rhs ∈ bs.map FieldType.ty := by
  induction as with
  | nil => cases h
  | cons a as ih =>
    unfold fieldTasks at h
    split at h
    next => cases h
    next other hfind =>
      rcases List.mem_cons.mp h with rfl | h
      · exact ⟨List.mem_cons_self, List.mem_map_of_mem (List.mem_of_find?_eq_some hfind)⟩
      · exact ⟨List.mem_cons_of_mem _ (ih h).1, (ih h).2⟩

theorem mem_optionTasks {a b : Option TypeId} (h : t ∈ u.optionTasks a b) :
    t.lhs ∈ a.toList ∧ t.rhs ∈ b.toList := by
  cases a <;> cases b <;> simp [optionTasks] at h
  subst h
  simp [task]

private theorem componentGoal_ite {l r : Ty} {p : Prop} [Decidable p] {g g' : UnifyGoal}
    (h : ComponentGoal l r g) (h' : ComponentGoal l r g') :
    ComponentGoal l r (if p then g else g') := by
  split_ifs
  · exact h
  · exact h'

theorem nodeGoal_component (store : TypeStore) (u : Unifier) (lhs rhs : TypeId) (l r : Ty) :
    ComponentGoal l r (u.nodeGoal store lhs rhs l r) := by
  have hother : ComponentGoal l r (if lhs = rhs then .done else .fail (.mismatch lhs rhs)) :=
    componentGoal_ite trivial trivial
  have hzip {w : Unifier} {as bs : List TypeId} (ha : as ⊆ l.children) (hb : bs ⊆ r.children) :
      ∀ t ∈ w.zipTasks as bs, t.lhs ∈ l.children ∧ t.rhs ∈ r.children :=
    fun t ht => ⟨ha (mem_zipTasks ht).1, hb (mem_zipTasks ht).2⟩
  cases l with
  | existential left =>
    cases r with
    | existential right =>
      refine componentGoal_ite (fun t ht => ?_) hother
      obtain ⟨⟨a, b⟩, hab, ht⟩ := List.mem_flatMap.mp ht
      obtain ⟨ha, hb⟩ := List.of_mem_zip hab
      obtain ⟨hl, hr⟩ := mem_zipTasks ht
      exact ⟨List.mem_flatMap.mpr ⟨a, ha, hl⟩, List.mem_flatMap.mpr ⟨b, hb, hr⟩⟩
    | _ => exact hother
  | record a =>
    cases r with
    | record b => exact componentGoal_ite (fun t ht => mem_fieldTasks ht) hother
    | _ => exact hother
  | function a =>
    cases r with
    | function b =>
      refine componentGoal_ite (componentGoal_ite trivial fun t ht => ?_) hother
      rcases List.mem_append.mp ht with ht | ht
      · obtain ⟨hl, hr⟩ := mem_zipTasks ht
        simp [Ty.children, Ty.constructorRefs, Ty.refs, hl, hr]
      · cases List.mem_singleton.mp ht
        simp [Ty.children, Ty.constructorRefs, Ty.refs, task]
    | _ => exact hother
  | handler a =>
    cases r with
    | handler b =>
      refine componentGoal_ite (fun t ht => ?_) hother
      obtain ⟨hl, hr⟩ := mem_optionTasks ht
      simp [Ty.children, Ty.constructorRefs, Ty.refs, hl, hr]
    | _ => exact hother
  | continuation a =>
    cases r with
    | continuation b =>
      refine componentGoal_ite (fun t ht => ?_) hother
      rcases List.mem_cons.mp ht with rfl | ht
      · exact ⟨List.mem_cons_self, List.mem_cons_self⟩
      · obtain ⟨hl, hr⟩ := mem_optionTasks ht
        exact ⟨List.mem_cons_of_mem _ (List.mem_append_left _ hl),
          List.mem_cons_of_mem _ (List.mem_append_left _ hr)⟩
    | _ => exact hother
  | applied ac aa =>
    cases r with
    | nominal view => exact componentGoal_ite trivial hother
    | applied bc ba =>
      refine componentGoal_ite (fun t ht => ?_) hother
      rcases List.mem_cons.mp ht with rfl | ht
      · exact ⟨List.mem_cons_self, List.mem_cons_self⟩
      · exact hzip (List.subset_cons_self ..) (List.subset_cons_self ..) t ht
    | _ => exact hother
  | tuple a =>
    cases r with
    | tuple b => exact componentGoal_ite (hzip (List.Subset.refl _) (List.Subset.refl _)) hother
    | _ => exact hother
  | resourceHandle a =>
    cases r with
    | resourceHandle b =>
      cases a <;> cases b <;> first
        | exact hother
        | exact componentGoal_ite (hzip (List.Subset.refl _) (List.Subset.refl _)) hother
        | simp [nodeGoal, ComponentGoal, task, Ty.children, Ty.constructorRefs, Ty.refs]
    | _ => cases a <;> exact hother
  | _ =>
    -- the remaining arms compare the nodes alone or have one or two fixed components
    cases r <;> first
      | exact hother
      | exact componentGoal_ite trivial hother
      | exact componentGoal_ite (by simp [ComponentGoal, task, Ty.children, Ty.constructorRefs,
          Ty.refs]) hother
      | simp [nodeGoal, ComponentGoal, task, Ty.children, Ty.constructorRefs, Ty.refs]

variable {v : TypeVarId}

theorem Resolved.lookup_eq_none {lookup : TypeVarId → Option TypeId} {a : TypeId}
    (h : Resolved store lookup a) (hv : store.get a = some (.var v)) : lookup v = none := by
  by_contra hne
  obtain ⟨b, hb⟩ := Option.ne_none_iff_exists'.mp hne
  exact h b ⟨v, hv, hb⟩

/-- How a call comes to its goal. -/
inductive GoalStep (store : TypeStore) (u : Unifier) (lhs rhs : TypeId) : UnifyGoal → Prop
  | fail (error : UnifyError) : GoalStep store u lhs rhs (.fail error)
  | done {a b : TypeId} (hl : ResolvesTo store u.lookup lhs a)
      (hr : ResolvesTo store u.lookup rhs b)
      (h : a = b ∨ ∃ l r, store.get a = some l ∧ store.get b = some r ∧
        u.nodeGoal store a b l r = .done) : GoalStep store u lhs rhs .done
  | remember {parameters : List TypeId} {parameter ty : TypeId}
      (hp : u.patternParameters = some parameters) : GoalStep store u lhs rhs (.remember parameter ty)
  | exact {parameters : List TypeId} {previous ty : TypeId}
      (hp : u.patternParameters = some parameters) : GoalStep store u lhs rhs (.exact previous ty)
  | bind {v : TypeVarId} {ty a b : TypeId} (hl : ResolvesTo store u.lookup lhs a)
      (hr : ResolvesTo store u.lookup rhs b)
      (hv : store.get a = some (.var v) ∧ ty = b ∨ store.get b = some (.var v) ∧ ty = a) :
      GoalStep store u lhs rhs (.bind v ty)
  | descend {a b : TypeId} {l r : Ty} {tasks : List UnifyTask} {after : Option UnifyError}
      (hl : ResolvesTo store u.lookup lhs a) (hr : ResolvesTo store u.lookup rhs b)
      (ha : store.get a = some l) (hb : store.get b = some r)
      (hg : u.nodeGoal store a b l r = .descend tasks after) :
      GoalStep store u lhs rhs (.descend tasks after)

theorem goal_step (store : TypeStore) (u : Unifier) (lhs rhs : TypeId) :
    GoalStep store u lhs rhs (u.goal store lhs rhs) := by
  unfold goal
  split
  next => exact .fail _
  next a hl =>
    replace hl := resolve_spec hl
    split
    next => exact .fail _
    next b hr =>
      replace hr := resolve_spec hr
      have hres : GoalStep store u lhs rhs (u.resolvedGoal store a b) := by
        unfold resolvedGoal
        split
        next v ha => exact .bind hl hr (Or.inl ⟨ha, rfl⟩)
        next v hb _ => exact .bind hl hr (Or.inr ⟨hb, rfl⟩)
        next l r _ _ ha hb =>
          have hc := nodeGoal_component store u a b l r
          cases hg : u.nodeGoal store a b l r with
          | fail e => exact .fail e
          | done => exact .done hl hr (Or.inr ⟨l, r, ha, hb, hg⟩)
          | descend tasks after => exact .descend hl hr ha hb hg
          | remember _ _ | exact _ _ | bind _ _ =>
            rw [hg] at hc
            exact hc.elim
        next =>
          split_ifs with hab
          · exact .done hl hr (Or.inl hab)
          · exact .fail _
      split
      next parameters hp =>
        split_ifs
        · split
          · exact .exact hp
          · exact .remember hp
        · exact .fail _
        · exact hres
      next =>
        split_ifs with hab
        · exact .done hl hr (Or.inl hab)
        · exact hres

theorem lookup_of_goal_bind {lhs rhs ty : TypeId} (h : u.goal store lhs rhs = .bind v ty) :
    u.lookup v = none ∧ ∃ a, store.get a = some (.var v) := by
  have hs := goal_step store u lhs rhs
  rw [h] at hs
  cases hs with
  | bind hl hr hv =>
    rcases hv with ⟨hv, -⟩ | ⟨hv, -⟩
    · exact ⟨Resolved.lookup_eq_none hl.2 hv, _, hv⟩
    · exact ⟨Resolved.lookup_eq_none hr.2 hv, _, hv⟩

variable {lhs rhs : TypeId} {tasks : List UnifyTask}

theorem path_of_goal_descend {after : Option UnifyError}
    (h : u.goal store lhs rhs = .descend tasks after) :
    ∀ t ∈ tasks, TransGen (Edge store u.lookup) lhs t.lhs := by
  have hs := goal_step store u lhs rhs
  rw [h] at hs
  cases hs with
  | @descend a b l r _ _ hl hr ha hb hg =>
    intro t ht
    have hc := nodeGoal_component store u a b l r
    rw [hg] at hc
    exact .tail' hl.reaches (Or.inl ⟨l, ha, (hc t ht).1⟩)

/-- What a call with a given bound does. -/
inductive UnifyStep (store : TypeStore) (n : ℕ) (u : Unifier) (lhs rhs : TypeId) :
    Except UnifyError Unit → Unifier → Prop
  | fail {error : UnifyError} (h : u.goal store lhs rhs = .fail error) :
      UnifyStep store n u lhs rhs (.error error) u
  | done (h : u.goal store lhs rhs = .done) : UnifyStep store n u lhs rhs (.ok ()) u
  | remember {parameter ty : TypeId} (h : u.goal store lhs rhs = .remember parameter ty) :
      UnifyStep store n u lhs rhs (.ok ())
        { u with parameterBindings := u.parameterBindings.insert parameter ty }
  | exact {previous ty : TypeId} {result : Except UnifyError Unit} {w : Unifier}
      (h : u.goal store lhs rhs = .exact previous ty)
      (hr : unify store n exactUnifier previous ty = some (result, w)) :
      UnifyStep store n u lhs rhs result u
  | bind {v : TypeVarId} {ty : TypeId} {result : Except UnifyError Unit} {u' : Unifier}
      (h : u.goal store lhs rhs = .bind v ty) (hr : u.bind store n v ty = some (result, u')) :
      UnifyStep store n u lhs rhs result u'
  | descend {tasks : List UnifyTask} {after : Option UnifyError}
      {inner result : Except UnifyError Unit} {u' : Unifier}
      (h : u.goal store lhs rhs = .descend tasks after)
      (hr : runTasks (unify store n) u tasks = some (inner, u'))
      (hok : result = .ok () → inner = .ok () ∧ after = none) :
      UnifyStep store n u lhs rhs result u'

variable {result : Except UnifyError Unit} {u u' : Unifier}

theorem unify_step {n : ℕ} (h : unify store (n + 1) u lhs rhs = some (result, u')) :
    UnifyStep store n u lhs rhs result u' := by
  unfold unify at h
  split at h
  next hg => cases h; exact .fail hg
  next hg => cases h; exact .done hg
  next hg => cases h; exact .remember hg
  next hg =>
    split at h
    next => cases h
    next hr => cases h; exact .exact hg hr
  next hg => exact .bind hg h
  next tasks after hg =>
    split at h
    next hr =>
      split at h
      · cases h; exact .descend hg hr fun _ => ⟨rfl, rfl⟩
      · cases h; exact .descend hg hr fun h => by cases h
    next hno => exact .descend hg h fun hok => absurd (hok ▸ h) (hno u')

/-! What a call leaves alone. -/

/-- The parts of a unifier that no call changes. -/
structure SameSetup (u u' : Unifier) : Prop where
  known : u'.known = u.known
  readOnlyErasure : u'.readOnlyErasure = u.readOnlyErasure
  definitionContract : u'.definitionContract = u.definitionContract
  patternParameters : u'.patternParameters = u.patternParameters

theorem SameSetup.refl (u : Unifier) : SameSetup u u := ⟨rfl, rfl, rfl, rfl⟩

theorem SameSetup.trans {u v w : Unifier} (h : SameSetup u v) (h' : SameSetup v w) :
    SameSetup u w :=
  ⟨h'.known.trans h.known, h'.readOnlyErasure.trans h.readOnlyErasure,
    h'.definitionContract.trans h.definitionContract, h'.patternParameters.trans h.patternParameters⟩

theorem SameSetup.leave (h : SameSetup (u.enter t) u') : SameSetup u (u'.leave u) :=
  ⟨h.known, rfl, rfl, h.patternParameters⟩

private theorem runTasks_sameSetup
    {run : Unifier → TypeId → TypeId → Option (Except UnifyError Unit × Unifier)}
    (hrun : ∀ {u l r result u'}, run u l r = some (result, u') → SameSetup u u')
    (h : runTasks run u tasks = some (result, u')) :
    SameSetup u u' := by
  induction tasks generalizing u with
  | nil => cases h; exact .refl _
  | cons t ts ih =>
    unfold runTasks at h
    split at h
    next => cases h
    next ht => cases h; exact (hrun ht).leave
    next ht => exact (hrun ht).leave.trans (ih h)

theorem bind_sameSetup {n : ℕ} {ty : TypeId} (h : u.bind store n v ty = some (result, u')) :
    SameSetup u u' := by
  unfold bind at h
  split at h
  next => cases h
  next => cases h; exact .refl _
  next => cases h; exact ⟨rfl, rfl, rfl, rfl⟩

theorem unify_sameSetup {n : ℕ} (h : unify store n u lhs rhs = some (result, u')) :
    SameSetup u u' := by
  induction n generalizing u u' lhs rhs result with
  | zero => cases h
  | succ n ih =>
    cases unify_step h with
    | fail _ | done _ | exact _ _ => exact .refl _
    | remember _ => exact ⟨rfl, rfl, rfl, rfl⟩
    | bind _ hr => exact bind_sameSetup hr
    | descend _ hr _ => exact runTasks_sameSetup ih hr

/-! More rounds do not change a result. -/

variable {x : Except UnifyError Unit × Unifier}

theorem runTasks_mono
    {run run' : Unifier → TypeId → TypeId → Option (Except UnifyError Unit × Unifier)}
    (hrun : ∀ {u l r x}, run u l r = some x → run' u l r = some x)
    (h : runTasks run u tasks = some x) :
    runTasks run' u tasks = some x := by
  induction tasks generalizing u with
  | nil => exact h
  | cons t ts ih =>
    unfold runTasks at h ⊢
    split at h
    next => cases h
    next ht => rw [hrun ht]; exact h
    next ht => rw [hrun ht]; exact ih h

theorem bind_mono {n m : ℕ} (hnm : n ≤ m) {ty : TypeId} (h : u.bind store n v ty = some x) :
    u.bind store m v ty = some x := by
  unfold bind at h ⊢
  split at h
  next => cases h
  next hocc => rw [occurs_mono hnm hocc]; exact h
  next hocc => rw [occurs_mono hnm hocc]; exact h

theorem unify_mono {n m : ℕ} (hnm : n ≤ m) (h : unify store n u lhs rhs = some x) :
    unify store m u lhs rhs = some x := by
  induction n generalizing m u lhs rhs x with
  | zero => cases h
  | succ n ih =>
    obtain ⟨m, rfl⟩ := Nat.exists_eq_add_of_le' (Nat.one_le_of_lt hnm)
    replace hnm : n ≤ m := Nat.le_of_succ_le_succ hnm
    unfold unify at h ⊢
    split at h
    next => exact h
    next => exact h
    next => exact h
    next =>
      split at h
      next => cases h
      next hr => rw [ih hnm hr]; exact h
    next => exact bind_mono hnm h
    next tasks after _ =>
      cases hr : runTasks (unify store n) u tasks with
      | none => rw [hr] at h; cases h
      | some y =>
        rw [hr] at h
        rw [runTasks_mono (ih hnm) hr]
        exact h

end Unifier
end EtasFrontend.Types
