import EtasFrontend.Types.UnifierStep

/-! A unifier that borrows its known bindings against one that owns a copy of them. The two give
the same answers, and the delta of the first is what the second has bound on its own. -/
namespace EtasFrontend.Types
open Lib

namespace Unifier

variable {store : TypeStore} {known : Substitution} {u w : Unifier}

/-! The arms read the flags of a unifier and nothing of its bindings. -/

section
variable (hr : u.readOnlyErasure = w.readOnlyErasure)
  (hd : u.definitionContract = w.definitionContract)
include hr hd

private theorem task_congr : u.task = w.task := by
  funext lhs rhs
  unfold task
  rw [hr, hd]

private theorem fieldTasks_congr : u.fieldTasks = w.fieldTasks := by
  funext rhs fields
  induction fields with
  | nil => rfl
  | cons field rest ih =>
    unfold fieldTasks
    rw [ih, task_congr hr hd]

theorem nodeGoal_congr : u.nodeGoal = w.nodeGoal := by
  have hfields := fieldTasks_congr hr hd
  obtain ⟨_, _, erasure, contract, _, _⟩ := u
  obtain ⟨_, _, _, _, _, _⟩ := w
  cases hr
  cases hd
  funext store lhs rhs l r
  unfold nodeGoal
  rw [hfields]
  rfl

theorem resolvedGoal_congr : u.resolvedGoal = w.resolvedGoal := by
  funext store lhs rhs
  unfold resolvedGoal
  rw [nodeGoal_congr hr hd]

end

/-- `u` borrows `known`, `w` owns a copy of it, and both have made the same bindings since. -/
structure Layered (known : Substitution) (u w : Unifier) : Prop where
  borrowed : u.known = some known
  owned : w.known = none
  lookup : u.lookup = w.lookup
  fresh : ∀ v, known.get v = none ∨ u.substitution.get v = none
  count : u.bindingCount = w.bindingCount
  readOnlyErasure : u.readOnlyErasure = w.readOnlyErasure
  definitionContract : u.definitionContract = w.definitionContract
  patternParameters : u.patternParameters = w.patternParameters
  parameterBindings : u.parameterBindings = w.parameterBindings

theorem layered_known (known : Substitution) :
    Layered known (withKnownSubstitution known) (withSubstitution known) where
  borrowed := rfl
  owned := rfl
  lookup := by
    funext v
    exact Option.or_none.symm
  fresh _ := Or.inr rfl
  count := Nat.zero_add _
  readOnlyErasure := rfl
  definitionContract := rfl
  patternParameters := rfl
  parameterBindings := rfl

namespace Layered

variable (h : Layered known u w)
include h

theorem union (v : TypeVarId) : (known.extend u.substitution).get v = w.substitution.get v := by
  have hv := congrFun h.lookup v
  unfold Unifier.lookup at hv
  rw [h.borrowed, h.owned] at hv
  rw [Substitution.get_extend]
  simpa using hv

theorem resolve_eq (ty : TypeId) : u.resolve store ty = w.resolve store ty := by
  unfold resolve
  rw [h.lookup, h.count]

theorem occurs_eq (v : TypeVarId) (n : ℕ) : u.occurs store v n = w.occurs store v n := by
  induction n with
  | zero => rfl
  | succ n ih =>
    funext ty
    unfold occurs
    rw [h.resolve_eq, ih]

theorem goal_eq (store : TypeStore) (lhs rhs : TypeId) :
    u.goal store lhs rhs = w.goal store lhs rhs := by
  unfold goal
  rw [h.resolve_eq, h.resolve_eq, h.patternParameters, h.parameterBindings,
    resolvedGoal_congr h.readOnlyErasure h.definitionContract]

theorem insert {v : TypeVarId} (hv : u.lookup v = none) (ty : TypeId) :
    Layered known { u with substitution := u.substitution.insert v ty }
      { w with substitution := w.substitution.insert v ty } := by
  have hw : w.lookup v = none := h.lookup ▸ hv
  have hu := Option.or_eq_none_iff.mp hv
  have hw' := Option.or_eq_none_iff.mp hw
  have hnew : ∀ {s : Substitution}, s.get v = none →
      (s.insert v ty).vars.keys.length = s.vars.keys.length + 1 := by
    intro s hs
    have hmem : v ∉ s.vars := AList.lookup_eq_none.mp hs
    change (AList.insert v ty s.vars).keys.length = _
    rw [AList.keys_insert, List.length_cons, List.erase_of_not_mem hmem]
  refine { h with lookup := ?_, fresh := ?_, count := ?_ }
  · funext v'
    rw [lookup_insert, lookup_insert, h.lookup]
  · intro v'
    rcases h.fresh v' with hk | hk
    · exact Or.inl hk
    · by_cases he : v' = v
      · subst he
        have : known.get v' = none := by simpa [h.borrowed] using hu.2
        exact Or.inl this
      · right
        rw [Substitution.get_insert, if_neg he, hk]
  · have hcount := h.count
    unfold bindingCount at hcount ⊢
    simp only [hnew hu.1, hnew hw'.1]
    omega

theorem remember (parameter ty : TypeId) :
    Layered known { u with parameterBindings := u.parameterBindings.insert parameter ty }
      { w with parameterBindings := w.parameterBindings.insert parameter ty } :=
  { h with parameterBindings := by rw [h.parameterBindings] }

theorem enter (t : UnifyTask) : Layered known (u.enter t) (w.enter t) :=
  { h with readOnlyErasure := rfl, definitionContract := rfl }

theorem leave {u' w' : Unifier} (h' : Layered known u' w') :
    Layered known (u'.leave u) (w'.leave w) :=
  { h' with
    readOnlyErasure := h.readOnlyErasure
    definitionContract := h.definitionContract }

end Layered

/-- The same answer, from unifiers that stay related. -/
def Agree (known : Substitution) (a b : Except UnifyError Unit × Unifier) : Prop :=
  a.1 = b.1 ∧ Layered known a.2 b.2

private theorem bind_layered (h : Layered known u w) {v : TypeVarId} (hv : u.lookup v = none)
    (n : ℕ) (ty : TypeId) :
    Option.Rel (Agree known) (u.bind store n v ty) (w.bind store n v ty) := by
  unfold bind
  rw [h.occurs_eq]
  cases w.occurs store v n ty with
  | none => exact .none
  | some found =>
    cases found with
    | true => exact .some ⟨rfl, h⟩
    | false => exact .some ⟨rfl, h.insert hv ty⟩

private theorem runTasks_layered
    {run : Unifier → TypeId → TypeId → Option (Except UnifyError Unit × Unifier)}
    (hrun : ∀ {u w}, Layered known u w → ∀ lhs rhs,
      Option.Rel (Agree known) (run u lhs rhs) (run w lhs rhs))
    (h : Layered known u w) (tasks : List UnifyTask) :
    Option.Rel (Agree known) (runTasks run u tasks) (runTasks run w tasks) := by
  induction tasks generalizing u w with
  | nil => exact .some ⟨rfl, h⟩
  | cons t ts ih =>
    unfold runTasks
    have hcall := hrun (h.enter t) t.lhs t.rhs
    generalize run (u.enter t) t.lhs t.rhs = a at hcall
    generalize run (w.enter t) t.lhs t.rhs = b at hcall
    cases hcall with
    | none => exact .none
    | @some a b hab =>
      obtain ⟨result, u'⟩ := a
      obtain ⟨result', w'⟩ := b
      obtain ⟨hresult, hlayers⟩ := hab
      cases hresult
      cases result with
      | error e => exact .some ⟨rfl, h.leave hlayers⟩
      | ok _ => exact ih (h.leave hlayers)

theorem unify_layered (store : TypeStore) (h : Layered known u w) (n : ℕ) (lhs rhs : TypeId) :
    Option.Rel (Agree known) (unify store n u lhs rhs) (unify store n w lhs rhs) := by
  induction n generalizing u w lhs rhs with
  | zero => exact .none
  | succ n ih =>
    unfold unify
    have hgoal := h.goal_eq store lhs rhs
    cases hg : u.goal store lhs rhs with
    | fail e =>
      rw [← hgoal, hg]
      exact .some ⟨rfl, h⟩
    | done =>
      rw [← hgoal, hg]
      exact .some ⟨rfl, h⟩
    | remember parameter ty =>
      rw [← hgoal, hg]
      exact .some ⟨rfl, h.remember parameter ty⟩
    | exact previous ty =>
      rw [← hgoal, hg]
      -- the unifier of a parameter starts with nothing bound on either side
      dsimp only
      cases unify store n exactUnifier previous ty with
      | none => exact .none
      | some r => exact .some ⟨rfl, h⟩
    | bind v ty =>
      rw [← hgoal, hg]
      exact bind_layered h (lookup_of_goal_bind hg).1 n ty
    | descend tasks after =>
      rw [← hgoal, hg]
      have hrun := runTasks_layered (fun h lhs rhs => ih h lhs rhs) h tasks
      dsimp only
      generalize runTasks (unify store n) u tasks = a at hrun
      generalize runTasks (unify store n) w tasks = b at hrun
      cases hrun with
      | none => exact .none
      | @some a b hab =>
        obtain ⟨result, u'⟩ := a
        obtain ⟨result', w'⟩ := b
        obtain ⟨hresult, hlayers⟩ := hab
        cases hresult
        cases result with
        | error e => exact .some ⟨rfl, hlayers⟩
        | ok _ =>
          cases after with
          | none => exact .some ⟨rfl, hlayers⟩
          | some e => exact .some ⟨rfl, hlayers⟩

/-- The results of the calls of a caller that goes on with the same unifier, also after a call that
failed. `none` when the recursion bound was too small for one of them. -/
def unifyAll (store : TypeStore) (n : ℕ) :
    Unifier → List (TypeId × TypeId) → Option (List (Except UnifyError Unit) × Unifier)
  | u, [] => some ([], u)
  | u, (lhs, rhs) :: calls =>
    match unify store n u lhs rhs with
    | none => none
    | some (result, u) =>
      match unifyAll store n u calls with
      | none => none
      | some (results, u) => some (result :: results, u)

private theorem unifyAll_layered (store : TypeStore) (h : Layered known u w) (n : ℕ)
    (calls : List (TypeId × TypeId)) :
    Option.Rel (fun a b => a.1 = b.1 ∧ Layered known a.2 b.2)
      (unifyAll store n u calls) (unifyAll store n w calls) := by
  induction calls generalizing u w with
  | nil => exact .some ⟨rfl, h⟩
  | cons call calls ih =>
    unfold unifyAll
    have hcall := unify_layered store h n call.1 call.2
    generalize unify store n u call.1 call.2 = a at hcall
    generalize unify store n w call.1 call.2 = b at hcall
    cases hcall with
    | none => exact .none
    | @some a b hab =>
      have hrest := ih hab.2
      dsimp only
      generalize unifyAll store n a.2 calls = c at hrest
      generalize unifyAll store n b.2 calls = d at hrest
      cases hrest with
      | none => exact .none
      | some hcd => exact .some ⟨congrArg₂ List.cons hab.1 hcd.1, hcd.2⟩

/-- `borrowed` ends with the results of `owned` and with the part of its bindings that `known`
lacks. -/
structure IsDelta (known : Substitution)
    (borrowed owned : List (Except UnifyError Unit) × Unifier) : Prop where
  results : borrowed.1 = owned.1
  union : ∀ v, (known.extend borrowed.2.substitution).get v = owned.2.substitution.get v
  disjoint : ∀ v, known.get v = none ∨ borrowed.2.substitution.get v = none

/-- A unifier over borrowed bindings answers every sequence of calls as one that copied them, within
the same recursion bound, and its delta is what the copy has in addition. -/
theorem unifyAll_withKnownSubstitution (store : TypeStore) (known : Substitution) (n : ℕ)
    (calls : List (TypeId × TypeId)) :
    Option.Rel (IsDelta known) (unifyAll store n (withKnownSubstitution known) calls)
      (unifyAll store n (withSubstitution known) calls) := by
  have h := unifyAll_layered store (layered_known known) n calls
  generalize unifyAll store n (withKnownSubstitution known) calls = a at h
  generalize unifyAll store n (withSubstitution known) calls = b at h
  cases h with
  | none => exact .none
  | some hab => exact .some ⟨hab.1, hab.2.union, hab.2.fresh⟩

end Unifier
end EtasFrontend.Types
