import EtasFrontend.Alias.Solver

/-! What the constraints ask for, and the inclusion solver as their least solution. -/
namespace EtasFrontend.Alias
open Lib

/-- The projection of what a variable may denote. -/
def AliasSet.project (set : AliasSet) (projection : Projection) (config : AliasPrecisionConfig) :
    AliasSet :=
  (AliasValue.project ⟨set, none⟩ projection config).may

theorem AliasValue.project_may (value : AliasValue) (projection : Projection)
    (config : AliasPrecisionConfig) :
    (value.project projection config).may = value.may.project projection config := by
  unfold AliasSet.project AliasValue.project
  cases value.may with
  | bottom => rfl
  | unknown => rfl
  | known places =>
    dsimp only
    split
    · rfl
    split <;> rfl

def AliasConstraint.isCall : AliasConstraint → Bool
  | .call .. => true
  | _ => false

/-- The constraint holds of what the variables may denote. -/
def Satisfies (config : AliasPrecisionConfig) (may : AliasVar → AliasSet) : AliasConstraint → Prop
  | .addrOf dst target => .known {target} ≤ may dst
  | .copy dst src | .load dst src | .store dst src => may src ≤ may dst
  | .project dst base projection => (may base).project projection config ≤ may dst
  | .call dst _ _ _ => ∀ var ∈ dst, may var = .unknown

/-- The variables may denote what they are seeded with. -/
def Seeded (seeds : List (AliasVar × AliasValue)) (may : AliasVar → AliasSet) : Prop :=
  ∀ entry ∈ seeds, entry.2.may ≤ may entry.1

def AliasSolution.may (solution : AliasSolution) (var : AliasVar) : AliasSet :=
  (solution.value var).may

theorem getD_joinEntry (values : Map AliasVar AliasValue) (var other : AliasVar)
    (value : AliasValue) (limit : ℕ) :
    ((joinEntry values var value limit).get other).getD .bottom =
      if other = var then ((values.get other).getD .bottom).joinWithLimit value limit
      else (values.get other).getD .bottom := by
  rw [joinEntry, Map.get_insert]
  split
  case isTrue heq => rw [heq]; rfl
  case isFalse => rfl

namespace Inclusion
variable {config : AliasPrecisionConfig} {state : State} {constraints : List AliasConstraint}

theorem value_joinVar (state : State) (var other : AliasVar) (new : AliasValue) :
    value (joinVar config state var new).1 other =
      if other = var then (value state other).joinWithLimit new config.maxAliasSetSize
      else value state other :=
  getD_joinEntry ..

theorem joinVar_unchanged {var : AliasVar} {new : AliasValue}
    (h : (joinVar config state var new).2 = false) :
    new.may ≤ (value state var).may ∧
      ∀ other, value (joinVar config state var new).1 other = value state other := by
  have hsame : (value state var).joinWithLimit new config.maxAliasSetSize = value state var := by
    simpa [joinVar] using h
  constructor
  · rw [← hsame]
    exact AliasSet.le_join_right ..
  · intro other
    rw [value_joinVar]
    split
    case isTrue heq => rw [heq, hsame]
    case isFalse => rfl

theorem applyConstraint_unchanged {constraint : AliasConstraint}
    (h : (applyConstraint config state constraint).2 = false) :
    Satisfies config (fun var => (value state var).may) constraint ∧
      ∀ var, value (applyConstraint config state constraint).1 var = value state var := by
  cases constraint with
  | addrOf dst target => exact joinVar_unchanged h
  | copy dst src => exact joinVar_unchanged h
  | load dst src => exact joinVar_unchanged h
  | store dst src => exact joinVar_unchanged h
  | project dst base projection =>
    obtain ⟨hle, hsame⟩ := joinVar_unchanged h
    rw [AliasValue.project_may] at hle
    exact ⟨hle, hsame⟩
  | call dst callee args site =>
    cases dst with
    | none => exact ⟨nofun, fun _ => rfl⟩
    | some dst =>
      obtain ⟨hle, hsame⟩ := joinVar_unchanged h
      refine ⟨fun var hvar => ?_, hsame⟩
      obtain rfl := Option.some.inj hvar
      exact AliasSet.unknown_le_iff.mp hle

theorem foldl_step_unchanged {progress : State × Bool}
    (h : (constraints.foldl (step config) progress).2 = false) :
    progress.2 = false ∧
      (∀ constraint ∈ constraints,
        Satisfies config (fun var => (value progress.1 var).may) constraint) ∧
      ∀ var, value (constraints.foldl (step config) progress).1 var = value progress.1 var := by
  induction constraints generalizing progress with
  | nil => exact ⟨h, List.forall_mem_nil _, fun _ => rfl⟩
  | cons constraint constraints ih =>
    rw [List.foldl_cons] at h ⊢
    obtain ⟨hchanged, hsat, hsame⟩ := ih h
    obtain ⟨hbefore, hnow⟩ := Bool.or_eq_false_iff.mp hchanged
    obtain ⟨hfirst, hvalue⟩ := applyConstraint_unchanged hnow
    have hstep : ∀ var, value (step config progress constraint).1 var = value progress.1 var :=
      hvalue
    simp only [hstep] at hsat hsame
    exact ⟨hbefore, List.forall_mem_cons.mpr ⟨hfirst, hsat⟩, hsame⟩

theorem passes_complete {n : ℕ} (h : (passes config constraints n state).incomplete = false) :
    ∃ last, (pass config constraints last).2 = false ∧
      passes config constraints n state = (pass config constraints last).1 := by
  induction n generalizing state with
  | zero => cases h
  | succ n ih =>
    rw [passes] at h ⊢
    cases hpass : pass config constraints state with
    | mk next changed =>
      rw [hpass] at h
      cases changed with
      | true => exact ih h
      | false =>
        dsimp only at h ⊢
        rw [if_neg Bool.false_ne_true] at h ⊢
        split at h
        · cases h
        · exact ⟨state, by rw [hpass], by rw [hpass, if_neg ‹_›]⟩

variable {seeds : List (AliasVar × AliasValue)}

theorem solve_satisfies (h : (solve config seeds constraints).incomplete = false) :
    ∀ constraint ∈ constraints, Satisfies config (solve config seeds constraints).may constraint := by
  obtain ⟨last, hlast, hsolve⟩ := passes_complete h
  obtain ⟨-, hsat, hsame⟩ := foldl_step_unchanged hlast
  have hmay : (solve config seeds constraints).may = fun var => (value last var).may := by
    funext var
    exact congrArg AliasValue.may ((congrArg (value · var) hsolve).trans (hsame var))
  rwa [hmay]

/-! What holds of the values at the start and through every join holds at the end. -/

section Invariant
variable {P : (AliasVar → AliasValue) → Prop} {seeds : List (AliasVar × AliasValue)}

theorem foldl_step_keeps {progress : State × Bool}
    (hP : ∀ state, P (value state) → ∀ constraint ∈ constraints,
      P (value (applyConstraint config state constraint).1)) (h : P (value progress.1)) :
    P (value (constraints.foldl (step config) progress).1) := by
  induction constraints generalizing progress with
  | nil => exact h
  | cons constraint constraints ih =>
    rw [List.foldl_cons]
    exact ih (fun state h constraint hmem => hP state h constraint (List.mem_cons_of_mem _ hmem))
      (hP progress.1 h constraint List.mem_cons_self)

theorem passes_keeps {n : ℕ}
    (hP : ∀ state, P (value state) → ∀ constraint ∈ constraints,
      P (value (applyConstraint config state constraint).1)) (h : P (value state)) :
    P (value (passes config constraints n state)) := by
  induction n generalizing state with
  | zero => exact h
  | succ n ih =>
    have hnext : P (value (pass config constraints state).1) := foldl_step_keeps hP h
    rw [passes]
    dsimp only
    split
    · exact ih hnext
    split
    · exact hnext
    · exact hnext

end Invariant

theorem le_value_joinVar (state : State) (var other : AliasVar) (new : AliasValue) :
    (value state other).may ≤ (value (joinVar config state var new).1 other).may := by
  rw [value_joinVar]
  split
  · exact AliasSet.le_join_left ..
  · exact le_refl _

theorem le_value_applyConstraint (state : State) (constraint : AliasConstraint)
    (var : AliasVar) :
    (value state var).may ≤ (value (applyConstraint config state constraint).1 var).may := by
  cases constraint with
  | call dst callee args site =>
    cases dst with
    | none => exact le_refl _
    | some dst => exact le_value_joinVar { state with incomplete := true } dst var _
  | _ => exact le_value_joinVar ..

theorem le_value_passes (state : State) (n : ℕ) (var : AliasVar) :
    (value state var).may ≤ (value (passes config constraints n state) var).may :=
  passes_keeps (P := fun values => (value state var).may ≤ (values var).may)
    (fun next h constraint _ => h.trans (le_value_applyConstraint next constraint var)) (le_refl _)

variable (config) in
theorem seed_value (state : State) (entry : AliasVar × AliasValue) :
    entry.2.may ≤ (value (seed config state entry) entry.1).may ∧
      ∀ var, (value state var).may ≤ (value (seed config state entry) var).may := by
  refine ⟨?_, fun var => le_value_joinVar state entry.1 var entry.2⟩
  rw [seed, value_joinVar, if_pos rfl]
  exact AliasSet.le_join_right ..

variable (config) in
theorem foldl_seed_value (state : State) (seeds : List (AliasVar × AliasValue)) :
    (∀ entry ∈ seeds, entry.2.may ≤ (value (seeds.foldl (seed config) state) entry.1).may) ∧
      ∀ var, (value state var).may ≤ (value (seeds.foldl (seed config) state) var).may := by
  induction seeds generalizing state with
  | nil => exact ⟨List.forall_mem_nil _, fun _ => le_refl _⟩
  | cons first seeds ih =>
    obtain ⟨hrest, hgrow⟩ := ih (seed config state first)
    obtain ⟨hfirst, hstep⟩ := seed_value config state first
    exact ⟨List.forall_mem_cons.mpr ⟨hfirst.trans (hgrow _), hrest⟩,
      fun var => (hstep var).trans (hgrow var)⟩

theorem solve_seeded (seeds : List (AliasVar × AliasValue)) :
    Seeded seeds (solve config seeds constraints).may := by
  intro entry hentry
  have hseeds := (foldl_seed_value config ⟨∅, false⟩ seeds).1 entry hentry
  exact hseeds.trans (le_value_passes _ _ _)

theorem solve_le {may : AliasVar → AliasSet}
    (hwithin : ∀ var, (may var).Within config.maxAliasSetSize) (hseeds : Seeded seeds may)
    (hsat : ∀ constraint ∈ constraints, Satisfies config may constraint) (var : AliasVar) :
    (solve config seeds constraints).may var ≤ may var := by
  have hjoin : ∀ state : State, (∀ var, (value state var).may ≤ may var) → ∀ {dst : AliasVar}
      {new : AliasValue}, new.may ≤ may dst →
      ∀ var, (value (joinVar config state dst new).1 var).may ≤ may var := by
    intro state h dst new hnew var
    rw [value_joinVar]
    split
    case isTrue heq =>
      rw [heq, AliasValue.joinWithLimit_may]
      exact AliasSet.join_le (hwithin dst) (h dst) hnew
    case isFalse => exact h var
  have hstart : ∀ state : State, (∀ var, (value state var).may ≤ may var) →
      ∀ var, (value (seeds.foldl (seed config) state) var).may ≤ may var := by
    induction seeds with
    | nil => exact fun state h => h
    | cons first seeds ih =>
      exact fun state h => ih (fun entry hentry => hseeds entry (List.mem_cons_of_mem _ hentry))
        _ (hjoin state h (hseeds first List.mem_cons_self))
  refine passes_keeps (P := fun values => ∀ var, (values var).may ≤ may var) ?_
    (hstart ⟨∅, false⟩ fun var => AliasSet.bottom_le _) var
  intro state h constraint hmem
  have hc := hsat constraint hmem
  cases constraint with
  | addrOf dst target => exact hjoin state h hc
  | copy dst src => exact hjoin state h ((h src).trans hc)
  | load dst src => exact hjoin state h ((h src).trans hc)
  | store dst src => exact hjoin state h ((h src).trans hc)
  | project dst base projection =>
    refine hjoin state h (le_trans ?_ hc)
    have hproject : (value state base).may ≤ (⟨may base, none⟩ : AliasValue).may := h base
    exact AliasValue.project_le hproject
  | call dst callee args site =>
    cases dst with
    | none => exact h
    | some dst =>
      refine hjoin { state with incomplete := true } h ?_
      rw [hc dst rfl]
      exact AliasSet.le_unknown _

/-! A call leaves the solution incomplete. -/

theorem applyConstraint_incomplete (state : State) (constraint : AliasConstraint) :
    (applyConstraint config state constraint).1.incomplete =
      (state.incomplete || constraint.isCall) := by
  cases constraint with
  | call dst =>
    rw [AliasConstraint.isCall, Bool.or_true]
    cases dst <;> rfl
  | _ => exact (Bool.or_false _).symm

theorem foldl_step_incomplete (progress : State × Bool) :
    (constraints.foldl (step config) progress).1.incomplete =
      (progress.1.incomplete || constraints.any (·.isCall)) := by
  induction constraints generalizing progress with
  | nil => exact (Bool.or_false _).symm
  | cons constraint constraints ih =>
    have hstep : (step config progress constraint).1.incomplete =
      (progress.1.incomplete || constraint.isCall) := applyConstraint_incomplete ..
    rw [List.foldl_cons, ih, hstep, List.any_cons, Bool.or_assoc]

theorem solve_incomplete (h : constraints.any (·.isCall) = true) :
    (solve config seeds constraints).incomplete = true := by
  have hpasses (n : ℕ) (state : State) :
      (passes config constraints n state).incomplete = true := by
    induction n generalizing state with
    | zero => rfl
    | succ n ih =>
      have hpass : (pass config constraints state).1.incomplete = true := by
        rw [pass, foldl_step_incomplete, h, Bool.or_true]
      rw [passes]
      dsimp only
      split
      · exact ih _
      split
      · rfl
      · exact hpass
  exact hpasses _ _

end Inclusion
end EtasFrontend.Alias
