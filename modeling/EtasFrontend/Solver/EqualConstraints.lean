import EtasFrontend.Lib.Hops
import EtasFrontend.Solver.SliceAccess

/-! Equality constraints: the substitutions they lead to, and the two ways in which the solver
follows the chains of variables in them. -/
namespace EtasFrontend.Solver
open Lib EtasFrontend.Types Unifier Relation

/-- The parts of the report that equality constraints read or fill in. -/
structure EqualityReport where
  substitutions : Substitution
  namedSubstitutions : Map String TypeId
  failures : List SolverFailure

namespace EqualityReport

def empty : EqualityReport := ⟨.empty, ∅, []⟩

def push (report : EqualityReport) (failure : SolverFailure) : EqualityReport :=
  { report with failures := report.failures ++ [failure] }

end EqualityReport

structure EqualConstraint where
  lhs : TypeId
  rhs : TypeId
  origin : Span

section
variable (store : TypeStore)

/-- The loop over named types. `resolve_substitution` is here the function of the accesses, word
for word. -/
def resolveKnownSubstitutionsLoop (report : EqualityReport) : ℕ → TypeId → TypeId
  | 0, current => current
  | n + 1, current =>
    match store.get current with
    | some (.named name) =>
      if (store.parameterIdentity current).isSome then current
      else
        match report.namedSubstitutions.get name.name with
        | none => current
        | some next =>
          if next = current then current
          else resolveKnownSubstitutionsLoop report n
            (resolveSubstitution store report.substitutions next)
    | _ => current

def resolveKnownSubstitutions (report : EqualityReport) (ty : TypeId) : TypeId :=
  resolveKnownSubstitutionsLoop store report 65 (resolveSubstitution store report.substitutions ty)

/-- The arm of `TypeConstraint::Equal`. `none` means that the recursion bound of the unifier was
too small. -/
def solveEqual (n : ℕ) (report : EqualityReport) (constraint : EqualConstraint) :
    Option EqualityReport :=
  let lhs := resolveKnownSubstitutions store report constraint.lhs
  let rhs := resolveKnownSubstitutions store report constraint.rhs
  match unify store n (withKnownSubstitution report.substitutions) lhs rhs with
  | none => none
  | some (.error _, _) => some (report.push
      ⟨.typeMismatch, constraint.origin, "type equality constraint could not be solved"⟩)
  | some (.ok (), unifier) =>
    some { report with substitutions := report.substitutions.extend unifier.substitution }

def solveEquals (n : ℕ) : EqualityReport → List EqualConstraint → Option EqualityReport
  | report, [] => some report
  | report, constraint :: constraints =>
    match solveEqual store n report constraint with
    | none => none
    | some report => solveEquals n report constraints

end

variable {store : TypeStore}

/-! What a call of the unifier does to the chains of variables. -/

variable {v : TypeVarId}

theorem attempts_resolved {u w : Unifier} {tasks : List UnifyTask} {ty : TypeId}
    (h : Attempts store u tasks w v ty) : Resolved store w.lookup ty := by
  induction h with
  | @bind u t _ _ _ h =>
    have hstep := goal_step store (u.enter t) t.lhs t.rhs
    rw [h] at hstep
    cases hstep with
    | bind hl hr hv =>
      rcases hv with ⟨-, rfl⟩ | ⟨-, rfl⟩
      · exact hr.2
      · exact hl.2
  | exact _ _ ih | descend _ _ ih | later _ _ ih => exact ih

variable {n : ℕ}

theorem get_ne_of_bind {u u' : Unifier} {ty : TypeId}
    (hres : Resolved store u.lookup ty) (h : u.bind store n v ty = some (.ok (), u')) :
    store.get ty ≠ some (.var v) := by
  intro hty
  have hnone := Resolved.lookup_eq_none hres hty
  have hresolve : u.resolve store ty = .ok ty := by
    simp [Unifier.resolve, resolveLoop, hty, hnone]
  unfold Unifier.bind at h
  cases n with
  | zero => cases h
  | succ n => simp [occurs, hresolve, hty] at h

theorem acyclic_binding_bound {lookup : TypeVarId → Option TypeId} {ty : TypeId}
    (ha : Acyclic (Binding store lookup)) (hres : Resolved store lookup ty)
    (hne : store.get ty ≠ some (.var v)) : Acyclic (Binding store (bound lookup v ty)) := by
  have hedge : ∀ {a b}, Binding store (bound lookup v ty) a b →
      Binding store lookup a b ∨ store.get a = some (.var v) ∧ b = ty := by
    rintro a b ⟨w, hw, hb⟩
    unfold bound at hb
    split_ifs at hb with h
    · subst h
      exact Or.inr ⟨hw, (Option.some.inj hb).symm⟩
    · exact Or.inl ⟨w, hw, hb⟩
  -- a chain ends at the new type
  have hend : ∀ b, ¬ Binding store (bound lookup v ty) ty b := by
    intro b hb
    rcases hedge hb with h | ⟨h, -⟩
    · exact hres b h
    · exact hne h
  have hpath : ∀ {a b}, TransGen (Binding store (bound lookup v ty)) a b →
      TransGen (Binding store lookup) a b ∨ b = ty := by
    intro a b h
    induction h with
    | single h =>
      rcases hedge h with h | ⟨-, rfl⟩
      · exact Or.inl (.single h)
      · exact Or.inr rfl
    | tail _ h ih =>
      rcases ih with ih | rfl
      · rcases hedge h with h | ⟨-, rfl⟩
        · exact Or.inl (ih.tail h)
        · exact Or.inr rfl
      · exact absurd h (hend _)
  intro a h
  rcases hpath h with h' | rfl
  · exact ha a h'
  · obtain ⟨b, hb, -⟩ := TransGen.head'_iff.mp h
    exact hend b hb

theorem unify_acyclic_binding {u u' : Unifier} {lhs rhs : TypeId}
    {result : Except UnifyError Unit} (ha : Acyclic (Binding store u.lookup))
    (h : unify store n u lhs rhs = some (result, u')) : Acyclic (Binding store u'.lookup) := by
  refine unify_invariant (I := fun lookup => Acyclic (Binding store lookup)) ?_ h ha
  intro w v ty m w' hat hw hbind
  have hres := attempts_resolved hat
  rw [lookup_of_bind hbind]
  exact acyclic_binding_bound hw hres (get_ne_of_bind hres hbind)

/-! The states of the solver. -/

/-- Invariant of the constraints: chains of variables end, and no generic name is bound. -/
structure Chained (store : TypeStore) (report : EqualityReport) : Prop where
  acyclic : Acyclic (Binding store report.substitutions.get)
  unnamed : ∀ name, report.namedSubstitutions.get name = none

theorem chained_empty (store : TypeStore) : Chained store .empty where
  acyclic := by
    intro a h
    obtain ⟨_, ⟨_, _, hv⟩, -⟩ := TransGen.head'_iff.mp h
    cases hv
  unnamed _ := rfl

theorem solveEqual_chained {report report' : EqualityReport} {constraint : EqualConstraint}
    (hc : Chained store report) (h : solveEqual store n report constraint = some report') :
    Chained store report' := by
  unfold solveEqual at h
  dsimp only at h
  split at h
  · cases h
  · cases h
    exact ⟨hc.acyclic, hc.unnamed⟩
  · next u hu =>
    cases h
    refine ⟨?_, hc.unnamed⟩
    have hknown := (unify_sameSetup hu).known
    have hget : (report.substitutions.extend u.substitution).get = u.lookup := by
      rw [← combined_get]
      unfold combined
      rw [hknown]
      rfl
    change Acyclic (Binding store (report.substitutions.extend u.substitution).get)
    rw [hget]
    exact unify_acyclic_binding (u := withKnownSubstitution report.substitutions) hc.acyclic hu

theorem solveEquals_chained {report report' : EqualityReport}
    {constraints : List EqualConstraint} (hc : Chained store report)
    (h : solveEquals store n report constraints = some report') : Chained store report' := by
  induction constraints generalizing report with
  | nil => cases h; exact hc
  | cons constraint constraints ih =>
    unfold solveEquals at h
    split at h
    · cases h
    · next hr => exact ih (solveEqual_chained hc hr) h

/-! The two followers of chains. -/

theorem hops_resolveSubstitutionLoop {substitutions : Substitution}
    (ha : Acyclic (Binding store substitutions.get)) (n : ℕ) {k : ℕ} {ty b : TypeId}
    (hk : Hops (Binding store substitutions.get) k ty b)
    (hb : Resolved store substitutions.get b) :
    Hops (Binding store substitutions.get) (min k n) ty
      (resolveSubstitutionLoop store substitutions n ty) := by
  induction n generalizing k ty with
  | zero =>
    rw [Nat.min_zero]
    exact .zero ty
  | succ n ih =>
    unfold resolveSubstitutionLoop
    cases hk with
    | zero =>
      rw [Nat.zero_min]
      split
      · next var hty =>
        rw [Resolved.lookup_eq_none hb hty]
        exact .zero b
      · exact .zero b
    | @step k _ next _ h hs =>
      have hne : next ≠ ty := by
        rintro rfl
        exact ha next (.single h)
      obtain ⟨var, hty, hnext⟩ := id h
      rw [hty]
      dsimp only
      rw [hnext]
      dsimp only
      rw [if_neg hne, Nat.succ_min_succ]
      exact .step h (ih hs)

theorem resolveKnownSubstitutions_eq {report : EqualityReport} (hc : Chained store report)
    (ty : TypeId) :
    resolveKnownSubstitutions store report ty =
      resolveSubstitution store report.substitutions ty := by
  unfold resolveKnownSubstitutions resolveKnownSubstitutionsLoop
  split
  · next name _ =>
    split_ifs
    · rfl
    · rw [hc.unnamed]
  · rfl

/-- After any list of equality constraints the chain of bindings of a type ends, after `k` steps
at `b`. The unifier resolves the type to `b`; `resolve_substitution` stops after 65 steps, so it
agrees exactly on the chains of at most that length, and `resolve_known_substitutions` adds
nothing to it. -/
theorem solveEquals_resolve {constraints : List EqualConstraint} {report : EqualityReport}
    (h : solveEquals store n .empty constraints = some report) (ty : TypeId) :
    ∃ k b, Hops (Binding store report.substitutions.get) k ty b ∧
      Resolved store report.substitutions.get b ∧
      (withSubstitution report.substitutions).resolve store ty = .ok b ∧
      Hops (Binding store report.substitutions.get) (min k 65) ty
        (resolveSubstitution store report.substitutions ty) ∧
      (resolveSubstitution store report.substitutions ty = b ↔ k ≤ 65) ∧
      resolveKnownSubstitutions store report ty =
        resolveSubstitution store report.substitutions ty := by
  have hc := solveEquals_chained (chained_empty store) h
  have hlookup : (withSubstitution report.substitutions).lookup = report.substitutions.get := by
    funext v
    exact Option.or_none
  obtain ⟨b, hres⟩ := resolve_ok_of_binding (u := withSubstitution report.substitutions)
    (hlookup ▸ hc.acyclic) ty
  have hto := resolve_spec hres
  rw [hlookup] at hto
  have hunique : ∀ a b c, Binding store report.substitutions.get a b →
      Binding store report.substitutions.get a c → b = c := fun _ _ _ => Binding.unique
  obtain ⟨k, hk⟩ := Hops.of_reflTransGen hto.1
  have hhops := hops_resolveSubstitutionLoop hc.acyclic 65 hk hto.2
  refine ⟨k, b, hk, hto.2, hres, hhops, ⟨fun he => ?_, fun hle => ?_⟩,
    resolveKnownSubstitutions_eq hc ty⟩
  · have hend : Hops (Binding store report.substitutions.get) (min k 65) ty b := he ▸ hhops
    have := hend.le_of_end hunique hto.2 hk
    omega
  · rw [Nat.min_eq_left hle] at hhops
    exact hhops.unique hunique hk

/-- 67 variables, and the constraints that bind each to the next. -/
def chainStore : TypeStore := { TypeStore.new with types := (List.range 67).map .var }

def chainConstraints : List EqualConstraint :=
  (List.range 66).map fun i => ⟨i, i + 1, ⟨0, 0, 0⟩⟩

/-- The cap is met, and entries of the map point at bound variables. -/
theorem solveEquals_chain_passes_cap :
    ∃ report, solveEquals chainStore 2 .empty chainConstraints = some report ∧
      (withSubstitution report.substitutions).resolve chainStore 0 = .ok 66 ∧
      resolveSubstitution chainStore report.substitutions 0 = 65 ∧
      report.substitutions.get 0 = some 1 ∧ chainStore.get 1 = some (.var 1) ∧
      report.substitutions.get 1 = some 2 :=
  ⟨_, rfl, rfl, rfl, rfl, rfl, rfl⟩

theorem solveEquals_resolve_five :
    ∃ report, solveEquals chainStore 2 .empty (chainConstraints.take 5) = some report ∧
      ∃ k b, Hops (Binding chainStore report.substitutions.get) k 0 b ∧
        Resolved chainStore report.substitutions.get b ∧
        (withSubstitution report.substitutions).resolve chainStore 0 = .ok b ∧
        (resolveSubstitution chainStore report.substitutions 0 = b ↔ k ≤ 65) ∧
        resolveSubstitution chainStore report.substitutions 0 = 5 := by
  have hrun : solveEquals chainStore 2 .empty (chainConstraints.take 5) = some _ := rfl
  obtain ⟨k, b, hk, hb, hres, -, hcap, -⟩ := solveEquals_resolve hrun 0
  exact ⟨_, hrun, k, b, hk, hb, hres, hcap, rfl⟩

end EtasFrontend.Solver
