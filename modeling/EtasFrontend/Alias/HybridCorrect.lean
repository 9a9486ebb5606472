import EtasFrontend.Alias.Flows

/-! The hybrid solver gives each constraint to one of the others. The variables of the two parts are
apart. -/
namespace EtasFrontend.Alias
open Lib

theorem Satisfies.congr {config : AliasPrecisionConfig} {may may' : AliasVar → AliasSet}
    {constraint : AliasConstraint} (h : Satisfies config may constraint)
    (heq : ∀ x ∈ Hybrid.constraintVars constraint, may x = may' x) :
    Satisfies config may' constraint := by
  have hpair {dst src : AliasVar} (heq : ∀ x ∈ [dst, src], may x = may' x) :
      may dst = may' dst ∧ may src = may' src :=
    ⟨heq dst List.mem_cons_self, heq src (List.mem_cons_of_mem _ List.mem_cons_self)⟩
  cases constraint with
  | addrOf dst target =>
    rw [Satisfies, ← heq dst List.mem_cons_self]
    exact h
  | copy dst src =>
    rw [Satisfies, ← (hpair heq).1, ← (hpair heq).2]
    exact h
  | load dst src =>
    rw [Satisfies, ← (hpair heq).1, ← (hpair heq).2]
    exact h
  | store dst src =>
    rw [Satisfies, ← (hpair heq).1, ← (hpair heq).2]
    exact h
  | project dst base projection =>
    rw [Satisfies, ← (hpair heq).1, ← (hpair heq).2]
    exact h
  | call dst callee args site =>
    intro var hvar
    rw [← heq var (List.mem_append_left _ (Option.mem_toList.mpr hvar))]
    exact h var hvar

namespace Hybrid
variable {config : AliasPrecisionConfig} {constraints : List AliasConstraint}
  {vars : Finset AliasVar}

theorem subset_step (vars : Finset AliasVar) (constraint : AliasConstraint) :
    vars ⊆ propagateStep config vars constraint := by
  unfold propagateStep
  split
  · exact Finset.subset_union_left
  · exact subset_rfl

theorem subset_pass (constraints : List AliasConstraint) (vars : Finset AliasVar) :
    vars ⊆ propagatePass config constraints vars := by
  induction constraints generalizing vars with
  | nil => exact subset_rfl
  | cons constraint constraints ih => exact (subset_step vars constraint).trans (ih _)

theorem pass_subset (constraints : List AliasConstraint) (vars : Finset AliasVar) :
    propagatePass config constraints vars ⊆
      vars ∪ (constraints.flatMap constraintVars).toFinset := by
  induction constraints generalizing vars with
  | nil => exact Finset.subset_union_left
  | cons constraint constraints ih =>
    refine (ih (propagateStep config vars constraint)).trans ?_
    rw [List.flatMap_cons, List.toFinset_append, propagateStep]
    split
    · rw [Finset.union_assoc]
    · exact Finset.union_subset_union_right Finset.subset_union_right

theorem closed_of_pass_eq (h : propagatePass config constraints vars = vars) :
    ∀ constraint ∈ constraints, touchesInclusion config vars constraint = true →
      ∀ x ∈ constraintVars constraint, x ∈ vars := by
  induction constraints with
  | nil => exact List.forall_mem_nil _
  | cons first constraints ih =>
    have hpass : propagatePass config constraints (propagateStep config vars first) = vars := h
    have hfirst : propagateStep config vars first = vars :=
      ((subset_pass constraints _).trans hpass.subset).antisymm (subset_step vars first)
    rw [hfirst] at hpass
    refine List.forall_mem_cons.mpr ⟨fun htouch x hx => ?_, ih hpass⟩
    rw [propagateStep, if_pos htouch] at hfirst
    rw [← hfirst]
    exact Finset.mem_union_right _ (List.mem_toFinset.mpr hx)

theorem propagate_eq {n : ℕ}
    (hn : ((constraints.flatMap constraintVars).toFinset \ vars).card < n) :
    ∃ final, propagate config constraints n vars = some final ∧
      propagatePass config constraints final = final := by
  induction n generalizing vars with
  | zero => exact absurd hn (Nat.not_lt_zero _)
  | succ n ih =>
    rw [propagate]
    split
    case isTrue heq => exact ⟨vars, rfl, heq⟩
    case isFalse hne =>
      refine ih (Nat.lt_of_lt_of_le (Finset.card_lt_card ?_) (Nat.le_of_lt_succ hn))
      have hsub : vars ⊆ propagatePass config constraints vars := subset_pass constraints vars
      obtain ⟨x, hx, hnot⟩ := Finset.exists_of_ssubset (hsub.ssubset_of_ne (Ne.symm hne))
      refine ⟨Finset.sdiff_subset_sdiff subset_rfl hsub, fun hback => ?_⟩
      have hall : x ∈ (constraints.flatMap constraintVars).toFinset :=
        (Finset.mem_union.mp (pass_subset constraints vars hx)).resolve_left hnot
      exact (Finset.mem_sdiff.mp (hback (Finset.mem_sdiff.mpr ⟨hall, hnot⟩))).2 hx

variable (config) in
theorem propagateInclusionVars_eq (constraints : List AliasConstraint) (vars : Finset AliasVar) :
    ∃ final, propagateInclusionVars config constraints vars = some final ∧
      propagatePass config constraints final = final :=
  propagate_eq (Nat.lt_succ_of_le ((Finset.card_le_card Finset.sdiff_subset).trans
    (List.toFinset_card_le _)))

/-- The variables of the constraints that the inclusion solver takes and those of the others. -/
structure Apart (uses : AliasConstraint → Bool) (region : AliasVar → Prop)
    (constraints : List AliasConstraint) : Prop where
  inside : ∀ constraint ∈ constraints, uses constraint = true →
    ∀ x ∈ constraintVars constraint, region x
  outside : ∀ constraint ∈ constraints, uses constraint = false →
    ∀ x ∈ constraintVars constraint, ¬region x

theorem exists_apart (h : propagatePass config constraints vars = vars) :
    ∃ region, Apart (usesInclusion config vars) region constraints := by
  unfold usesInclusion
  cases config.constraintModel with
  | inclusionBased =>
    exact ⟨fun _ => True, fun _ _ _ _ _ => trivial, fun _ _ h => absurd h.symm Bool.false_ne_true⟩
  | unificationBased =>
    exact ⟨fun _ => False, fun _ _ h => absurd h Bool.false_ne_true, fun _ _ _ _ _ => id⟩
  | hybrid preUnifyLocals =>
    cases preUnifyLocals with
    | false =>
      exact ⟨fun _ => True, fun _ _ _ _ _ => trivial, fun _ _ h => absurd h.symm Bool.false_ne_true⟩
    | true =>
      refine ⟨(· ∈ vars), closed_of_pass_eq h, fun constraint _ htouch x hx hmem => ?_⟩
      have hany : (constraintVars constraint).any (decide <| · ∈ vars) = true :=
        List.any_eq_true.mpr ⟨x, hx, decide_eq_true hmem⟩
      simp [touchesInclusion, hany] at htouch

theorem may_joinOne (values : Map AliasVar AliasValue) (entry : AliasVar × AliasValue)
    (x : AliasVar) :
    (((joinOne config values entry).get x).getD .bottom).may =
      if x = entry.1 then
        ((values.get x).getD .bottom).may.joinWithLimit entry.2.may config.maxAliasSetSize
      else ((values.get x).getD .bottom).may := by
  rw [joinOne, getD_joinEntry]
  split <;> rfl

theorem may_foldl_joinOne {entries : List (AliasVar × AliasValue)}
    (hnodup : (entries.map Prod.fst).Nodup) (values : Map AliasVar AliasValue) (x : AliasVar) :
    (((entries.foldl (joinOne config) values).get x).getD .bottom).may =
      ((values.get x).getD .bottom).may.joinWithLimit
        (((entries.find? (·.1 = x)).map Prod.snd).getD .bottom).may config.maxAliasSetSize := by
  induction entries generalizing values with
  | nil => exact (AliasSet.join_bottom _).symm
  | cons entry entries ih =>
    rw [List.map_cons, List.nodup_cons] at hnodup
    rw [List.foldl_cons, ih hnodup.2, may_joinOne, List.find?_cons]
    by_cases hx : x = entry.1
    · have hnone : entries.find? (·.1 = x) = none := by
        rw [List.find?_eq_none]
        intro other hother heq
        apply hnodup.1
        rw [← hx, ← of_decide_eq_true heq]
        exact List.mem_map_of_mem hother
      rw [if_pos hx, hnone, hx, decide_eq_true rfl]
      exact AliasSet.join_bottom _
    · rw [if_neg hx, decide_eq_false (Ne.symm hx)]

theorem may_joinValues (values other : Map AliasVar AliasValue) (x : AliasVar) :
    (((joinValues config values other).get x).getD .bottom).may =
      ((values.get x).getD .bottom).may.joinWithLimit ((other.get x).getD .bottom).may
        config.maxAliasSetSize := by
  have hnodup : (other.toList.map Prod.fst).Nodup := by
    have hkeys : other.toList.map Prod.fst = other.keys := by
      simp [Map.toList, AList.keys, List.keys, Function.comp_def]
    rw [hkeys]
    exact other.keys_nodup
  have hfind : (other.toList.find? (·.1 = x)).map Prod.snd = other.get x := by
    cases hget : other.get x with
    | none =>
      rw [Option.map_eq_none_iff, List.find?_eq_none]
      intro entry hentry heq
      rw [← of_decide_eq_true heq, Map.mem_toList.mp hentry] at hget
      cases hget
    | some value =>
      have hmem : (x, value) ∈ other.toList := Map.mem_toList.mpr hget
      cases hfound : other.toList.find? (·.1 = x) with
      | none =>
        rw [List.find?_eq_none] at hfound
        exact absurd (decide_eq_true rfl) (hfound _ hmem)
      | some entry =>
        have hprop := List.find?_some hfound
        have hx : entry.1 = x := of_decide_eq_true hprop
        have hentry : (entry.1, entry.2) ∈ other.toList := List.mem_of_find?_eq_some hfound
        rw [hx] at hentry
        rw [Map.mem_toList.mp hentry] at hget
        exact hget
  rw [joinValues, may_foldl_joinOne hnodup, hfind]

/-- The solver always answers, with the sets of both parts put together. -/
theorem solve_eq (config : AliasPrecisionConfig) (le : AliasVar → AliasVar → Bool)
    (seeds : List (AliasVar × AliasValue)) (constraints : List AliasConstraint) :
    ∃ uses region solution, Apart uses region constraints ∧
      solve config le seeds constraints = some solution ∧
      (∀ x, solution.may x =
        AliasSet.joinWithLimit ((Inclusion.solve config seeds (constraints.filter uses)).may x)
          ((Classes.run config le seeds (constraints.filter (!uses ·))).may x)
          config.maxAliasSetSize) ∧
      solution.incomplete =
        ((Inclusion.solve config seeds (constraints.filter uses)).incomplete ||
          (constraints.filter (!uses ·)).any (·.isCall)) := by
  obtain ⟨vars, hvars, hpass⟩ :=
    propagateInclusionVars_eq config constraints (seedVars config seeds)
  obtain ⟨region, apart⟩ := exists_apart hpass
  obtain ⟨unification, hsolve, hmay, hincomplete⟩ := Unification.solve_eq config le seeds
    (constraints.filter (!usesInclusion config vars ·))
  let inclusion := Inclusion.solve config seeds (constraints.filter (usesInclusion config vars))
  refine ⟨usesInclusion config vars, region,
    ⟨joinValues config inclusion.values unification.values,
      inclusion.incomplete || unification.incomplete⟩, apart, ?_, fun x => ?_, ?_⟩
  · rw [solve, hvars, Option.bind_eq_bind, Option.bind_some]
    dsimp only
    rw [hsolve]
    rfl
  · rw [← hmay]
    exact may_joinValues inclusion.values unification.values x
  · dsimp only
    rw [hincomplete]

end Hybrid
end EtasFrontend.Alias
