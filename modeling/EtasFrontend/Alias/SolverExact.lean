import EtasFrontend.Alias.HybridCorrect
import Mathlib.Order.Bounds.Defs

/-! The solvers of alias constraints side by side: the unification solver reads each projection once,
so what comes to its base later has to be there by other means. -/
namespace EtasFrontend.Alias
open Lib

variable {config : AliasPrecisionConfig} {le : AliasVar → AliasVar → Bool}
  {seeds : List (AliasVar × AliasValue)} {constraints : List AliasConstraint}

/-- What comes to the base of a projection only through constraints after it is, projected, at the
target in some other way. -/
def Settled (config : AliasPrecisionConfig) (seeds : List (AliasVar × AliasValue))
    (constraints : List AliasConstraint) : Prop :=
  ∀ before dst base projection after,
    constraints = before ++ .project dst base projection :: after →
      ∀ item, Arrives config seeds constraints base item → ¬Arrives config seeds before base item →
        Arrives config seeds constraints dst (item.project config projection)

theorem Settled.project (h : Settled config seeds constraints)
    {before after : List AliasConstraint} {dst base : AliasVar} {projection : Projection}
    (hsplit : constraints = before ++ .project dst base projection :: after) {item : Item}
    (hitem : Arrives config seeds constraints base item) :
    Arrives config seeds constraints dst (item.project config projection) := by
  by_cases hbefore : Arrives config seeds before base item
  · exact .project hsplit hbefore (.refl dst)
  · exact h before dst base projection after hsplit item hitem hbefore

theorem run_satisfies_iff (hlimit : WithinLimit config seeds constraints) :
    (∀ constraint ∈ constraints,
      Satisfies config (Classes.run config le seeds constraints).may constraint) ↔
      Settled config seeds constraints := by
  have has {x : AliasVar} {item : Item} (h : Arrives config seeds constraints x item) :
      ((Classes.run config le seeds constraints).may x).Has item := Classes.has_of_arrives hlimit h
  constructor
  · intro h before dst base projection after hsplit item hitem _
    have hmem : AliasConstraint.project dst base projection ∈ constraints := by
      rw [hsplit]
      exact List.mem_append_right _ List.mem_cons_self
    have hle : ((Classes.run config le seeds constraints).may base).project projection config ≤
        (Classes.run config le seeds constraints).may dst := h _ hmem
    exact Classes.arrives_of_has
      (AliasSet.le_iff_has.mp hle _ (AliasSet.has_project_of_has (has hitem)))
  · intro h constraint hmem
    have hcopied {dst src : AliasVar} (hcopied : constraint.copied = some (dst, src)) :
        (Classes.run config le seeds constraints).may src ≤
          (Classes.run config le seeds constraints).may dst := by
      have hlink : Linked constraints dst src := .rel _ _ ⟨constraint, hmem, hcopied⟩
      rw [Classes.run_uniform _ _ (Classes.root_eq_of_linked hlink)]
    cases constraint with
    | addrOf dst target =>
      exact AliasSet.le_iff_has.mpr fun item hitem => has (.addrOf hmem hitem (.refl dst))
    | copy dst src => exact hcopied rfl
    | load dst src => exact hcopied rfl
    | store dst src => exact hcopied rfl
    | project dst base projection =>
      obtain ⟨before, after, hsplit⟩ := List.append_of_mem hmem
      refine AliasSet.le_iff_has.mpr fun item hitem => ?_
      refine AliasSet.has_project (AliasSet.saturated (Classes.run_within hlimit dst)) ?_ hitem
      exact fun item hbase => has (h.project hsplit (Classes.arrives_of_has hbase))
    | call dst callee args site =>
      intro var hvar
      obtain rfl : dst = some var := hvar
      exact AliasSet.has_everything.mp (has (.call hmem (.refl var)))

/-! The part of the constraints that the unification solver of the hybrid one takes. -/

section Part
variable {uses : AliasConstraint → Bool} {region : AliasVar → Prop}

theorem mem_vars_of_copied {constraint : AliasConstraint} {x y : AliasVar}
    (h : constraint.copied = some (x, y)) : Hybrid.constraintVars constraint = [x, y] := by
  cases constraint with
  | addrOf => cases h
  | copy =>
    obtain ⟨rfl, rfl⟩ := Prod.mk.inj (Option.some.inj h)
    rfl
  | load =>
    obtain ⟨rfl, rfl⟩ := Prod.mk.inj (Option.some.inj h)
    rfl
  | store =>
    obtain ⟨rfl, rfl⟩ := Prod.mk.inj (Option.some.inj h)
    rfl
  | project => cases h
  | call => cases h

variable {x : AliasVar}

namespace Hybrid.Apart

variable (h : Apart uses region constraints)
include h

theorem mono {others : List AliasConstraint}
    (hsub : ∀ c ∈ others, c ∈ constraints) : Apart uses region others where
  inside c hc := h.inside c (hsub c hc)
  outside c hc := h.outside c (hsub c hc)

theorem uses_eq_false {constraint : AliasConstraint}
    (hmem : constraint ∈ constraints) (hx : x ∈ constraintVars constraint) (hout : ¬region x) :
    uses constraint = false := by
  rw [← Bool.not_eq_true]
  exact fun huses => hout (h.inside constraint hmem huses x hx)

theorem linked {x y : AliasVar}
    (hlink : Linked constraints x y) :
    (region x ↔ region y) ∧ (¬region x → Linked (constraints.filter (!uses ·)) x y) := by
  induction hlink with
  | rel x y hedge =>
    obtain ⟨constraint, hmem, hcopied⟩ := hedge
    have hvars := mem_vars_of_copied hcopied
    have hx : x ∈ constraintVars constraint := by rw [hvars]; exact List.mem_cons_self
    have hy : y ∈ constraintVars constraint := by
      rw [hvars]
      exact List.mem_cons_of_mem _ List.mem_cons_self
    cases huses : uses constraint with
    | true =>
      have hin := h.inside constraint hmem huses
      exact ⟨⟨fun _ => hin y hy, fun _ => hin x hx⟩, fun hout => absurd (hin x hx) hout⟩
    | false =>
      have hout := h.outside constraint hmem huses
      refine ⟨⟨fun hin => absurd hin (hout x hx), fun hin => absurd hin (hout y hy)⟩, fun _ => ?_⟩
      refine .rel _ _ ⟨constraint, List.mem_filter.mpr ⟨hmem, ?_⟩, hcopied⟩
      rw [huses]
      rfl
  | refl x => exact ⟨Iff.rfl, fun _ => .refl x⟩
  | symm x y _ ih => exact ⟨ih.1.symm, fun hout => (ih.2 fun hin => hout (ih.1.mp hin)).symm⟩
  | trans x y z _ _ ih ih' =>
    exact ⟨ih.1.trans ih'.1, fun hout =>
      (ih.2 hout).trans (ih'.2 fun hin => hout (ih.1.mpr hin))⟩

theorem arrives {item : Item} (hx : ¬region x)
    (harrives : Arrives config seeds constraints x item) :
    Arrives config seeds (constraints.filter (!uses ·)) x item := by
  have hkeep {constraints : List AliasConstraint} (h : Apart uses region constraints)
      {constraint : AliasConstraint} (hmem : constraint ∈ constraints) {x dst : AliasVar}
      (hdst : dst ∈ constraintVars constraint) (hlink : Linked constraints x dst)
      (hx : ¬region x) :
      uses constraint = false ∧ Linked (constraints.filter (!uses ·)) x dst := by
    obtain ⟨hiff, hlink⟩ := h.linked hlink
    exact ⟨h.uses_eq_false hmem hdst fun hin => hx (hiff.mpr hin), hlink hx⟩
  have hfilter {constraints : List AliasConstraint} {constraint : AliasConstraint}
      (hmem : constraint ∈ constraints) (huses : uses constraint = false) :
      constraint ∈ constraints.filter (!uses ·) :=
    List.mem_filter.mpr ⟨hmem, by rw [huses]; rfl⟩
  induction harrives with
  | seed hmem hitem hlink => exact .seed hmem hitem ((h.linked hlink).2 hx)
  | addrOf hmem hitem hlink =>
    obtain ⟨huses, hlink⟩ := hkeep h hmem List.mem_cons_self hlink hx
    exact .addrOf (hfilter hmem huses) hitem hlink
  | @project constraints before dst base projection after var item hsplit hbase hlink ih =>
    have hmem : AliasConstraint.project dst base projection ∈ constraints := by
      rw [hsplit]
      exact List.mem_append_right _ List.mem_cons_self
    obtain ⟨huses, hlink⟩ := hkeep h hmem List.mem_cons_self hlink hx
    have hbefore := h.mono fun c (hc : c ∈ before) => by
      rw [hsplit]
      exact List.mem_append_left _ hc
    have hout := h.outside _ hmem huses base (List.mem_cons_of_mem _ List.mem_cons_self)
    have hsplit' : constraints.filter (!uses ·) =
        before.filter (!uses ·) ++ .project dst base projection :: after.filter (!uses ·) := by
      rw [hsplit, List.filter_append, List.filter_cons_of_pos (by rw [huses]; rfl)]
    exact .project hsplit' (ih hbefore hout) hlink
  | @call constraints var dst callee args site item hmem hlink =>
    have hdst : dst ∈ constraintVars (.call (some dst) callee args site) :=
      List.mem_append_left _ (Option.mem_toList.mpr rfl)
    obtain ⟨huses, hlink⟩ := hkeep h hmem hdst hlink hx
    exact .call (hfilter hmem huses) hlink
  | all _ ih => exact .all (ih h hx)
  | crowd places hcard _ ih =>
    exact .crowd places hcard fun place hplace => ih place hplace h hx

end Hybrid.Apart

theorem Arrives.of_filter {p : AliasConstraint → Bool} {part : List AliasConstraint} {item : Item}
    (h : Arrives config seeds part x item) (hpart : part = constraints.filter p) :
    Arrives config seeds constraints x item := by
  have hsub {part constraints : List AliasConstraint} (hpart : part = constraints.filter p) :
      ∀ c ∈ part, c ∈ constraints := fun c hc => by
    rw [hpart] at hc
    exact (List.mem_filter.mp hc).1
  induction h generalizing constraints with
  | seed hmem hitem hlink => exact .seed hmem hitem (hlink.mono (hsub hpart))
  | addrOf hmem hitem hlink =>
    exact .addrOf (hsub hpart _ hmem) hitem (hlink.mono (hsub hpart))
  | @project part before dst base projection after var item hsplit hbase hlink ih =>
    obtain ⟨first, rest, rfl, hfirst, hrest⟩ :=
      List.filter_eq_append_iff.mp (hpart.symm.trans hsplit)
    obtain ⟨gap, last, rfl, hgap, -, -⟩ := List.filter_eq_cons_iff.mp hrest
    have hbefore : before = (first ++ gap).filter p := by
      rw [List.filter_append, hfirst, List.filter_eq_nil_iff.mpr hgap, List.append_nil]
    exact .project (List.append_assoc ..).symm (ih hbefore) (hlink.mono (hsub hpart))
  | call hmem hlink => exact .call (hsub hpart _ hmem) (hlink.mono (hsub hpart))
  | all _ ih => exact .all (ih hpart)
  | crowd places hcard _ ih =>
    exact .crowd places hcard fun place hplace => ih place hplace hpart

theorem Settled.filter (h : Settled config seeds constraints)
    (apart : Hybrid.Apart uses region constraints) :
    Settled config seeds (constraints.filter (!uses ·)) := by
  intro before dst base projection after hsplit item hitem _
  obtain ⟨first, rest, rfl, -, hrest⟩ := List.filter_eq_append_iff.mp hsplit
  obtain ⟨gap, last, rfl, -, huses, -⟩ := List.filter_eq_cons_iff.mp hrest
  have hmem : AliasConstraint.project dst base projection ∈
      first ++ (gap ++ .project dst base projection :: last) := by simp
  have hout := apart.outside _ hmem (by simpa using huses) dst List.mem_cons_self
  exact apart.arrives hout (h.project (List.append_assoc ..).symm (hitem.of_filter rfl))

namespace Hybrid.Apart

theorem eq_of_linked (h : Apart uses region constraints) {x y : AliasVar}
    (hlink : Linked (constraints.filter (!uses ·)) x y) (hin : region x ∨ region y) : x = y := by
  induction hlink with
  | rel x y hedge =>
    obtain ⟨constraint, hmem, hcopied⟩ := hedge
    obtain ⟨hmem, huses⟩ := List.mem_filter.mp hmem
    have hout := h.outside constraint hmem (by simpa using huses)
    rw [mem_vars_of_copied hcopied] at hout
    obtain hin | hin := hin
    · exact absurd hin (hout x List.mem_cons_self)
    · exact absurd hin (hout y (List.mem_cons_of_mem _ List.mem_cons_self))
  | refl x => rfl
  | symm x y _ ih => exact (ih hin.symm).symm
  | trans x y z _ _ ih ih' =>
    obtain hin | hin := hin
    · obtain rfl := ih (Or.inl hin)
      exact ih' (Or.inl hin)
    · obtain rfl := ih' (Or.inr hin)
      exact ih (Or.inr hin)

theorem has_of_arrives (h : Apart uses region constraints) {may : AliasVar → AliasSet}
    (hmay : ∀ x, (may x).Within config.maxAliasSetSize) (hseeds : Seeded seeds may) {item : Item}
    (hx : region x) (harrives : Arrives config seeds (constraints.filter (!uses ·)) x item) :
    (may x).Has item := by
  have hnot {constraint : AliasConstraint} (hmem : constraint ∈ constraints.filter (!uses ·))
      {x dst : AliasVar} (hdst : dst ∈ constraintVars constraint)
      (hlink : Linked (constraints.filter (!uses ·)) x dst) (hx : region x) : False := by
    obtain rfl := h.eq_of_linked hlink (Or.inl hx)
    obtain ⟨hmem, huses⟩ := List.mem_filter.mp hmem
    exact h.outside constraint hmem (by simpa using huses) x hdst hx
  generalize hpart : constraints.filter (!uses ·) = part at harrives
  induction harrives with
  | seed hmem hitem hlink =>
    rw [← hpart] at hlink
    obtain rfl := h.eq_of_linked hlink (Or.inl hx)
    exact AliasSet.le_iff_has.mp (hseeds _ hmem) _ hitem
  | addrOf hmem hitem hlink =>
    rw [← hpart] at hmem hlink
    exact (hnot hmem List.mem_cons_self hlink hx).elim
  | @project part before dst base projection after var item hsplit hbase hlink =>
    have hmem : AliasConstraint.project dst base projection ∈ constraints.filter (!uses ·) := by
      rw [hpart, hsplit]
      exact List.mem_append_right _ List.mem_cons_self
    rw [← hpart] at hlink
    exact (hnot hmem List.mem_cons_self hlink hx).elim
  | call hmem hlink =>
    rw [← hpart] at hmem hlink
    exact (hnot hmem (List.mem_append_left _ (Option.mem_toList.mpr rfl)) hlink hx).elim
  | all _ ih => exact (AliasSet.saturated (hmay _)).all (ih hx hpart) _
  | crowd places hcard _ ih =>
    exact (AliasSet.saturated (hmay _)).crowd places hcard fun place hplace =>
      ih place hplace hx hpart

end Hybrid.Apart

theorem Inclusion.solve_within (h : WithinLimit config seeds constraints) (x : AliasVar) :
    ((solve config seeds constraints).may x).Within config.maxAliasSetSize := by
  have hjoin : ∀ state : State,
      (∀ x, (value state x).may.Within config.maxAliasSetSize) →
      ∀ {dst : AliasVar} {new : AliasValue}, new.may.Within config.maxAliasSetSize →
      ∀ x, (value (joinVar config state dst new).1 x).may.Within
        config.maxAliasSetSize := by
    intro state hstate dst new hnew x
    rw [value_joinVar]
    split
    · exact AliasSet.join_within (hstate x) hnew
    · exact hstate x
  have hstart : ∀ state : State,
      (∀ x, (value state x).may.Within config.maxAliasSetSize) →
      ∀ x, (value (seeds.foldl (seed config) state) x).may.Within
        config.maxAliasSetSize := by
    have hseeds := h.seeds
    clear h
    induction seeds with
    | nil => exact fun state hstate => hstate
    | cons entry seeds ih =>
      exact fun state hstate => ih (fun other hother => hseeds other (List.mem_cons_of_mem _ hother))
        _ (hjoin state hstate (hseeds entry List.mem_cons_self))
  refine passes_keeps
    (P := fun values => ∀ x, (values x).may.Within config.maxAliasSetSize) ?_
    (hstart ⟨∅, false⟩ fun _ => trivial) x
  intro state hstate constraint hmem
  cases constraint with
  | addrOf dst target => exact hjoin state hstate (h.target hmem)
  | copy dst src => exact hjoin state hstate (hstate src)
  | load dst src => exact hjoin state hstate (hstate src)
  | store dst src => exact hjoin state hstate (hstate src)
  | project dst base projection => exact hjoin state hstate AliasValue.project_within
  | call dst callee args site =>
    cases dst with
    | none => exact hstate
    | some dst => exact hjoin { state with incomplete := true } hstate trivial

/-- A complete answer of the inclusion solver is the least solution, so seeds and constraints more can
only add to it, and neither their order nor their repetition matters. -/
theorem Inclusion.solve_least (hlimit : WithinLimit config seeds constraints)
    (hcomplete : (Inclusion.solve config seeds constraints).incomplete = false) :
    IsLeast {may | (∀ x, (may x).Within config.maxAliasSetSize) ∧ Seeded seeds may ∧
        ∀ constraint ∈ constraints, Satisfies config may constraint}
      (Inclusion.solve config seeds constraints).may ∧
    ∀ fewer others, (∀ entry ∈ fewer, entry ∈ seeds) → (∀ c ∈ others, c ∈ constraints) →
      (∀ x, (Inclusion.solve config fewer others).may x ≤
        (Inclusion.solve config seeds constraints).may x) ∧
      ((∀ entry ∈ seeds, entry ∈ fewer) → (∀ c ∈ constraints, c ∈ others) →
        (Inclusion.solve config fewer others).incomplete = false →
        (Inclusion.solve config fewer others).may =
          (Inclusion.solve config seeds constraints).may) := by
  have hmono {seeds fewer : List (AliasVar × AliasValue)} {constraints others : List AliasConstraint}
      (hlimit : WithinLimit config seeds constraints)
      (hcomplete : (solve config seeds constraints).incomplete = false)
      (hseeds : ∀ entry ∈ fewer, entry ∈ seeds) (hsub : ∀ c ∈ others, c ∈ constraints)
      (x : AliasVar) : (solve config fewer others).may x ≤
        (solve config seeds constraints).may x := by
    have hseeded : Seeded fewer (solve config seeds constraints).may :=
      fun entry hentry => solve_seeded seeds entry (hseeds entry hentry)
    exact solve_le (solve_within hlimit) hseeded
      (fun c hc => solve_satisfies hcomplete c (hsub c hc)) x
  have hsat := solve_satisfies hcomplete
  refine ⟨⟨⟨solve_within hlimit, solve_seeded seeds, hsat⟩, ?_⟩, ?_⟩
  · intro may ⟨hwithin, hseeded, hmay⟩ x
    exact solve_le hwithin hseeded hmay x
  · intro fewer others hseeds hsub
    refine ⟨hmono hlimit hcomplete hseeds hsub, fun hseeds' hsub' hanswer => ?_⟩
    have hlimit' : WithinLimit config fewer others :=
      ⟨fun entry hentry => hlimit.seeds entry (hseeds entry hentry), (hlimit.mono hsub).addrOf⟩
    funext x
    apply le_antisymm
    · exact hmono hlimit hcomplete hseeds hsub x
    · exact hmono hlimit' hanswer hseeds' hsub' x

theorem Inclusion.solve_least_copy :
    (Inclusion.solve .fast [] [.copy (.synthetic 1) (.synthetic 0),
        .addrOf (.synthetic 0) (.new .external)]).may =
      (Inclusion.solve .fast [] [.addrOf (.synthetic 0) (.new .external),
        .copy (.synthetic 1) (.synthetic 0)]).may := by
  have hlimit : WithinLimit .fast [] [.addrOf (.synthetic 0) (.new .external),
      .copy (.synthetic 1) (.synthetic 0)] := ⟨List.forall_mem_nil _, fun _ _ _ => by decide⟩
  have hleast := Inclusion.solve_least hlimit (by decide)
  exact (hleast.2 [] _ (List.forall_mem_nil _) (by simp)).2 (List.forall_mem_nil _) (by simp)
    (by decide)

/-- In the region the hybrid solver has the sets of the inclusion solver, outside it those of the
other one. -/
theorem Hybrid.Apart.join_eq (h : Apart uses region constraints)
    (hlimit : WithinLimit config seeds constraints) (x : AliasVar) :
    (region x → AliasSet.joinWithLimit
      ((Inclusion.solve config seeds (constraints.filter uses)).may x)
      ((Classes.run config le seeds (constraints.filter (!uses ·))).may x)
      config.maxAliasSetSize = (Inclusion.solve config seeds (constraints.filter uses)).may x) ∧
    (¬region x → AliasSet.joinWithLimit
      ((Inclusion.solve config seeds (constraints.filter uses)).may x)
      ((Classes.run config le seeds (constraints.filter (!uses ·))).may x)
      config.maxAliasSetSize =
        (Classes.run config le seeds (constraints.filter (!uses ·))).may x) := by
  have hpart (p : AliasConstraint → Bool) : WithinLimit config seeds (constraints.filter p) :=
    hlimit.mono fun c hc => (List.mem_filter.mp hc).1
  have hinclusion := Inclusion.solve_within (hpart uses)
  have hunification (x : AliasVar) :
      ((Classes.run config le seeds (constraints.filter (!uses ·))).may x).Within
        config.maxAliasSetSize := Classes.run_within (hpart (!uses ·)) x
  constructor
  · intro hx
    refine le_antisymm (AliasSet.join_le (hinclusion x) (le_refl _) ?_) (AliasSet.le_join_left ..)
    refine AliasSet.le_iff_has.mpr fun item hitem => ?_
    exact h.has_of_arrives hinclusion (Inclusion.solve_seeded seeds) hx
      (Classes.arrives_of_has hitem)
  · intro hx
    classical
    refine le_antisymm (AliasSet.join_le (hunification x) ?_ (le_refl _)) (AliasSet.le_join_right ..)
    -- everything in the region, and outside it the classes, is above the inclusion solver
    let above (y : AliasVar) : AliasSet := if region y then .unknown
      else (Classes.run config le seeds (constraints.filter (!uses ·))).may y
    have hin (y : AliasVar) (hy : region y) : above y = .unknown := if_pos hy
    have hout (y : AliasVar) (hy : ¬region y) : above y =
      (Classes.run config le seeds (constraints.filter (!uses ·))).may y := if_neg hy
    have hwithin (y : AliasVar) : (above y).Within config.maxAliasSetSize := by
      by_cases hy : region y
      · rw [hin y hy]
        trivial
      · rw [hout y hy]
        exact hunification y
    have hseeded : Seeded seeds above := by
      intro entry hentry
      by_cases hy : region entry.1
      · rw [hin _ hy]
        exact AliasSet.le_unknown _
      · rw [hout _ hy]
        exact Classes.run_seeded entry hentry
    have hsat : ∀ constraint ∈ constraints.filter uses, Satisfies config above constraint := by
      intro constraint hmem
      obtain ⟨hmem, huses⟩ := List.mem_filter.mp hmem
      have hall : Satisfies config (fun _ => .unknown) constraint := by
        cases constraint with
        | call => exact fun _ _ => rfl
        | _ => exact AliasSet.le_unknown _
      exact hall.congr fun y hy => (hin y (h.inside constraint hmem huses y hy)).symm
    rw [← hout x hx]
    exact Inclusion.solve_le hwithin hseeded hsat x

end Part

/-- A complete answer satisfies the constraints and contains that of the inclusion solver. -/
def Sound (config : AliasPrecisionConfig) (seeds : List (AliasVar × AliasValue))
    (constraints : List AliasConstraint) (answer : Option AliasSolution) : Prop :=
  ∃ solution, answer = some solution ∧ (solution.incomplete = false →
    (∀ constraint ∈ constraints, Satisfies config solution.may constraint) ∧
      ∀ var, (Inclusion.solve config seeds constraints).may var ≤ solution.may var)

theorem inclusion_sound (seeds : List (AliasVar × AliasValue))
    (constraints : List AliasConstraint) :
    Sound config seeds constraints (some (Inclusion.solve config seeds constraints)) :=
  ⟨_, rfl, fun h => ⟨Inclusion.solve_satisfies h, fun _ => le_refl _⟩⟩

theorem unification_sound (hlimit : WithinLimit config seeds constraints)
    (h : Settled config seeds constraints) :
    Sound config seeds constraints (Unification.solve config le seeds constraints) := by
  obtain ⟨solution, hsolve, hmay, -⟩ := Unification.solve_eq config le seeds constraints
  have hsat : ∀ constraint ∈ constraints,
      Satisfies config (Classes.run config le seeds constraints).may constraint :=
    (run_satisfies_iff hlimit).mpr h
  refine ⟨solution, hsolve, fun _ => ⟨?_, ?_⟩⟩
  · rwa [hmay]
  · rw [hmay]
    exact Inclusion.solve_le (Classes.run_within hlimit) Classes.run_seeded hsat

theorem hybrid_sound (hlimit : WithinLimit config seeds constraints)
    (h : Settled config seeds constraints) :
    Sound config seeds constraints (Hybrid.solve config le seeds constraints) := by
  obtain ⟨uses, region, solution, apart, hsolve, hmay, hincomplete⟩ :=
    Hybrid.solve_eq config le seeds constraints
  have hpart (p : AliasConstraint → Bool) : WithinLimit config seeds (constraints.filter p) :=
    hlimit.mono fun c hc => (List.mem_filter.mp hc).1
  have hregion (x : AliasVar) (hx : region x) : solution.may x =
      (Inclusion.solve config seeds (constraints.filter uses)).may x :=
    (hmay x).trans ((apart.join_eq hlimit x).1 hx)
  have hrest (x : AliasVar) (hx : ¬region x) : solution.may x =
      (Classes.run config le seeds (constraints.filter (!uses ·))).may x :=
    (hmay x).trans ((apart.join_eq hlimit x).2 hx)
  refine ⟨solution, hsolve, fun hcomplete => ?_⟩
  obtain ⟨hinclusion, -⟩ := Bool.or_eq_false_iff.mp (hincomplete.symm.trans hcomplete)
  have hsat : ∀ constraint ∈ constraints, Satisfies config solution.may constraint := by
    intro constraint hmem
    cases huses : uses constraint with
    | true =>
      have hin := Inclusion.solve_satisfies hinclusion constraint (List.mem_filter.mpr ⟨hmem, huses⟩)
      exact hin.congr fun x hx => (hregion x (apart.inside constraint hmem huses x hx)).symm
    | false =>
      have hmem' : constraint ∈ constraints.filter (!uses ·) :=
        List.mem_filter.mpr ⟨hmem, by rw [huses]; rfl⟩
      have hout : Satisfies config
          (Classes.run config le seeds (constraints.filter (!uses ·))).may constraint :=
        (run_satisfies_iff (hpart (!uses ·))).mpr (h.filter apart) constraint hmem'
      exact hout.congr fun x hx => (hrest x (apart.outside constraint hmem huses x hx)).symm
  have hwithin (x : AliasVar) : (solution.may x).Within config.maxAliasSetSize := by
    rw [hmay]
    exact AliasSet.join_within (Inclusion.solve_within (hpart uses) x)
      (Classes.run_within (hpart (!uses ·)) x)
  have hseeded : Seeded seeds solution.may := by
    intro entry hentry
    rw [hmay]
    exact (Classes.run_seeded entry hentry).trans (AliasSet.le_join_right ..)
  exact ⟨hsat, Inclusion.solve_le hwithin hseeded hsat⟩

/-- The answers of the three solvers. -/
def AllSound (config : AliasPrecisionConfig) (le : AliasVar → AliasVar → Bool)
    (seeds : List (AliasVar × AliasValue)) (constraints : List AliasConstraint) : Prop :=
  Sound config seeds constraints (some (Inclusion.solve config seeds constraints)) ∧
    Sound config seeds constraints (Unification.solve config le seeds constraints) ∧
    Sound config seeds constraints (Hybrid.solve config le seeds constraints)

theorem sound_of_call (h : constraints.any (·.isCall) = true) :
    AllSound config le seeds constraints := by
  refine ⟨inclusion_sound seeds constraints, ?_, ?_⟩
  · obtain ⟨solution, hsolve, -, hincomplete⟩ := Unification.solve_eq config le seeds constraints
    exact ⟨solution, hsolve, fun hcomplete => by rw [hincomplete, h] at hcomplete; cases hcomplete⟩
  · obtain ⟨uses, region, solution, -, hsolve, -, hincomplete⟩ :=
      Hybrid.solve_eq config le seeds constraints
    refine ⟨solution, hsolve, fun hcomplete => ?_⟩
    rw [hincomplete, Bool.or_eq_false_iff] at hcomplete
    obtain ⟨constraint, hmem, hcall⟩ := List.any_eq_true.mp h
    cases huses : uses constraint with
    | true =>
      have hpart : (constraints.filter uses).any (·.isCall) = true :=
        List.any_eq_true.mpr ⟨constraint, List.mem_filter.mpr ⟨hmem, huses⟩, hcall⟩
      rw [Inclusion.solve_incomplete hpart] at hcomplete
      exact absurd hcomplete.1.symm Bool.false_ne_true
    | false =>
      have hpart : (constraints.filter (!uses ·)).any (·.isCall) = true :=
        List.any_eq_true.mpr
          ⟨constraint, List.mem_filter.mpr ⟨hmem, by rw [huses]; rfl⟩, hcall⟩
      rw [hpart] at hcomplete
      exact absurd hcomplete.2.symm Bool.false_ne_true

/-- Within the limit, a call that leaves everything open apart, the solvers are sound exactly for
settled projections. -/
theorem solvers_sound_iff (hlimit : WithinLimit config seeds constraints) :
    AllSound config le seeds constraints ↔
      constraints.any (·.isCall) = true ∨ Settled config seeds constraints := by
  constructor
  · rintro ⟨-, ⟨solution, hsolution, hsound⟩, -⟩
    rw [or_iff_not_imp_left, Bool.not_eq_true]
    intro hcalls
    obtain ⟨answer, hanswer, hmay, hincomplete⟩ := Unification.solve_eq config le seeds constraints
    obtain rfl : answer = solution := Option.some.inj (hanswer.symm.trans hsolution)
    have hsat := (hsound (hincomplete.trans hcalls)).1
    rw [hmay] at hsat
    exact (run_satisfies_iff hlimit).mp hsat
  · rintro (hcalls | hsettled)
    · exact sound_of_call hcalls
    · exact ⟨inclusion_sound seeds constraints, unification_sound hlimit hsettled,
        hybrid_sound hlimit hsettled⟩

/-- The place of `0` comes to `1` before the projection of `1`. -/
def settledConstraints : List AliasConstraint :=
  [.addrOf (.synthetic 0) (.new .external), .copy (.synthetic 1) (.synthetic 0),
    .project (.synthetic 2) (.synthetic 1) .index]

def lineOrder (x y : AliasVar) : Bool := x == y || x == .synthetic 0 || y == .synthetic 2

theorem solvers_sound_iff_project : AllSound .fast lineOrder [] settledConstraints := by
  have hlimit : WithinLimit .fast [] settledConstraints :=
    ⟨List.forall_mem_nil _, fun _ _ _ => by decide⟩
  have hrun : ∀ constraint ∈ settledConstraints,
      Satisfies .fast (Classes.run .fast lineOrder [] settledConstraints).may constraint := by
    refine List.forall_mem_cons.mpr ⟨?_, List.forall_mem_cons.mpr ⟨?_,
      List.forall_mem_singleton.mpr ?_⟩⟩ <;> rw [Satisfies] <;> decide
  exact (solvers_sound_iff hlimit).mpr (Or.inr ((run_satisfies_iff hlimit).mp hrun))

/-- The projection is listed before the place that its base gets. -/
theorem solvers_unsound :
    ¬AllSound .fast (fun x y => x == .synthetic 0 || y == .synthetic 1) []
      [.project (.synthetic 1) (.synthetic 0) .index,
        .addrOf (.synthetic 0) (.new .external)] := by
  rintro ⟨-, ⟨solution, hsolution, hsound⟩, -⟩
  obtain ⟨answer, hanswer, hmay, hincomplete⟩ := Unification.solve_eq .fast
    (fun x y => x == .synthetic 0 || y == .synthetic 1) []
    [.project (.synthetic 1) (.synthetic 0) .index, .addrOf (.synthetic 0) (.new .external)]
  obtain rfl : answer = solution := Option.some.inj (hanswer.symm.trans hsolution)
  have hsat := (hsound hincomplete).1 _ List.mem_cons_self
  rw [hmay, Satisfies] at hsat
  exact absurd hsat (by decide)

end EtasFrontend.Alias
