import EtasFrontend.Effects.Disjoint
import EtasFrontend.Effects.Trace

/-! Patterns of trace specifications and the static analysis of a denied pattern. -/
namespace EtasFrontend.Effects
open EtasFrontend.Types

inductive TraceSpecArgBoundTarget where
  | action (action : ActionRef)
  | effectTag (tag : EffectTagId)
  deriving DecidableEq

structure TraceSpecArgBound where
  target : TraceSpecArgBoundTarget
  argIndex : ℕ
  specSymbol : SymbolId
  specArgs : List TypeId
  deriving DecidableEq

structure TraceSpecPattern where
  row : EffectRow
  label : String
  argBounds : List TraceSpecArgBound
  deriving DecidableEq

def boundTargetAndArgs : Effect → Effect → Option (TraceSpecArgBoundTarget × List EffectArgRef)
  | .appliedAction allowed, .appliedAction actual =>
    if allowed.action = actual.action then some (.action allowed.action, actual.args) else none
  | _, _ => none

def actionRef : Effect → Option ActionRef
  | .action action => some action
  | .appliedAction action => some action.action
  | _ => none

namespace TraceSpecPattern

variable (coverage : EffectCoverage)
  /- `satisfies_spec` of the spec solver -/
  (satisfiesSpec : TypeId → SymbolId → List TypeId → Bool)

def boundsMatch (pattern : TraceSpecPattern) (allowed actual : Effect) : Bool :=
  match boundTargetAndArgs allowed actual with
  | none => pattern.argBounds.isEmpty
  | some (target, actualArgs) =>
    (pattern.argBounds.filter fun bound => bound.target == target).all fun bound =>
      match actualArgs[bound.argIndex]? with
      | some (.type ty) => satisfiesSpec ty bound.specSymbol bound.specArgs
      | _ => false

def matchesEffect (pattern : TraceSpecPattern) (effect : Effect) : Bool :=
  decide (∃ allowed ∈ pattern.row.effects,
    coverage.covers allowed effect = true ∧ pattern.boundsMatch satisfiesSpec allowed effect = true)

/-- Both are declarations, or both primitives. -/
def comparableConcrete (left right : TypeId) : Bool :=
  match coverage.types.get left, coverage.types.get right with
  | some (.nominal _), some (.nominal _) => true
  | some (.primitive _), some (.primitive _) => true
  | _, _ => false

/-- Two concrete types of which neither is assignable to the other. -/
def typesApart (left right : TypeId) : Bool :=
  comparableConcrete coverage left right && !coverage.sameType left right &&
    !coverage.sameType right left

def argsApart (kind : Option EffectActionArgKind) : EffectArgRef → EffectArgRef → Bool
  | .type left, .type right => kind == some .type && typesApart coverage left right
  | _, _ => false

/-- Arguments at one place that exclude each other. -/
def instancesApart : Effect → Effect → Bool
  | .appliedAction left, .appliedAction right =>
    match coverage.registry.actionSignature left.action with
    | some signature => left.action == right.action &&
        (left.args.zip right.args).zipIdx.any fun (args, index) =>
          argsApart coverage signature.effectArgs[index]? args.1 args.2
    | none => false
  | _, _ => false

def actionsDiffer (left right : Effect) : Bool :=
  match actionRef left, actionRef right with
  | some left, some right => left != right
  | _, _ => false

/-- A failed coverage proof is no proof of disjointness, so this asks for one. -/
def mayMatchCandidate (candidate effect : Effect) : Bool :=
  if actionsDiffer candidate effect then false
  else if instancesApart coverage candidate effect then false
  else !coverage.rowsDisjoint (.closed {candidate}) (.closed {effect})

def mayMatchEffect (pattern : TraceSpecPattern) (effect : Effect) : Bool :=
  if pattern.row.openVar.isSome then true
  else decide (∃ candidate ∈ pattern.row.effects,
    mayMatchCandidate coverage candidate effect = true)

end TraceSpecPattern

inductive DenialStaticDisposition where
  | proven | violated | unsupported
  deriving DecidableEq

def analyzeDenial (coverage : EffectCoverage)
    (satisfiesSpec : TypeId → SymbolId → List TypeId → Bool) (pattern : TraceSpecPattern)
    (trace : ActionTraceDomain) (requested : EffectRow) : DenialStaticDisposition :=
  if ∃ action ∈ requested.effects, pattern.matchesEffect coverage satisfiesSpec action = true then
    .violated
  else if requested.openVar.isSome || trace.hasParameterCalls ||
    decide (∃ action ∈ requested.effects, pattern.mayMatchEffect coverage action = true) then
    .unsupported
  else .proven

/-! Assignability of concrete types. -/

namespace EffectCoverage
variable {coverage : EffectCoverage}

/-- Not a variable, a named parameter or the type of an integer literal: such a type stands for
others. -/
def ConcreteType (coverage : EffectCoverage) (ty : TypeId) : Prop :=
  match coverage.types.get ty with
  | some (.var _) | some (.named _) | some (.integerLiteral _) | none => False
  | some _ => True

theorem sameType_iff_unify {l r : TypeId} (hn : coverage.types.get l ≠ some (.primitive .never))
    (hs : supportConstraintAssignable coverage.types l r = false) :
    coverage.sameType l r = true ↔ ∃ u, Unifier.new.withReadOnlyErasure.unify coverage.types
      coverage.depth l r = some (.ok (), u) := by
  unfold sameType TypeRelation.assignable TypeRelation.new
  simp only [hn, hs, if_false, Bool.false_eq_true]
  cases Unifier.new.withReadOnlyErasure.unify coverage.types coverage.depth l r with
  | none => simp
  | some p =>
    obtain ⟨_ | _, u⟩ := p <;> simp

variable {store : TypeStore}

theorem exists_unify_iff {n : ℕ} {lhs rhs : TypeId} {l r : Ty} (hl : store.get lhs = some l)
    (hr : store.get rhs = some r) (hlv : ∀ v, l ≠ .var v) (hrv : ∀ v, r ≠ .var v) {same : Prop}
    [Decidable same]
    (hg : Unifier.new.withReadOnlyErasure.nodeGoal store lhs rhs l r =
      if same then .done else if lhs = rhs then .done else .fail (.mismatch lhs rhs)) :
    (∃ u, Unifier.new.withReadOnlyErasure.unify store (n + 1) lhs rhs = some (.ok (), u)) ↔
      lhs = rhs ∨ same := by
  rw [Unifier.unify, goal_of_not_var (u := Unifier.new.withReadOnlyErasure) rfl hl hr hlv hrv, hg]
  by_cases he : lhs = rhs <;> by_cases hs : same <;> simp [he, hs]

theorem not_support {lhs rhs : TypeId} {r : Ty} (hr : store.get rhs = some r)
    (hn : ∀ name, r ≠ .named name) : supportConstraintAssignable store lhs rhs = false := by
  unfold supportConstraintAssignable
  rw [hr]
  cases r with
  | named name => exact (hn name rfl).elim
  | _ => rfl

theorem ConcreteType.exists_node {ty : TypeId} (h : coverage.ConcreteType ty) :
    ∃ t, coverage.types.get ty = some t ∧ (∀ v, t ≠ .var v) ∧ (∀ n, t ≠ .named n) ∧
      ∀ text, t ≠ .integerLiteral text := by
  unfold ConcreteType at h
  split at h
  · exact h.elim
  · exact h.elim
  · exact h.elim
  · exact h.elim
  next t hv hn hi hget => exact ⟨t, hget, by grind, by grind, by grind⟩

/-- A type assignable from a concrete one that is not `Never`, one level down. -/
theorem sameType_iff_of_node {l r : TypeId} {a b : Ty} (hl : coverage.types.get l = some a)
    (hr : coverage.types.get r = some b) (hnever : a ≠ .primitive .never)
    (hav : ∀ v, a ≠ .var v) (hbv : ∀ v, b ≠ .var v) (hbn : ∀ n, b ≠ .named n)
    {same : Prop} [Decidable same]
    (hg : Unifier.new.withReadOnlyErasure.nodeGoal coverage.types l r a b =
      if same then .done else if l = r then .done else .fail (.mismatch l r)) :
    coverage.sameType l r = true ↔ 0 < coverage.depth ∧ (l = r ∨ same) := by
  rw [sameType_iff_unify (by rw [hl]; simpa using hnever) (not_support hr hbn)]
  cases coverage.depth with
  | zero => simp [Unifier.unify]
  | succ n => rw [exists_unify_iff hl hr hav hbv hg]; simp

variable {l t : TypeId}

theorem sameType_primitive {p : PrimitiveType} (hl : coverage.types.get l = some (.primitive p))
    (hp : p ≠ .never) (ht : coverage.ConcreteType t) :
    coverage.sameType l t = true ↔
      0 < coverage.depth ∧ coverage.types.get t = some (.primitive p) := by
  obtain ⟨r, hr, hv, hn, hi⟩ := ht.exists_node
  have hg : Unifier.new.withReadOnlyErasure.nodeGoal coverage.types l t (.primitive p) r =
      if r = .primitive p then .done else if l = t then .done else .fail (.mismatch l t) := by
    cases r with
    | primitive q => simp only [Unifier.nodeGoal, Ty.primitive.injEq, eq_comm]
    | integerLiteral text => exact (hi text rfl).elim
    | _ => rfl
  rw [sameType_iff_of_node hl hr (by simpa using hp) nofun hv hn hg, hr, Option.some.injEq]
  refine and_congr_right fun _ => or_iff_right_of_imp ?_
  rintro rfl
  exact Option.some.inj (hr.symm.trans hl)

theorem sameType_never (hl : coverage.types.get l = some (.primitive .never)) :
    coverage.sameType l t = true := by
  simp [sameType, TypeRelation.assignable, TypeRelation.new, hl]

theorem sameType_nominal {a b : NominalTypeRef} (hl : coverage.types.get l = some (.nominal a))
    (ht : coverage.types.get t = some (.nominal b)) :
    coverage.sameType l t = true ↔
      0 < coverage.depth ∧ Unifier.sameNominal coverage.types l t a b = true := by
  rw [sameType_iff_of_node hl ht nofun nofun nofun nofun rfl]
  refine and_congr_right fun _ => or_iff_right_of_imp ?_
  rintro rfl
  cases hl.symm.trans ht
  unfold Unifier.sameNominal
  cases coverage.types.nominalIdentity l <;> simp

theorem exists_nominal_of_sameType {a : NominalTypeRef}
    (hl : coverage.types.get l = some (.nominal a)) (ht : coverage.ConcreteType t)
    (h : coverage.sameType l t = true) : ∃ b, coverage.types.get t = some (.nominal b) := by
  obtain ⟨r, hr, hv, hn, -⟩ := ht.exists_node
  by_contra hne
  rw [not_exists] at hne
  have hg : Unifier.new.withReadOnlyErasure.nodeGoal coverage.types l t (.nominal a) r =
      if False then .done else if l = t then .done else .fail (.mismatch l t) := by
    cases r with
    | nominal b => exact (hne b hr).elim
    | _ => rfl
  rw [sameType_iff_of_node hl hr nofun nofun hv hn hg] at h
  obtain ⟨-, rfl | h⟩ := h
  · exact hne a hl
  · exact h

theorem sameNominal_trans {l t r : TypeId} {a b c : NominalTypeRef}
    (h : Unifier.sameNominal store l t a b = true) (h' : Unifier.sameNominal store r t c b = true) :
    Unifier.sameNominal store l r a c = true := by
  unfold Unifier.sameNominal at h h' ⊢
  cases hl : store.nominalIdentity l <;> cases ht : store.nominalIdentity t <;>
    cases hr : store.nominalIdentity r <;> simp_all

end EffectCoverage

theorem TraceSpecPattern.not_sameType_of_typesApart {coverage : EffectCoverage} {l r t : TypeId}
    (h : typesApart coverage l r = true) (ht : coverage.ConcreteType t)
    (hl : coverage.sameType l t = true) (hr : coverage.sameType r t = true) : False := by
  simp only [typesApart, Bool.and_eq_true, Bool.not_eq_true'] at h
  obtain ⟨⟨hc, hlr⟩, hrl⟩ := h
  unfold comparableConcrete at hc
  split at hc
  next a b ha hb =>
    obtain ⟨c, hc⟩ := EffectCoverage.exists_nominal_of_sameType ha ht hl
    obtain ⟨hd, hlc⟩ := (EffectCoverage.sameType_nominal ha hc).mp hl
    obtain ⟨-, hrc⟩ := (EffectCoverage.sameType_nominal hb hc).mp hr
    have hsame := EffectCoverage.sameNominal_trans hlc hrc
    rw [(EffectCoverage.sameType_nominal ha hb).mpr ⟨hd, hsame⟩] at hlr
    cases hlr
  next p q hp hq =>
    have hpn : p ≠ .never := by
      rintro rfl
      rw [EffectCoverage.sameType_never hp] at hlr
      cases hlr
    have hqn : q ≠ .never := by
      rintro rfl
      rw [EffectCoverage.sameType_never hq] at hrl
      cases hrl
    obtain ⟨hd, htp⟩ := (EffectCoverage.sameType_primitive hp hpn ht).mp hl
    obtain ⟨-, htq⟩ := (EffectCoverage.sameType_primitive hq hqn ht).mp hr
    cases htp.symm.trans htq
    have hr : coverage.ConcreteType r := by simp [EffectCoverage.ConcreteType, hq]
    rw [(EffectCoverage.sameType_primitive hp hpn hr).mpr ⟨hd, hq⟩] at hlr
    cases hlr
  next => cases hc

namespace TraceSpecPattern
variable {coverage : EffectCoverage} {candidate effect : Effect}

theorem mayMatchCandidate_intro (hd : actionsDiffer candidate effect = false)
    (ha : instancesApart coverage candidate effect = false)
    (ht : ∀ s t, EffectCoverage.memberTag candidate = some s →
      EffectCoverage.memberTag effect = some t → coverage.Extends t s) :
    mayMatchCandidate coverage candidate effect = true := by
  rw [mayMatchCandidate, hd, ha, if_neg Bool.false_ne_true, if_neg Bool.false_ne_true,
    Bool.not_eq_true', ← Bool.not_eq_true, EffectCoverage.rowsDisjoint_iff]
  rintro ⟨-, -, h⟩
  obtain ⟨s, hs, hr⟩ := h candidate (Finset.mem_singleton_self _)
  obtain ⟨t, hte, -, hts⟩ := hr effect (Finset.mem_singleton_self _)
  exact hts (ht s t (EffectCoverage.memberTag_of_tagOf hs) (EffectCoverage.memberTag_of_tagOf hte))

theorem actionRef_of_covers {left right : ActionRef} (h : coverage.covers candidate effect = true)
    (hl : actionRef candidate = some left) (hr : actionRef effect = some right) : left = right := by
  cases candidate <;> cases hl <;> cases effect <;> cases hr
  · exact beq_iff_eq.mp h
  · exact beq_iff_eq.mp h
  · simp [EffectCoverage.covers] at h
  · exact (EffectCoverage.appliedActionCovers_iff.mp h).1

theorem actionsDiffer_eq_false {left right : Effect}
    (h : ∀ l r, actionRef left = some l → actionRef right = some r → l = r) :
    actionsDiffer left right = false := by
  unfold actionsDiffer
  split
  next l r hl hr => simp [h l r hl hr]
  next => rfl

theorem instancesApart_eq_false {left right : Effect}
    (h : ∀ l r, left = .appliedAction l → right = .appliedAction r → l.action = r.action →
      ∀ x y index, ((x, y), index) ∈ (l.args.zip r.args).zipIdx →
        argsApart coverage (coverage.argKind l.action index) x y = false) :
    instancesApart coverage left right = false := by
  unfold instancesApart
  split
  next l r =>
    split
    next signature hsig =>
      rw [Bool.and_eq_false_iff, beq_eq_false_iff_ne]
      by_cases hact : l.action = r.action
      · refine Or.inr (List.any_eq_false.mpr ?_)
        rintro ⟨⟨x, y⟩, index⟩ hmem
        have := h l r rfl rfl hact x y index hmem
        rw [EffectCoverage.argKind, hsig, Option.bind_some] at this
        simp [this]
      · exact Or.inl hact
    next => rfl
  next => rfl

theorem argsApart_eq_true {kind : Option EffectActionArgKind} {x y : EffectArgRef}
    (h : argsApart coverage kind x y = true) :
    ∃ l r, x = .type l ∧ y = .type r ∧ kind = some .type ∧ typesApart coverage l r = true := by
  unfold argsApart at h
  split at h
  next l r =>
    rw [Bool.and_eq_true, beq_iff_eq] at h
    exact ⟨l, r, rfl, rfl, h⟩
  next => cases h

theorem mayMatchCandidate_of_covers (h : coverage.covers candidate effect = true) :
    mayMatchCandidate coverage candidate effect = true := by
  apply mayMatchCandidate_intro
  · exact actionsDiffer_eq_false fun l r hl hr => actionRef_of_covers h hl hr
  · refine instancesApart_eq_false ?_
    rintro l r rfl rfl - x y index hmem
    obtain ⟨-, -, hargs⟩ := EffectCoverage.appliedActionCovers_iff.mp h
    by_contra hapart
    rw [Bool.not_eq_false] at hapart
    obtain ⟨a, b, rfl, rfl, hkind, htypes⟩ := argsApart_eq_true hapart
    have hcov := hargs _ _ hmem
    rw [hkind] at hcov
    have hsame : coverage.sameType a b = true := hcov
    simp [typesApart, hsame] at htypes
  · intro s t hs ht
    obtain ⟨z, hz, hzs⟩ := EffectCoverage.covers_extends h hs
    cases ht.symm.trans hz
    exact hzs

/-- An action whose arguments are given: no wildcard, and types that stand for no other. -/
def Ground (coverage : EffectCoverage) : Effect → Prop
  | .action _ => True
  | .appliedAction instance' => ∀ arg ∈ instance'.args,
      match arg with
      | .wildcard => False
      | .type ty => coverage.ConcreteType ty
      | _ => True
  | _ => False

theorem argsApart_of_covers {kind : Option EffectActionArgKind} {x y z : EffectArgRef}
    (hz : ∀ ty, z = .type ty → coverage.ConcreteType ty)
    (hx : coverage.argCovers kind x z = true) (hy : coverage.argCovers kind y z = true) :
    argsApart coverage kind x y = false := by
  by_contra hapart
  rw [Bool.not_eq_false] at hapart
  obtain ⟨l, r, rfl, rfl, rfl, htypes⟩ := argsApart_eq_true hapart
  change coverage.effectArgCovers (.type l) z = true at hx
  change coverage.effectArgCovers (.type r) z = true at hy
  cases z with
  | type ty => exact not_sameType_of_typesApart htypes (hz ty rfl) hx hy
  | _ => simp [EffectCoverage.effectArgCovers] at hx

private theorem getElem?_of_mem_zipIdx {xs ys : List EffectArgRef} {x y : EffectArgRef} {i : ℕ}
    (h : ((x, y), i) ∈ (xs.zip ys).zipIdx) : xs[i]? = some x ∧ ys[i]? = some y := by
  have hget := List.mk_mem_zipIdx_iff_getElem?.mp h
  rw [List.getElem?_zip_eq_some] at hget
  exact hget

private theorem argCovers_at {left right : ActionInstanceRef} {x z : EffectArgRef} {i : ℕ}
    (h : coverage.appliedActionCovers left right = true) (hx : left.args[i]? = some x)
    (hz : right.args[i]? = some z) :
    coverage.argCovers (coverage.argKind left.action i) x z = true := by
  refine (EffectCoverage.appliedActionCovers_iff.mp h).2.2 (x, z) i ?_
  rw [List.mk_mem_zipIdx_iff_getElem?, List.getElem?_zip_eq_some]
  exact ⟨hx, hz⟩

theorem mayMatchCandidate_of_common {candidate requested ground : Effect}
    (hr : requested.isAction = true) (hg : Ground coverage ground)
    (hc : coverage.covers candidate ground = true)
    (hcov : coverage.covers requested ground = true) :
    mayMatchCandidate coverage candidate requested = true := by
  obtain ⟨action, hact⟩ : ∃ action, actionRef ground = some action := by
    cases ground with
    | action a => exact ⟨a, rfl⟩
    | appliedAction a => exact ⟨a.action, rfl⟩
    | _ => exact hg.elim
  apply mayMatchCandidate_intro
  · refine actionsDiffer_eq_false fun l r hl hr => ?_
    rw [actionRef_of_covers hc hl hact, actionRef_of_covers hcov hr hact]
  · refine instancesApart_eq_false ?_
    rintro l r rfl rfl hlr x y index hmem
    -- only instances are covered by instances
    cases ground with
    | appliedAction g =>
      obtain ⟨hx, hy⟩ := getElem?_of_mem_zipIdx hmem
      have hlen := (EffectCoverage.appliedActionCovers_iff.mp hc).2.1
      obtain ⟨hi, -⟩ := List.getElem?_eq_some_iff.mp hx
      have hz : g.args[index]? = some (g.args[index]) := List.getElem?_eq_getElem (hlen ▸ hi)
      have hyc := argCovers_at hcov hy hz
      rw [← hlr] at hyc
      refine argsApart_of_covers (fun ty hty => ?_) (argCovers_at hc hx hz) hyc
      have hmem := hg _ (List.getElem_mem (hlen ▸ hi))
      rw [hty] at hmem
      exact hmem
    | _ => simp [EffectCoverage.covers] at hc
  · intro s t hs ht
    obtain ⟨z, hz, hzs⟩ := EffectCoverage.covers_extends hc hs
    have hown : EffectCoverage.coversDescendants requested = false := by
      cases requested with
      | action | appliedAction => rfl
      | _ => cases hr
    rw [EffectCoverage.covers_memberTag hcov hown, ht] at hz
    cases hz
    exact hzs

end TraceSpecPattern

/-- What matches may match; and a denial that is proven holds of every ground instance of the
requested actions. -/
theorem analyzeDenial_sound (coverage : EffectCoverage)
    (satisfiesSpec : TypeId → SymbolId → List TypeId → Bool) (pattern : TraceSpecPattern) :
    (∀ effect, pattern.matchesEffect coverage satisfiesSpec effect = true →
      pattern.mayMatchEffect coverage effect = true) ∧
    ∀ trace requested, (∀ action ∈ requested.effects, action.isAction = true) →
      analyzeDenial coverage satisfiesSpec pattern trace requested = .proven →
      ∀ action ∈ requested.effects, ∀ ground, TraceSpecPattern.Ground coverage ground →
        coverage.covers action ground = true →
        pattern.matchesEffect coverage satisfiesSpec ground = false := by
  have hmay : ∀ effect, (∃ candidate ∈ pattern.row.effects,
      TraceSpecPattern.mayMatchCandidate coverage candidate effect = true) →
      pattern.mayMatchEffect coverage effect = true := by
    intro effect h
    unfold TraceSpecPattern.mayMatchEffect
    split_ifs
    · rfl
    · exact decide_eq_true h
  constructor
  · intro effect h
    obtain ⟨allowed, ha, hc, -⟩ := of_decide_eq_true h
    exact hmay effect ⟨allowed, ha, TraceSpecPattern.mayMatchCandidate_of_covers hc⟩
  · intro trace requested hactions hproven action haction ground hg hcov
    by_contra hmatch
    rw [Bool.not_eq_false] at hmatch
    obtain ⟨allowed, ha, hc, -⟩ := of_decide_eq_true hmatch
    have hcandidate := TraceSpecPattern.mayMatchCandidate_of_common (hactions action haction) hg hc
      hcov
    have hm := hmay action ⟨allowed, ha, hcandidate⟩
    unfold analyzeDenial at hproven
    have hsome : decide (∃ action ∈ requested.effects,
        pattern.mayMatchEffect coverage action = true) = true := decide_eq_true ⟨action, haction, hm⟩
    rw [hsome, Bool.or_true, if_pos rfl] at hproven
    split_ifs at hproven

/-- An effect with one action over a type, and the types `String` and `I32`. -/
def sendCoverage : EffectCoverage where
  registry := (EffectRegistry.empty.registerTag 1024 "Mail").registerAction 7
    ⟨1024, 1024, "send", [.type]⟩
  types := { TypeStore.new with types := [.primitive .string, .primitive .i32] }
  depth := 1

/-- Sending strings is denied and sending numbers is requested. -/
theorem analyzeDenial_sound_send :
    let send (ty : TypeId) : Effect := .appliedAction ⟨⟨1024, 1024⟩, [.type ty]⟩
    let pattern : TraceSpecPattern := ⟨.closed {send 0}, "Mail.send", []⟩
    analyzeDenial sendCoverage (fun _ _ _ => true) pattern .empty (.closed {send 1}) = .proven ∧
      pattern.matchesEffect sendCoverage (fun _ _ _ => true) (send 1) = false := by
  intro send pattern
  have hproven : analyzeDenial sendCoverage (fun _ _ _ => true) pattern .empty
    (.closed {send 1}) = .proven := by decide
  refine ⟨hproven, (analyzeDenial_sound sendCoverage _ pattern).2 .empty (.closed {send 1})
    (by decide) hproven (send 1) (Finset.mem_singleton_self _) (send 1) ?_ (by decide)⟩
  intro arg harg
  cases List.mem_singleton.mp harg
  trivial

end EtasFrontend.Effects
