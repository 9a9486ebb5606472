import EtasFrontend.Effects.TraceSpec
import EtasFrontend.Types.Settled

/-! Instances of actions: coverage composes through an action whose types are settled. -/
namespace EtasFrontend.Effects
open EtasFrontend.Types

namespace EffectCoverage
variable {coverage : EffectCoverage}

/-- The type arguments of the action leave nothing open. -/
def SettledArgs (coverage : EffectCoverage) (args : List EffectArgRef) : Prop :=
  ∀ ty, .type ty ∈ args → Settled coverage.types ty

def SettledAction (coverage : EffectCoverage) : Effect → Prop
  | .appliedAction action => SettledArgs coverage action.args
  | _ => True

theorem sameType_iff {lhs rhs : TypeId} :
    coverage.sameType lhs rhs = true ↔
      (TypeRelation.new coverage.types).assignable coverage.depth lhs rhs = some (.ok ()) := by
  unfold sameType
  rcases (TypeRelation.new coverage.types).assignable coverage.depth lhs rhs with
    _ | _ | ⟨⟨⟩⟩ <;> simp

theorem ConcreteType.not_named {ty : TypeId} (h : coverage.ConcreteType ty) (name : NamedTypeRef) :
    coverage.types.get ty ≠ some (.named name) := by
  obtain ⟨t, hget, -, hn, -⟩ := h.exists_node
  rw [hget]
  exact fun heq => hn name (Option.some.inj heq)

theorem sameType_trans {x y z : TypeId} (hx : Settled coverage.types x)
    (hy : Settled coverage.types y) (hz : Settled coverage.types z) (hc : coverage.ConcreteType z)
    (hxy : coverage.sameType x y = true) (hyz : coverage.sameType y z = true) :
    coverage.sameType x z = true := by
  rw [sameType_iff] at hxy hyz ⊢
  exact TypeRelation.assignable_trans hx hy hz hc.not_named hxy hyz

theorem pathArgContains_iff {allowed actual : List String} :
    pathArgContains allowed actual = true ↔ allowed <+: actual := by
  unfold pathArgContains
  induction allowed generalizing actual with
  | nil => simp
  | cons a allowed ih =>
    cases actual with
    | nil => simp
    | cons b actual =>
      have ih := @ih actual
      simp only [Bool.and_eq_true, decide_eq_true_eq, List.all_eq_true, beq_iff_eq] at ih
      simp only [List.length_cons, Nat.add_le_add_iff_right, List.zip_cons_cons, List.all_cons,
        Bool.and_eq_true, decide_eq_true_eq, List.all_eq_true, List.cons_prefix_cons, beq_iff_eq]
      rw [← ih]
      constructor
      · rintro ⟨hlen, rfl, hall⟩
        exact ⟨rfl, hlen, hall⟩
      · rintro ⟨rfl, hlen, hall⟩
        exact ⟨hlen, rfl, hall⟩

theorem pathArgMatches_iff {allowed actual : List String} :
    pathArgMatches allowed actual = true ↔ allowed ≠ [] ∧ allowed <:+ actual := by
  have hreverse : (decide (allowed.length ≤ actual.length) &&
      (actual.reverse.zip allowed.reverse).all fun p => p.1 == p.2) = true ↔ allowed <:+ actual := by
    rw [← List.reverse_prefix, ← pathArgContains_iff, pathArgContains]
    simp only [List.length_reverse]
  unfold pathArgMatches
  rw [Bool.and_eq_true, Bool.or_eq_true, beq_iff_eq]
  change _ ∧ (_ ∨ (decide (allowed.length ≤ actual.length) &&
      (actual.reverse.zip allowed.reverse).all fun p => p.1 == p.2) = true) ↔ _
  rw [hreverse]
  simp only [Bool.not_eq_true', List.isEmpty_eq_false_iff, ne_eq]
  refine and_congr_right fun _ => or_iff_right_of_imp ?_
  rintro rfl
  exact List.suffix_rfl

variable {x y z : EffectArgRef}

theorem memoryPlaceArgContains_iff {x y : EffectArgRef} :
    coverage.memoryPlaceArgContains x y = true ↔ x = .wildcard ∨
      (∃ p q, coverage.memoryPlaceArgSegments x = some p ∧
        coverage.memoryPlaceArgSegments y = some q ∧ p <+: q) ∨
      x = y ∧ ((∃ text, x = .string text) ∨ ∃ text, x = .int text) := by
  unfold memoryPlaceArgContains
  rcases hx : coverage.memoryPlaceArgSegments x with _ | p
  · cases x with
    | wildcard => simp
    | path => simp [memoryPlaceArgSegments] at hx
    | type a =>
      have hplace : coverage.registry.memoryPlace a = none := by
        simpa [memoryPlaceArgSegments] using hx
      cases y <;>
        simp [effectArgCovers, memoryPlaceContains, EffectRegistry.memoryPlaceContains, hplace]
    | string | int => cases y <;> simp [effectArgCovers]
  · rcases hy : coverage.memoryPlaceArgSegments y with _ | q
    · cases x with
      | wildcard | string | int => simp [memoryPlaceArgSegments] at hx
      | path =>
        cases y with
        | path => simp [memoryPlaceArgSegments] at hy
        | _ => simp [effectArgCovers]
      | type a =>
        cases y with
        | type b =>
          have hplace : coverage.registry.memoryPlace b = none := by
            simpa [memoryPlaceArgSegments] using hy
          simp [memoryPlaceContains, EffectRegistry.memoryPlaceContains, hplace]
        | path => simp [memoryPlaceArgSegments] at hy
        | _ => simp [effectArgCovers]
    · have hne : x ≠ .wildcard := by
        rintro rfl
        cases hx
      have hno : ¬ ((∃ text, x = .string text) ∨ ∃ text, x = .int text) := by
        rintro (⟨text, rfl⟩ | ⟨text, rfl⟩) <;> cases hx
      simp [pathArgContains_iff, hne, hno]

theorem memoryPlaceArgContains_trans (hxy : coverage.memoryPlaceArgContains x y = true)
    (hyz : coverage.memoryPlaceArgContains y z = true) :
    coverage.memoryPlaceArgContains x z = true := by
  rw [memoryPlaceArgContains_iff] at hxy hyz ⊢
  rcases hxy with rfl | ⟨p, q, hp, hq, hpq⟩ | ⟨rfl, -⟩
  · exact Or.inl rfl
  · rcases hyz with rfl | ⟨q', r, hq', hr, hqr⟩ | ⟨-, ⟨text, rfl⟩ | ⟨text, rfl⟩⟩
    · cases hq
    · cases hq.symm.trans hq'
      exact Or.inr (Or.inl ⟨p, r, hp, hr, hpq.trans hqr⟩)
    · cases hq
    · cases hq
  · exact hyz

theorem staticResourcePathArgCovers_iff {x y : EffectArgRef} :
    coverage.staticResourcePathArgCovers x y = true ↔
      (∃ p q, x = .path p ∧ y = .path q ∧ pathArgMatches p q = true) ∨
        coverage.effectArgCovers x y = true ∧ ∀ p q, x = .path p → y ≠ .path q := by
  cases x with
  | wildcard => simp [staticResourcePathArgCovers, effectArgCovers]
  | path => cases y <;> simp [staticResourcePathArgCovers, effectArgCovers]
  | type | string | int => cases y <;> simp [staticResourcePathArgCovers]

section
variable (hsame : ∀ a b c, x = .type a → y = .type b → z = .type c → coverage.sameType a b = true →
  coverage.sameType b c = true → coverage.sameType a c = true)
include hsame

theorem effectArgCovers_trans
    (hxy : coverage.effectArgCovers x y = true) (hyz : coverage.effectArgCovers y z = true) :
    coverage.effectArgCovers x z = true := by
  cases x with
  | wildcard => rfl
  | type a =>
    cases y with
    | type b =>
      cases z with
      | type c =>
        exact hsame a b c rfl rfl rfl hxy hyz
      | _ => simp [effectArgCovers] at hyz
    | _ => simp [effectArgCovers] at hxy
  | path | string | int =>
    cases y <;> simp [effectArgCovers] at hxy
    subst hxy
    exact hyz

theorem staticResourcePathArgCovers_trans
    (hxy : coverage.staticResourcePathArgCovers x y = true)
    (hyz : coverage.staticResourcePathArgCovers y z = true) :
    coverage.staticResourcePathArgCovers x z = true := by
  rw [staticResourcePathArgCovers_iff] at hxy hyz ⊢
  rcases hxy with ⟨p, q, rfl, rfl, hpq⟩ | ⟨hxy, hxp⟩
  · rcases hyz with ⟨q', r, hq, rfl, hqr⟩ | ⟨hyz, hzp⟩
    · cases hq
      obtain ⟨hne, hpq⟩ := pathArgMatches_iff.mp hpq
      obtain ⟨-, hqr⟩ := pathArgMatches_iff.mp hqr
      exact Or.inl ⟨p, r, rfl, rfl, pathArgMatches_iff.mpr ⟨hne, hpq.trans hqr⟩⟩
    · cases z with
      | path r => exact (hzp q r rfl rfl).elim
      | _ => simp [effectArgCovers] at hyz
  · rcases hyz with ⟨q, r, rfl, rfl, -⟩ | ⟨hyz, -⟩
    · cases x with
      | wildcard => exact Or.inr ⟨rfl, fun _ _ h => by cases h⟩
      | path p => exact (hxp p q rfl rfl).elim
      | _ => simp [effectArgCovers] at hxy
    · refine Or.inr ⟨effectArgCovers_trans hsame hxy hyz, ?_⟩
      rintro p r rfl rfl
      have hyp : y = .path p := by
        cases y <;> simp [effectArgCovers] at hxy
        rw [hxy]
      exact hxp p p rfl hyp

theorem argCovers_trans {kind : Option EffectActionArgKind}
    (hxy : coverage.argCovers kind x y = true) (hyz : coverage.argCovers kind y z = true) :
    coverage.argCovers kind x z = true := by
  rcases kind with _ | _ | _ | _ | _
  · exact effectArgCovers_trans hsame hxy hyz
  · exact effectArgCovers_trans hsame hxy hyz
  · exact memoryPlaceArgContains_trans hxy hyz
  · exact staticResourcePathArgCovers_trans hsame hxy hyz
  · exact effectArgCovers_trans hsame hxy hyz

end

theorem exists_arg {allowed actual : ActionInstanceRef}
    (h : coverage.appliedActionCovers allowed actual = true) {i : ℕ} {z : EffectArgRef}
    (hz : actual.args[i]? = some z) :
    ∃ x, allowed.args[i]? = some x ∧
      coverage.argCovers (coverage.argKind allowed.action i) x z = true := by
  obtain ⟨-, hlen, hargs⟩ := appliedActionCovers_iff.mp h
  obtain ⟨hi, -⟩ := List.getElem?_eq_some_iff.mp hz
  have hx : allowed.args[i]? = some allowed.args[i] := List.getElem?_eq_getElem (hlen ▸ hi)
  refine ⟨_, hx, hargs (_, z) i ?_⟩
  rw [List.mk_mem_zipIdx_iff_getElem?, List.getElem?_zip_eq_some]
  exact ⟨hx, hz⟩

theorem appliedActionCovers_trans {x y z : ActionInstanceRef}
    (hsame : ∀ a b c, .type a ∈ x.args → .type b ∈ y.args → .type c ∈ z.args →
      coverage.sameType a b = true → coverage.sameType b c = true → coverage.sameType a c = true)
    (hxy : coverage.appliedActionCovers x y = true)
    (hyz : coverage.appliedActionCovers y z = true) : coverage.appliedActionCovers x z = true := by
  obtain ⟨haction, hlen, -⟩ := appliedActionCovers_iff.mp hxy
  obtain ⟨haction', hlen', -⟩ := appliedActionCovers_iff.mp hyz
  refine appliedActionCovers_iff.mpr ⟨haction.trans haction', hlen.trans hlen', ?_⟩
  rintro ⟨a, c⟩ i hmem
  rw [List.mk_mem_zipIdx_iff_getElem?, List.getElem?_zip_eq_some] at hmem
  obtain ⟨ha, hcz⟩ := hmem
  obtain ⟨b, hb, hbc⟩ := exists_arg hyz hcz
  obtain ⟨a', ha', hab⟩ := exists_arg hxy hb
  cases ha.symm.trans ha'
  rw [← haction] at hbc
  refine argCovers_trans ?_ hab hbc
  rintro s t w rfl rfl rfl
  exact hsame s t w (List.mem_of_getElem? ha) (List.mem_of_getElem? hb) (List.mem_of_getElem? hcz)

/-- Coverage composes through an action whose type arguments compose. -/
theorem covers_trans_of_isAction {x y z : Effect} (haction : y.isAction = true)
    (hsame : ∀ a b c, x = .appliedAction a → y = .appliedAction b → z = .appliedAction c →
      ∀ s t w, .type s ∈ a.args → .type t ∈ b.args → .type w ∈ c.args →
        coverage.sameType s t = true → coverage.sameType t w = true → coverage.sameType s w = true)
    (hxy : coverage.covers x y = true) (hyz : coverage.covers y z = true) :
    coverage.covers x z = true := by
  cases y with
  | action a =>
    -- an action covers itself and its instances
    cases z with
    | action b =>
      obtain rfl : a = b := beq_iff_eq.mp hyz
      exact hxy
    | appliedAction b =>
      obtain rfl : a = b.action := beq_iff_eq.mp hyz
      cases x <;> first
        | exact hxy
        | simp [covers] at hxy
    | _ => simp [covers] at hyz
  | appliedAction a =>
    cases z with
    | appliedAction b =>
      have hact : a.action = b.action := (appliedActionCovers_iff.mp hyz).1
      cases x with
      | tag t =>
        change coverage.tagCovers t a.action.tag = true at hxy
        change coverage.tagCovers t b.action.tag = true
        rwa [← hact]
      | action c =>
        change (c == a.action) = true at hxy
        change (c == b.action) = true
        rwa [← hact]
      | appliedAction c => exact appliedActionCovers_trans (hsame c a b rfl rfl rfl) hxy hyz
      | _ => simp [covers] at hxy
    | _ => simp [covers] at hyz
  | _ => cases haction

/-- Coverage composes through a settled action, at ground actions. -/
theorem covers_trans {allowed requested ground : Effect} (ha : coverage.SettledAction allowed)
    (hr : coverage.SettledAction requested) (hg : coverage.SettledAction ground)
    (haction : requested.isAction = true) (hground : TraceSpecPattern.Ground coverage ground)
    (hxy : coverage.covers allowed requested = true)
    (hyz : coverage.covers requested ground = true) : coverage.covers allowed ground = true := by
  refine covers_trans_of_isAction haction ?_ hxy hyz
  rintro a b c rfl rfl rfl s t w hs ht hw hst htw
  exact sameType_trans (ha s hs) (hr t ht) (hg w hw) (hground _ hw) hst htw

end EffectCoverage

namespace TraceSpecPattern
variable {coverage : EffectCoverage} {satisfiesSpec : TypeId → SymbolId → List TypeId → Bool}
  {pattern : TraceSpecPattern}

/-- The bounds of a pattern constrain no memory places, and what they say of a settled type is said
of every settled type it is assignable to. -/
structure StableBounds (coverage : EffectCoverage)
    (satisfiesSpec : TypeId → SymbolId → List TypeId → Bool) (pattern : TraceSpecPattern) :
    Prop where
  kind : ∀ bound ∈ pattern.argBounds, ∀ action, bound.target = .action action →
    coverage.argKind action bound.argIndex ≠ some .memoryPlace
  spec : ∀ bound ∈ pattern.argBounds, ∀ lhs rhs, Settled coverage.types lhs →
    Settled coverage.types rhs → coverage.sameType lhs rhs = true →
      satisfiesSpec lhs bound.specSymbol bound.specArgs = true →
        satisfiesSpec rhs bound.specSymbol bound.specArgs = true

theorem exists_type_of_argCovers {kind : Option EffectActionArgKind} {ty : TypeId}
    {z : EffectArgRef} (hkind : kind ≠ some .memoryPlace)
    (h : coverage.argCovers kind (.type ty) z = true) :
    ∃ other, z = .type other ∧ coverage.sameType ty other = true := by
  have hcov : coverage.effectArgCovers (.type ty) z = true := by
    rcases kind with _ | _ | _ | _ | _
    · exact h
    · exact h
    · exact (hkind rfl).elim
    · change coverage.staticResourcePathArgCovers (.type ty) z = true at h
      rw [EffectCoverage.staticResourcePathArgCovers_iff] at h
      rcases h with ⟨p, q, hp, -⟩ | ⟨h, -⟩
      · cases hp
      · exact h
    · exact h
  cases z with
  | type other => exact ⟨other, rfl, hcov⟩
  | _ => simp [EffectCoverage.effectArgCovers] at hcov

theorem boundsMatch_ground (hstable : pattern.StableBounds coverage satisfiesSpec)
    {allowed requested ground : Effect} (hr : coverage.SettledAction requested)
    (hg : coverage.SettledAction ground) (haction : requested.isAction = true)
    (hground : Ground coverage ground) (hxy : coverage.covers allowed requested = true)
    (hyz : coverage.covers requested ground = true)
    (h : pattern.boundsMatch satisfiesSpec allowed requested = true) :
    pattern.boundsMatch satisfiesSpec allowed ground = true := by
  cases allowed with
  | appliedAction x =>
    cases requested with
    | appliedAction y =>
      cases ground with
      | appliedAction z =>
        obtain ⟨hact, -⟩ := EffectCoverage.appliedActionCovers_iff.mp hxy
        obtain ⟨hact', hlen, -⟩ := EffectCoverage.appliedActionCovers_iff.mp hyz
        simp only [boundsMatch, boundTargetAndArgs, hact, hact', if_true, List.all_eq_true,
          List.mem_filter, beq_iff_eq, and_imp] at h ⊢
        intro bound hbound htarget
        have hmet := h bound hbound htarget
        rcases hy : y.args[bound.argIndex]? with _ | arg
        · simp [hy] at hmet
        · rw [hy] at hmet
          cases arg with
          | type ty =>
            obtain ⟨hi, -⟩ := List.getElem?_eq_some_iff.mp hy
            have hz : z.args[bound.argIndex]? = some z.args[bound.argIndex] :=
              List.getElem?_eq_getElem (hlen ▸ hi)
            obtain ⟨y', hy', hcov⟩ := EffectCoverage.exists_arg hyz hz
            cases hy.symm.trans hy'
            have hkind := hstable.kind bound hbound _ htarget
            rw [hact'] at hcov
            obtain ⟨other, hother, hsame⟩ := exists_type_of_argCovers hkind hcov
            rw [hother] at hz
            rw [hz]
            exact hstable.spec bound hbound ty other (hr ty (List.mem_of_getElem? hy))
              (hg other (List.mem_of_getElem? hz)) hsame hmet
          | _ => cases hmet
      | action => simp [EffectCoverage.covers] at hyz
      | _ => exact hground.elim
    | action => simp [EffectCoverage.covers] at hxy
    | _ => cases haction
  | _ => cases ground <;> exact h

/-- A pattern that matches a settled action matches its ground instances. -/
theorem matchesEffect_ground (hstable : pattern.StableBounds coverage satisfiesSpec)
    (hpattern : ∀ allowed ∈ pattern.row.effects, coverage.SettledAction allowed)
    {requested ground : Effect} (hr : coverage.SettledAction requested)
    (hg : coverage.SettledAction ground) (haction : requested.isAction = true)
    (hground : Ground coverage ground) (hcov : coverage.covers requested ground = true)
    (h : pattern.matchesEffect coverage satisfiesSpec requested = true) :
    pattern.matchesEffect coverage satisfiesSpec ground = true := by
  obtain ⟨allowed, hmem, hallowed, hbounds⟩ := of_decide_eq_true h
  refine decide_eq_true ⟨allowed, hmem, ?_, ?_⟩
  · exact EffectCoverage.covers_trans (hpattern allowed hmem) hr hg haction hground hallowed hcov
  · exact boundsMatch_ground hstable hr hg haction hground hallowed hcov hbounds

end TraceSpecPattern
end EtasFrontend.Effects
