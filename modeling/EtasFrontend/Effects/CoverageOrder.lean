import EtasFrontend.Effects.Instances
import EtasFrontend.Types.Reversible
import Mathlib.Data.List.Zip

/-! The order of effects that coverage gives: when it is a preorder, and between which types it is
symmetric. -/
namespace EtasFrontend.Effects
open EtasFrontend.Types Relation

namespace EffectCoverage
variable {coverage : EffectCoverage}

/-! Effects with type arguments, in one form. -/

/-- The tag and the arguments of an effect that is applied to types. -/
def parameters : Effect → Option (EffectTagId × List TypeId)
  | .error ty => some (errorTag, [ty])
  | .applied tag args => some (tag, args)
  | _ => none

/-- The single argument of a memory tag is a place. -/
def PlaceArgument (coverage : EffectCoverage) (tag : EffectTagId) (args : List TypeId) : Prop :=
  args.length = 1 ∧ coverage.registry.isMemoryTag tag = true

theorem not_isMemoryTag_errorTag : ¬ coverage.registry.isMemoryTag errorTag = true := by
  intro h
  have hcore : (coverage.registry.tags.get errorTag).bind EffectTag.core = some .memory :=
    beq_iff_eq.mp h
  obtain ⟨tag, hget, hcore⟩ := Option.bind_eq_some_iff.mp hcore
  have := (coverage.registry.filed errorTag tag hget).2 .memory hcore
  cases this

theorem memoryPlaceContains_iff {parent child : TypeId} :
    coverage.memoryPlaceContains parent child = true ↔
      ∃ p q, coverage.registry.memoryPlace parent = some p ∧
        coverage.registry.memoryPlace child = some q ∧ p.segments <+: q.segments := by
  unfold memoryPlaceContains EffectRegistry.memoryPlaceContains
  cases coverage.registry.memoryPlace parent with
  | none => simp
  | some p =>
    cases coverage.registry.memoryPlace child with
    | none => simp
    | some q => simp

theorem memoryPlaceContains_trans {x y z : TypeId} (hxy : coverage.memoryPlaceContains x y = true)
    (hyz : coverage.memoryPlaceContains y z = true) : coverage.memoryPlaceContains x z = true := by
  rw [memoryPlaceContains_iff] at hxy hyz ⊢
  obtain ⟨p, q, hp, hq, hpq⟩ := hxy
  obtain ⟨q', r, hq', hr, hqr⟩ := hyz
  cases hq.symm.trans hq'
  exact ⟨p, r, hp, hr, hpq.trans hqr⟩

theorem forall_zip_trans {α : Type} {R S T : α → α → Prop} {xs ys zs : List α}
    (hxy : xs.length = ys.length) (hyz : ys.length = zs.length) (h₁ : ∀ p ∈ xs.zip ys, R p.1 p.2)
    (h₂ : ∀ p ∈ ys.zip zs, S p.1 p.2)
    (h : ∀ x ∈ xs, ∀ y ∈ ys, ∀ z ∈ zs, R x y → S y z → T x z) : ∀ p ∈ xs.zip zs, T p.1 p.2 := by
  induction xs generalizing ys zs with
  | nil => simp
  | cons x xs ih =>
    obtain _ | ⟨y, ys⟩ := ys
    · cases hxy
    obtain _ | ⟨z, zs⟩ := zs
    · cases hyz
    obtain ⟨hr, hrs⟩ := List.forall_mem_cons.mp h₁
    obtain ⟨hs, hss⟩ := List.forall_mem_cons.mp h₂
    refine List.forall_mem_cons.mpr ⟨?_, ?_⟩
    · exact h x List.mem_cons_self y List.mem_cons_self z List.mem_cons_self hr hs
    · refine ih (by simpa using hxy) (by simpa using hyz) hrs hss fun a ha b hb c hc => ?_
      exact h a (List.mem_cons_of_mem _ ha) b (List.mem_cons_of_mem _ hb) c
        (List.mem_cons_of_mem _ hc)

theorem forall_zip_self {α : Type} {R : α → α → Prop} {xs : List α} (h : ∀ x ∈ xs, R x x) :
    ∀ p ∈ xs.zip xs, R p.1 p.2 := by
  induction xs with
  | nil => simp
  | cons x xs ih =>
    obtain ⟨hx, hxs⟩ := List.forall_mem_cons.mp h
    exact List.forall_mem_cons.mpr ⟨hx, ih hxs⟩

/-- Coverage of applied effects composes, where a memory tag is covered by itself only. -/
theorem appliedCovers_trans {s t w : EffectTagId} {xs ys zs : List TypeId}
    (hmemory : xs.length = 1 → coverage.registry.isMemoryTag t = true → s = t)
    (hsame : ∀ x ∈ xs, ∀ y ∈ ys, ∀ z ∈ zs, coverage.sameType x y = true →
      coverage.sameType y z = true → coverage.sameType x z = true)
    (hxy : coverage.appliedCovers s xs t ys = true) (hyz : coverage.appliedCovers t ys w zs = true) :
    coverage.appliedCovers s xs w zs = true := by
  rw [appliedCovers_iff] at hxy hyz ⊢
  obtain ⟨hext, hlen, hargs⟩ := hxy
  obtain ⟨hext', hlen', hargs'⟩ := hyz
  refine ⟨hext'.trans hext, hlen.trans hlen', ?_⟩
  by_cases hplace : xs.length = 1 ∧ coverage.registry.isMemoryTag s = true
  · rw [if_pos hplace] at hargs ⊢
    obtain ⟨rfl, hargs⟩ := hargs
    rw [if_pos ⟨hlen ▸ hplace.1, hplace.2⟩] at hargs'
    refine ⟨hargs'.1, ?_⟩
    let R (x y : TypeId) : Prop := coverage.memoryPlaceContains x y = true
    exact forall_zip_trans (R := R) (S := R) (T := R) hlen hlen' hargs hargs'.2
      fun _ _ _ _ _ _ h h' => memoryPlaceContains_trans h h'
  · rw [if_neg hplace] at hargs ⊢
    have hplace' : ¬ (ys.length = 1 ∧ coverage.registry.isMemoryTag t = true) := by
      rintro ⟨hone, hm⟩
      have hst := hmemory (hlen.trans hone) hm
      exact hplace ⟨hlen.trans hone, hst ▸ hm⟩
    rw [if_neg hplace'] at hargs'
    exact forall_zip_trans hlen hlen' hargs hargs' hsame

/-! Effects between which coverage is a preorder. -/

/-- A type that stands for no other, so that assignability to and from it composes. -/
def ComparableType (coverage : EffectCoverage) (ty : TypeId) : Prop :=
  Settled coverage.types ty ∧ ProperSupport coverage.types ty

def Registered (coverage : EffectCoverage) (ty : TypeId) : Prop :=
  (coverage.registry.memoryPlace ty).isSome = true

/-- The argument of the tag is compared in the same way as those of the tags it covers and of those
that cover it: the error tag has a form of its own, and a memory tag takes a place. -/
structure Standalone (coverage : EffectCoverage) (tag : EffectTagId) : Prop where
  overError : coverage.Extends errorTag tag → tag = errorTag
  underError : coverage.Extends tag errorTag → tag = errorTag
  overMemory : ∀ m, coverage.registry.isMemoryTag m = true → coverage.Extends m tag → tag = m

/-- Places are registered, and the path of a static resource is not empty. -/
def ComparableArg (coverage : EffectCoverage) (kind : Option EffectActionArgKind) :
    EffectArgRef → Prop
  | .type ty => coverage.ComparableType ty ∧ (kind = some .memoryPlace → coverage.Registered ty)
  | .path segments => (∃ ty, kind = some (.staticResourcePath ty)) → segments ≠ []
  | .wildcard | .string _ | .int _ => True

def Comparable (coverage : EffectCoverage) : Effect → Prop
  | .tag _ | .action _ | .var _ => True
  | .error ty => coverage.ComparableType ty
  | .applied tag args =>
    (∀ ty ∈ args, coverage.ComparableType ty) ∧ (args.length = 1 → coverage.Standalone tag) ∧
      (coverage.PlaceArgument tag args → ∀ ty ∈ args, coverage.Registered ty)
  | .appliedAction action => ∀ arg index, (arg, index) ∈ action.args.zipIdx →
      coverage.ComparableArg (coverage.argKind action.action index) arg

theorem ComparableType.sameType_trans {x y z : TypeId} (hx : coverage.ComparableType x)
    (hy : coverage.ComparableType y) (hz : coverage.ComparableType z)
    (hxy : coverage.sameType x y = true) (hyz : coverage.sameType y z = true) :
    coverage.sameType x z = true := by
  rw [sameType_iff] at hxy hyz ⊢
  exact TypeRelation.assignable_trans_proper hx.1 hy.1 hz.1 hy.2 hxy hyz

section
variable (hdepth : 0 < coverage.depth)
include hdepth

theorem sameType_refl {ty : TypeId}
    (h : Types.Ground coverage.types ty) : coverage.sameType ty ty = true := by
  rw [sameType_iff, TypeRelation.assignable_iff]
  obtain ⟨t, hget, -⟩ := h.node
  obtain ⟨n, hn⟩ := Nat.exists_eq_succ_of_ne_zero hdepth.ne'
  rw [hn]
  exact Or.inr (Or.inr ((Unifier.unifies_succ_iff h h hget hget).mpr (Or.inl rfl)))

theorem argCovers_refl {kind : Option EffectActionArgKind}
    {arg : EffectArgRef} (h : coverage.ComparableArg kind arg) :
    coverage.argCovers kind arg arg = true := by
  have heffect : coverage.effectArgCovers arg arg = true := by
    cases arg with
    | type ty => exact sameType_refl hdepth h.1.1.ground
    | wildcard => rfl
    | path | string | int => simp [effectArgCovers]
  rcases kind with _ | _ | _ | _ | _
  · exact heffect
  · exact heffect
  · refine memoryPlaceArgContains_iff.mpr ?_
    cases arg with
    | wildcard => exact Or.inl rfl
    | path segments => exact Or.inr (Or.inl ⟨segments, segments, rfl, rfl, List.prefix_rfl⟩)
    | type ty =>
      obtain ⟨place, hplace⟩ := Option.isSome_iff_exists.mp (h.2 rfl)
      have hsegments : coverage.memoryPlaceArgSegments (.type ty) = some place.segments := by
        rw [memoryPlaceArgSegments, hplace]
        rfl
      exact Or.inr (Or.inl ⟨_, _, hsegments, hsegments, List.prefix_rfl⟩)
    | string text => exact Or.inr (Or.inr ⟨rfl, Or.inl ⟨text, rfl⟩⟩)
    | int text => exact Or.inr (Or.inr ⟨rfl, Or.inr ⟨text, rfl⟩⟩)
  · refine staticResourcePathArgCovers_iff.mpr ?_
    cases arg with
    | path segments =>
      have hne : segments ≠ [] := h ⟨_, rfl⟩
      exact Or.inl ⟨segments, segments, rfl, rfl, pathArgMatches_iff.mpr ⟨hne, List.suffix_rfl⟩⟩
    | _ => exact Or.inr ⟨heffect, fun _ _ heq => by cases heq⟩
  · exact heffect

theorem appliedActionCovers_refl {action : ActionInstanceRef}
    (h : coverage.Comparable (.appliedAction action)) :
    coverage.appliedActionCovers action action = true := by
  refine appliedActionCovers_iff.mpr ⟨rfl, rfl, ?_⟩
  rintro ⟨x, y⟩ index hmem
  rw [List.mk_mem_zipIdx_iff_getElem?, List.getElem?_zip_eq_some] at hmem
  cases hmem.1.symm.trans hmem.2
  exact argCovers_refl hdepth (h x index (List.mk_mem_zipIdx_iff_getElem?.mpr hmem.1))

theorem appliedCovers_refl {tag : EffectTagId} {args : List TypeId}
    (h : coverage.Comparable (.applied tag args)) :
    coverage.appliedCovers tag args tag args = true := by
  obtain ⟨hargs, -, hplaces⟩ := h
  refine appliedCovers_iff.mpr ⟨.refl, rfl, ?_⟩
  split_ifs with hplace
  · refine ⟨rfl, forall_zip_self (R := fun x y => coverage.memoryPlaceContains x y = true) ?_⟩
    intro ty hty
    obtain ⟨place, hget⟩ := Option.isSome_iff_exists.mp (hplaces hplace ty hty)
    exact memoryPlaceContains_iff.mpr ⟨place, place, hget, hget, List.prefix_rfl⟩
  · exact forall_zip_self (R := fun x y => coverage.sameType x y = true)
      fun ty hty => sameType_refl hdepth (hargs ty hty).1.ground

theorem Comparable.covers_refl {e : Effect}
    (h : coverage.Comparable e) : coverage.covers e e = true := by
  cases e with
  | tag tag => exact tagCovers_iff.mpr .refl
  | action action => exact beq_self_eq_true action
  | appliedAction action => exact appliedActionCovers_refl hdepth h
  | applied tag args => exact appliedCovers_refl hdepth h
  | var v => exact beq_self_eq_true (Effect.var v)
  | error ty => exact sameType_refl hdepth h.1.ground

end

theorem covers_parameters {a b : Effect} {p q : EffectTagId × List TypeId}
    (ha : coverage.Comparable a) (hb : coverage.Comparable b) (hp : parameters a = some p)
    (hq : parameters b = some q) :
    coverage.covers a b = coverage.appliedCovers p.1 p.2 q.1 q.2 := by
  have hsingle : ∀ {s t : EffectTagId} {x y : TypeId},
      ¬ coverage.registry.isMemoryTag s = true →
        coverage.appliedCovers s [x] t [y] = (coverage.tagCovers s t && coverage.sameType x y) := by
    intro s t x y hs
    unfold appliedCovers
    by_cases ht : coverage.tagCovers s t = true
    · simp [ht, hs]
    · simp [ht]
  have hlength : ∀ {s t : EffectTagId} {xs ys : List TypeId}, xs.length ≠ ys.length →
      coverage.appliedCovers s xs t ys = false := by
    intro s t xs ys hne
    unfold appliedCovers
    rw [if_pos (Or.inr hne)]
  cases a with
  | error x =>
    cases hp
    cases b with
    | error y =>
      cases hq
      have hself : coverage.tagCovers errorTag errorTag = true := tagCovers_iff.mpr .refl
      rw [hsingle not_isMemoryTag_errorTag, hself]
      rfl
    | applied t ys =>
      cases hq
      obtain _ | ⟨y, _ | ⟨y', ys⟩⟩ := ys
      · rw [hlength (by simp)]
        simp [covers]
      · -- an effect below the error tag has a form of its own
        have htag : coverage.tagCovers errorTag t = (t == errorTag) := by
          rw [Bool.eq_iff_iff, tagCovers_iff, beq_iff_eq]
          exact ⟨(hb.2.1 rfl).underError, fun h => h ▸ .refl⟩
        rw [hsingle not_isMemoryTag_errorTag, htag]
        rfl
      · rw [hlength (by simp)]
        simp [covers]
    | _ => cases hq
  | applied s xs =>
    cases hp
    cases b with
    | error y =>
      cases hq
      obtain _ | ⟨x, _ | ⟨x', xs⟩⟩ := xs
      · rw [hlength (by simp)]
        simp [covers]
      · have htag : coverage.tagCovers s errorTag = (s == errorTag) := by
          rw [Bool.eq_iff_iff, tagCovers_iff, beq_iff_eq]
          exact ⟨(ha.2.1 rfl).overError, fun h => h ▸ .refl⟩
        by_cases hs : s = errorTag
        · subst hs
          rw [hsingle not_isMemoryTag_errorTag, htag]
          rfl
        · have hcovers : coverage.appliedCovers s [x] errorTag [y] = false := by
            unfold appliedCovers
            rw [htag, if_pos (Or.inl (by simpa using hs))]
          rw [hcovers]
          simp [covers, hs]
      · rw [hlength (by simp)]
        simp [covers]
    | applied t ys =>
      cases hq
      rfl
    | _ => cases hq
  | _ => cases hp

theorem parameters_of_covers {a b : Effect} (h : coverage.covers a b = true)
    (ha : (parameters a).isSome = true) : (parameters b).isSome = true := by
  cases a with
  | error | applied => cases b <;> first
    | rfl
    | simp [covers] at h
  | _ => cases ha

theorem Comparable.types {e : Effect} {p : EffectTagId × List TypeId} (h : coverage.Comparable e)
    (he : parameters e = some p) : ∀ ty ∈ p.2, coverage.ComparableType ty := by
  cases e with
  | error ty =>
    cases he
    intro ty' hty'
    cases List.mem_singleton.mp hty'
    exact h
  | applied tag args =>
    cases he
    exact h.1
  | _ => cases he

theorem Comparable.memory_eq {a b : Effect} {p q : EffectTagId × List TypeId}
    (ha : coverage.Comparable a) (hb : coverage.Comparable b) (hp : parameters a = some p)
    (hq : parameters b = some q) (hext : coverage.Extends q.1 p.1) (hlen : p.2.length = q.2.length)
    (hone : p.2.length = 1) (hm : coverage.registry.isMemoryTag q.1 = true) : p.1 = q.1 := by
  cases b with
  | error y =>
    cases hq
    exact (not_isMemoryTag_errorTag hm).elim
  | applied t ys =>
    cases hq
    cases a with
    | error x =>
      cases hp
      exact ((hb.2.1 (hlen.symm.trans hone)).underError hext).symm
    | applied s xs =>
      cases hp
      exact (ha.2.1 hone).overMemory t hm hext
    | _ => cases hp
  | _ => cases hq

theorem Comparable.covers_trans_parameters {a b c : Effect} {p q r : EffectTagId × List TypeId}
    (ha : coverage.Comparable a) (hb : coverage.Comparable b) (hc : coverage.Comparable c)
    (hp : parameters a = some p) (hq : parameters b = some q) (hr : parameters c = some r)
    (hab : coverage.covers a b = true) (hbc : coverage.covers b c = true) :
    coverage.covers a c = true := by
  rw [covers_parameters ha hb hp hq] at hab
  rw [covers_parameters hb hc hq hr] at hbc
  rw [covers_parameters ha hc hp hr]
  obtain ⟨hext, hlen, -⟩ := appliedCovers_iff.mp hab
  refine appliedCovers_trans (fun hone hm => ?_) (fun x hx y hy z hz => ?_) hab hbc
  · exact ha.memory_eq hb hp hq hext hlen hone hm
  · exact (ha.types hp x hx).sameType_trans (hb.types hq y hy) (hc.types hr z hz)

theorem Comparable.type_arg {action : ActionInstanceRef}
    (h : coverage.Comparable (.appliedAction action)) {ty : TypeId}
    (hty : .type ty ∈ action.args) : coverage.ComparableType ty := by
  obtain ⟨index, hindex⟩ := List.mem_iff_getElem?.mp hty
  exact (h (.type ty) index (List.mk_mem_zipIdx_iff_getElem?.mpr hindex)).1

theorem Comparable.covers_trans {a b c : Effect} (ha : coverage.Comparable a)
    (hb : coverage.Comparable b) (hc : coverage.Comparable c) (hab : coverage.covers a b = true)
    (hbc : coverage.covers b c = true) : coverage.covers a c = true := by
  by_cases haction : b.isAction = true
  · refine covers_trans_of_isAction haction ?_ hab hbc
    rintro x y z rfl rfl rfl s t w hs ht hw
    exact (ha.type_arg hs).sameType_trans (hb.type_arg ht) (hc.type_arg hw)
  by_cases hparams : (parameters b).isSome = true
  · obtain ⟨q, hq⟩ := Option.isSome_iff_exists.mp hparams
    obtain ⟨r, hr⟩ := Option.isSome_iff_exists.mp (parameters_of_covers hbc hparams)
    cases hp : parameters a with
    | some p => exact ha.covers_trans_parameters hb hc hp hq hr hab hbc
    | none =>
      -- a tag covers what has no arguments
      cases a with
      | tag s =>
        cases b with
        | applied t ys =>
          obtain ⟨hnil, hext⟩ : ys = [] ∧ coverage.tagCovers s t = true := by
            simpa [covers] using hab
          subst hnil
          cases c with
          | applied w zs =>
            obtain ⟨hext', hlen, -⟩ := appliedCovers_iff.mp hbc
            have hzs : zs = [] := List.eq_nil_of_length_eq_zero hlen.symm
            subst hzs
            have hcovers : coverage.tagCovers s w = true :=
              tagCovers_iff.mpr (hext'.trans (tagCovers_iff.mp hext))
            simpa [covers] using hcovers
          | _ => simp [covers] at hbc
        | error y => simp [covers] at hab
        | _ => cases hparams
      | error | applied => cases hp
      | _ =>
        cases b with
        | error | applied => simp [covers] at hab
        | _ => cases hparams
  cases b with
  | tag t =>
    cases a with
    | tag s =>
      have hext := tagCovers_iff.mp hab
      have hcompose : ∀ {w : EffectTagId}, coverage.tagCovers t w = true →
          coverage.tagCovers s w = true :=
        fun h => tagCovers_iff.mpr ((tagCovers_iff.mp h).trans hext)
      cases c with
      | tag w => exact hcompose hbc
      | action action => exact hcompose hbc
      | appliedAction action => exact hcompose hbc
      | applied w zs =>
        obtain ⟨hnil, htag⟩ : zs = [] ∧ coverage.tagCovers t w = true := by
          simpa [covers] using hbc
        simpa [covers, hnil] using hcompose htag
      | _ => simp [covers] at hbc
    | _ => simp [covers] at hab
  | var v =>
    have heq : c = .var v := by
      cases c <;> simp [covers] at hbc
      rw [hbc]
    rw [heq]
    exact hab
  | action | appliedAction => exact (haction rfl).elim
  | error | applied => exact (hparams rfl).elim

/-- Coverage of comparable effects is a preorder. -/
theorem covers_preorder (coverage : EffectCoverage) (hdepth : 0 < coverage.depth) :
    (∀ e, coverage.Comparable e → coverage.covers e e = true) ∧
    ∀ a b c, coverage.Comparable a → coverage.Comparable b → coverage.Comparable c →
      coverage.covers a b = true → coverage.covers b c = true → coverage.covers a c = true :=
  ⟨fun _ h => h.covers_refl hdepth, fun _ _ _ ha hb hc hab hbc => ha.covers_trans hb hc hab hbc⟩

/-- The error tag with a child, and integer types with a literal. -/
def literalCoverage : EffectCoverage where
  registry := (((EffectRegistry.empty.registerCore .error).registerTag 1024 "Child").addExtension
    1024 errorTag)
  types := { TypeStore.new with types := [.primitive .i32, .integerLiteral "1", .primitive .u8] }
  depth := 3

theorem covers_preorder_error :
    literalCoverage.covers (.error 0) (.error 0) = true ∧
      literalCoverage.covers (.tag errorTag) (.applied 1024 []) = true :=
  have hdepth : 0 < literalCoverage.depth := by decide
  have hint : literalCoverage.Comparable (.error 0) :=
    ⟨Settled.of_leaf (t := .primitive .i32) rfl rfl trivial, fun _ h => by cases h⟩
  have happlied : literalCoverage.Comparable (.applied 1024 []) :=
    ⟨fun _ h => (by cases h), fun h => (by cases h), fun h => (by cases h.1)⟩
  ⟨(covers_preorder literalCoverage hdepth).1 (.error 0) hint,
    (covers_preorder literalCoverage hdepth).2 (.tag errorTag) (.tag 1024) (.applied 1024 [])
      trivial trivial happlied (by decide) (by decide)⟩

/-- Through a literal, and through the applied form of an error, coverage does not compose. -/
theorem covers_not_trans :
    (literalCoverage.covers (.error 0) (.error 1) = true ∧
      literalCoverage.covers (.error 1) (.error 2) = true ∧
      literalCoverage.covers (.error 0) (.error 2) = false) ∧
    literalCoverage.covers (.error 0) (.applied errorTag [0]) = true ∧
      literalCoverage.covers (.applied errorTag [0]) (.applied 1024 [0]) = true ∧
      literalCoverage.covers (.error 0) (.applied 1024 [0]) = false := by
  decide

/-! Types between which coverage is symmetric. -/

theorem sameType_comm {x y : TypeId} (h : Interchangeable coverage.types x y) :
    coverage.sameType x y = coverage.sameType y x := by
  rw [Bool.eq_iff_iff, sameType_iff, sameType_iff]
  exact ⟨TypeRelation.assignable_symm h, TypeRelation.assignable_symm h.symm⟩

theorem covers_applied_iff {tag : EffectTagId} {xs ys : List TypeId}
    (hplace : ¬ coverage.PlaceArgument tag xs) :
    coverage.covers (.applied tag xs) (.applied tag ys) = true ↔
      xs.length = ys.length ∧
        ∀ p ∈ xs.zip ys, coverage.covers (.error p.1) (.error p.2) = true := by
  change coverage.appliedCovers tag xs tag ys = true ↔ _
  unfold PlaceArgument at hplace
  rw [appliedCovers_iff, if_neg hplace]
  exact ⟨fun h => h.2, fun h => ⟨.refl, h⟩⟩

/-- Between interchangeable types, an error covers another exactly when it is covered by it, and so
do applications of a tag whose arguments are interchangeable place by place. -/
theorem covers_comm (coverage : EffectCoverage) :
    (∀ x y, Interchangeable coverage.types x y →
      coverage.covers (.error x) (.error y) = coverage.covers (.error y) (.error x)) ∧
    ∀ tag xs ys, ¬ coverage.PlaceArgument tag xs →
      (coverage.covers (.applied tag xs) (.applied tag ys) = true ↔
        xs.length = ys.length ∧
          ∀ p ∈ xs.zip ys, coverage.covers (.error p.1) (.error p.2) = true) ∧
      ((∀ p ∈ xs.zip ys, Interchangeable coverage.types p.1 p.2) →
        coverage.covers (.applied tag xs) (.applied tag ys) =
          coverage.covers (.applied tag ys) (.applied tag xs)) := by
  have hcomm : ∀ x y, Interchangeable coverage.types x y →
      coverage.covers (.error x) (.error y) = coverage.covers (.error y) (.error x) :=
    fun x y h => sameType_comm h
  refine ⟨hcomm, fun tag xs ys hplace => ⟨covers_applied_iff hplace, fun hsame => ?_⟩⟩
  rw [Bool.eq_iff_iff, covers_applied_iff hplace]
  by_cases hlen : xs.length = ys.length
  · have hplace' : ¬ coverage.PlaceArgument tag ys := by
      unfold PlaceArgument at hplace ⊢
      rwa [← hlen]
    rw [covers_applied_iff hplace', and_iff_right hlen, and_iff_right hlen.symm]
    have hswap : ∀ p : TypeId × TypeId, p ∈ xs.zip ys ↔ p.swap ∈ ys.zip xs := by
      intro p
      rw [← List.zip_swap ys xs, List.mem_map]
      constructor
      · rintro ⟨q, hq, rfl⟩
        rwa [Prod.swap_swap]
      · exact fun h => ⟨p.swap, h, Prod.swap_swap p⟩
    constructor
    · intro h p hp
      have hp' : p.swap ∈ xs.zip ys := (hswap p.swap).mpr (by rwa [Prod.swap_swap])
      rw [← h p.swap hp']
      exact (hcomm p.swap.1 p.swap.2 (hsame p.swap hp')).symm
    · intro h p hp
      rw [hcomm p.1 p.2 (hsame p hp)]
      exact h p.swap ((hswap p).mp hp)
  · refine iff_of_false (fun h => hlen h.1) fun h => ?_
    exact hlen ((appliedCovers_iff.mp h).2.1).symm

/-- Two list types, and the types that are told apart. -/
def listCoverage : EffectCoverage where
  registry := (EffectRegistry.empty.registerCore .memory).registerMemoryPlaces
    [(5, .memoryPlace ⟨["Notes"]⟩), (6, .memoryPlace ⟨["Notes", "Old"]⟩)]
  types := { TypeStore.new with
    types := [.primitive .string, .list 0, .list 0, .primitive .never, .primitive .i32,
      .memoryPlace ⟨["Notes"]⟩, .memoryPlace ⟨["Notes", "Old"]⟩] }
  depth := 3

theorem listCoverage_interchangeable : Interchangeable listCoverage.types 1 2 := by
  have hstring : Reversible listCoverage.types 0 :=
    .of_leaf (t := .primitive .string) rfl rfl trivial
  have hlist : ∀ b, listCoverage.types.get b = some (.list 0) → Reversible listCoverage.types b := by
    intro b hb c hc
    rcases ReflTransGen.cases_head hc with rfl | ⟨d, ⟨t, hget, hd⟩, hrest⟩
    · exact ⟨.list 0, hb, trivial⟩
    · cases hb.symm.trans hget
      cases List.mem_singleton.mp hd
      exact hstring c hrest
  exact ⟨hlist 1 rfl, hlist 2 rfl, by decide, by decide, by decide⟩

theorem covers_comm_list :
    listCoverage.covers (.error 1) (.error 2) = listCoverage.covers (.error 2) (.error 1) ∧
      listCoverage.covers (.applied 1024 [1, 0]) (.applied 1024 [2, 0]) = true :=
  have hplace : ¬ listCoverage.PlaceArgument 1024 [1, 0] := fun h => by cases h.1
  ⟨(covers_comm listCoverage).1 1 2 listCoverage_interchangeable,
    ((covers_comm listCoverage).2 1024 [1, 0] [2, 0] hplace).1.mpr (by decide)⟩

/-- `Never` covers what does not cover it, and so does the place of a memory tag. -/
theorem covers_never :
    Types.Ground listCoverage.types 3 ∧ Types.Ground listCoverage.types 4 ∧
      listCoverage.covers (.error 3) (.error 4) = true ∧
      listCoverage.covers (.error 4) (.error 3) = false ∧
      listCoverage.covers (.applied 4 [5]) (.applied 4 [6]) = true ∧
      listCoverage.covers (.applied 4 [6]) (.applied 4 [5]) = false :=
  ⟨(Settled.of_leaf (t := .primitive .never) rfl rfl trivial).ground,
    (Settled.of_leaf (t := .primitive .i32) rfl rfl trivial).ground, by decide⟩

end EffectCoverage
end EtasFrontend.Effects
