import EtasFrontend.Effects.Coverage

/-! When rows that are reported disjoint cover no common effect. -/
namespace EtasFrontend.Effects
open EtasFrontend.Types Relation

namespace EffectCoverage
variable {coverage : EffectCoverage}

/-! Tags. -/

/-- `child` is `ancestor` or extends it, through any number of declarations. -/
def Extends (coverage : EffectCoverage) (child ancestor : EffectTagId) : Prop :=
  ReflTransGen (fun a b => b ∈ coverage.registry.extensions.parentsOf a) child ancestor

theorem tagExtends_iff {child ancestor : EffectTagId} :
    coverage.registry.tagExtends child ancestor = true ↔ coverage.Extends child ancestor :=
  ExtensionGraph.extendsTag_iff ..

theorem tagCovers_iff {allowed actual : EffectTagId} :
    coverage.tagCovers allowed actual = true ↔ coverage.Extends actual allowed := by
  rw [tagCovers, Bool.or_eq_true, beq_iff_eq, tagExtends_iff]
  constructor
  · rintro (rfl | h)
    · exact .refl
    · exact h
  · exact Or.inr

theorem tagsApart_iff {left right : EffectTagId} :
    coverage.tagsApart left right = true ↔
      ¬ coverage.Extends left right ∧ ¬ coverage.Extends right left := by
  rw [tagsApart, Bool.and_eq_true, Bool.and_eq_true, bne_iff_ne, Bool.not_eq_true',
    Bool.not_eq_true', ← Bool.not_eq_true, ← Bool.not_eq_true, tagExtends_iff, tagExtends_iff]
  constructor
  · rintro ⟨⟨-, h⟩, h'⟩
    exact ⟨h, h'⟩
  · rintro ⟨h, h'⟩
    refine ⟨⟨?_, h⟩, h'⟩
    rintro rfl
    exact h .refl

/-- The tag a member belongs to, registered or not. -/
def memberTag : Effect → Option EffectTagId
  | .tag tag | .applied tag _ => some tag
  | .action action => some action.tag
  | .appliedAction action => some action.action.tag
  | .error _ => some errorTag
  | .var _ => none

variable {tag : EffectTagId}

theorem memberTag_of_tagOf {effect : Effect}
    (h : coverage.tagOf effect = some tag) : memberTag effect = some tag := by
  unfold tagOf at h
  obtain ⟨t, ht, hn⟩ := Option.bind_eq_some_iff.mp h
  obtain ⟨-, -, rfl⟩ := Option.map_eq_some_iff.mp hn
  cases effect with
  | tag | applied => exact ht
  | action | appliedAction =>
    obtain ⟨-, -, rfl⟩ := Option.map_eq_some_iff.mp ht
    rfl
  | var => cases ht
  | error ty => rw [EffectRegistry.tagByCore_eq ht]; rfl

/-- Both rows are closed, and the registered tags of their members extend one another in no
direction. -/
def Unrelated (coverage : EffectCoverage) (left right : EffectRow) : Prop :=
  left.openVar = none ∧ right.openVar = none ∧ ∀ a ∈ left.effects, ∃ s, coverage.tagOf a = some s ∧
    ∀ b ∈ right.effects, ∃ t, coverage.tagOf b = some t ∧
      ¬ coverage.Extends s t ∧ ¬ coverage.Extends t s

theorem rowsDisjoint_iff {left right : EffectRow} :
    coverage.rowsDisjoint left right = true ↔ coverage.Unrelated left right := by
  unfold rowsDisjoint Unrelated
  cases left.openVar <;> cases right.openVar <;>
    simp [Option.any_eq_true, tagsApart_iff]

theorem appliedActionCovers_iff {allowed actual : ActionInstanceRef} :
    coverage.appliedActionCovers allowed actual = true ↔
      allowed.action = actual.action ∧ allowed.args.length = actual.args.length ∧
        ∀ args index, (args, index) ∈ (allowed.args.zip actual.args).zipIdx →
          coverage.argCovers (coverage.argKind allowed.action index) args.1 args.2 = true := by
  unfold appliedActionCovers
  split_ifs with h
  · refine iff_of_false nofun ?_
    rintro ⟨ha, hl, -⟩
    exact h.elim (absurd ha) (absurd hl)
  · rw [not_or, not_not, not_not] at h
    simp only [List.all_eq_true, Prod.forall, h.1, h.2, true_and]

/-- An applied effect covers only applied effects with as many arguments; one of a memory tag only
its own tag. -/
theorem appliedCovers_iff {tag actual : EffectTagId} {args actualArgs : List TypeId} :
    coverage.appliedCovers tag args actual actualArgs = true ↔
      coverage.Extends actual tag ∧ args.length = actualArgs.length ∧
        if args.length = 1 ∧ coverage.registry.isMemoryTag tag = true then
          tag = actual ∧ ∀ p ∈ args.zip actualArgs, coverage.memoryPlaceContains p.1 p.2 = true
        else ∀ p ∈ args.zip actualArgs, coverage.sameType p.1 p.2 = true := by
  unfold appliedCovers
  rw [← tagCovers_iff]
  by_cases h : coverage.tagCovers tag actual = true ∧ args.length = actualArgs.length
  · obtain ⟨ht, hl⟩ := h
    rw [if_neg (by simp [ht, hl])]
    simp only [ht, hl, true_and]
    split
    next a b =>
      by_cases hm : coverage.registry.isMemoryTag tag = true
      · simp [hm]
      · simp [hm]
    next hne =>
      have hlen : ¬ (actualArgs.length = 1) := by
        intro h1
        obtain ⟨b, rfl⟩ := List.length_eq_one_iff.mp h1
        obtain ⟨a, rfl⟩ := List.length_eq_one_iff.mp hl
        exact hne a b rfl rfl
      simp [hlen]
  · rw [if_pos (by rw [not_and_or] at h; simpa using h)]
    refine iff_of_false nofun ?_
    rintro ⟨ht, hl, -⟩
    exact h ⟨ht, hl⟩

theorem covers_extends {allowed actual : Effect}
    (h : coverage.covers allowed actual = true) (ht : memberTag allowed = some tag) :
    ∃ z, memberTag actual = some z ∧ coverage.Extends z tag := by
  unfold covers at h
  split at h <;> try cases ht
  case h_1 => exact ⟨_, rfl, tagCovers_iff.mp h⟩
  case h_2 => exact ⟨_, congrArg (fun a : ActionRef => some a.tag) (beq_iff_eq.mp h).symm, .refl⟩
  case h_3 => exact ⟨_, congrArg (fun a : ActionRef => some a.tag) (beq_iff_eq.mp h).symm, .refl⟩
  case h_4 => exact ⟨_, rfl, tagCovers_iff.mp h⟩
  case h_5 => exact ⟨_, rfl, tagCovers_iff.mp h⟩
  case h_6 => exact ⟨_, rfl, .refl⟩
  case h_7 =>
    exact ⟨_, congrArg (fun a : ActionRef => some a.tag) (appliedActionCovers_iff.mp h).1.symm, .refl⟩
  case h_8 => exact ⟨_, rfl, (appliedCovers_iff.mp h).1⟩
  case h_9 => exact ⟨_, rfl, tagCovers_iff.mp (Bool.and_eq_true_iff.mp h).2⟩
  case h_10 =>
    rw [beq_iff_eq.mp (Bool.and_eq_true_iff.mp h).1]
    exact ⟨_, rfl, .refl⟩
  case h_11 =>
    refine ⟨_, rfl, ?_⟩
    rw [beq_iff_eq.mp (Bool.and_eq_true_iff.mp h).1]
    exact .refl
  case h_12 =>
    rw [← beq_iff_eq.mp h]
    exact ⟨tag, ht, .refl⟩

/-- Members that cover effects of other tags than their own. -/
def coversDescendants : Effect → Bool
  | .tag _ | .applied _ _ => true
  | _ => false

theorem covers_memberTag {allowed actual : Effect} (h : coverage.covers allowed actual = true)
    (hd : coversDescendants allowed = false) : memberTag actual = memberTag allowed := by
  unfold covers at h
  split at h <;> try cases hd
  case h_2 => rw [beq_iff_eq.mp h]
  case h_3 => exact congrArg (fun a : ActionRef => some a.tag) (beq_iff_eq.mp h).symm
  case h_6 => rfl
  case h_7 => exact congrArg (fun a : ActionRef => some a.tag) (appliedActionCovers_iff.mp h).1.symm
  case h_11 => exact congrArg some (beq_iff_eq.mp (Bool.and_eq_true_iff.mp h).1)
  case h_12 => rw [beq_iff_eq.mp h]

/-- A tag below both. -/
def CommonDescendant (coverage : EffectCoverage) (left right : EffectTagId) : Prop :=
  ∃ z, coverage.Extends z left ∧ coverage.Extends z right

/-- Both are tags, plain or applied, with a common descendant; applied ones have as many arguments
and, pairwise, a type that both accept. -/
def Clash (coverage : EffectCoverage) : Effect → Effect → Prop
  | .tag x, .tag y => coverage.CommonDescendant x y
  | .tag x, .applied y ys => ys = [] ∧ coverage.CommonDescendant x y
  | .applied x xs, .tag y => xs = [] ∧ coverage.CommonDescendant x y
  | .applied x xs, .applied y ys => coverage.CommonDescendant x y ∧ xs.length = ys.length ∧
      ¬ (xs.length = 1 ∧ (coverage.registry.isMemoryTag x = true ∨
        coverage.registry.isMemoryTag y = true)) ∧
      ∀ p ∈ xs.zip ys, ∃ t, coverage.sameType p.1 t = true ∧ coverage.sameType p.2 t = true
  | _, _ => False

private theorem exists_common_args {same : TypeId → TypeId → Bool} {xs ys : List TypeId}
    (hl : xs.length = ys.length)
    (h : ∀ p ∈ xs.zip ys, ∃ t, same p.1 t = true ∧ same p.2 t = true) :
    ∃ ts, xs.length = ts.length ∧ (∀ p ∈ xs.zip ts, same p.1 p.2 = true) ∧
      ∀ p ∈ ys.zip ts, same p.1 p.2 = true := by
  induction xs generalizing ys with
  | nil =>
    cases List.length_eq_zero_iff.mp hl.symm
    exact ⟨[], rfl, nofun, nofun⟩
  | cons x xs ih =>
    obtain _ | ⟨y, ys⟩ := ys
    · cases hl
    obtain ⟨t, hx, hy⟩ := h (x, y) List.mem_cons_self
    obtain ⟨ts, hlen, hxs, hys⟩ := ih (Nat.succ.inj hl) fun p hp => h p (List.mem_cons_of_mem _ hp)
    refine ⟨t :: ts, congrArg Nat.succ hlen, fun p hp => ?_, fun p hp => ?_⟩
    · rcases List.mem_cons.mp hp with rfl | hp
      · exact hx
      · exact hxs p hp
    · rcases List.mem_cons.mp hp with rfl | hp
      · exact hy
      · exact hys p hp

theorem Clash.exists_covered {a b : Effect} (h : coverage.Clash a b) :
    ∃ e, coverage.covers a e = true ∧ coverage.covers b e = true := by
  unfold Clash at h
  split at h
  next x y =>
    obtain ⟨z, hx, hy⟩ := h
    exact ⟨.tag z, tagCovers_iff.mpr hx, tagCovers_iff.mpr hy⟩
  next x y ys =>
    obtain ⟨rfl, z, hx, hy⟩ := h
    exact ⟨.applied z [], tagCovers_iff.mpr hx, appliedCovers_iff.mpr ⟨hy, rfl, by simp⟩⟩
  next x xs y =>
    obtain ⟨rfl, z, hx, hy⟩ := h
    exact ⟨.applied z [], appliedCovers_iff.mpr ⟨hx, rfl, by simp⟩, tagCovers_iff.mpr hy⟩
  next x xs y ys =>
    obtain ⟨⟨z, hx, hy⟩, hl, hm, hargs⟩ := h
    obtain ⟨ts, hts, hxs, hys⟩ := exists_common_args hl hargs
    refine ⟨.applied z ts, appliedCovers_iff.mpr ⟨hx, hts, ?_⟩,
      appliedCovers_iff.mpr ⟨hy, hl.symm.trans hts, ?_⟩⟩
    · rw [if_neg (fun h => hm ⟨h.1, Or.inl h.2⟩)]
      exact hxs
    · rw [if_neg (fun h => hm ⟨hl.trans h.1, Or.inr h.2⟩)]
      exact hys
  next => exact h.elim

theorem covers_applied {args : List TypeId} {e : Effect}
    (h : coverage.covers (.applied tag args) e = true) :
    (∃ z zs, e = .applied z zs ∧ coverage.appliedCovers tag args z zs = true) ∨
      ∃ ty, e = .error ty ∧ tag = errorTag := by
  cases e with
  | applied z zs => exact Or.inl ⟨z, zs, rfl, h⟩
  | error ty =>
    refine Or.inr ⟨ty, rfl, ?_⟩
    rcases args with _ | ⟨arg, _ | ⟨arg', rest⟩⟩
    · simp [covers] at h
    · exact beq_iff_eq.mp (Bool.and_eq_true_iff.mp h).1
    · simp [covers] at h
  | tag | action | appliedAction | var => simp [covers] at h

theorem args_nil_of_covers {x y : EffectTagId} {ys : List TypeId} {e : Effect}
    (ha : coverage.covers (.tag x) e = true) (hb : coverage.covers (.applied y ys) e = true) :
    ys = [] := by
  rcases covers_applied hb with ⟨z, zs, rfl, hc⟩ | ⟨ty, rfl, -⟩
  · have hzs : zs = [] := List.isEmpty_iff.mp (Bool.and_eq_true_iff.mp ha).1
    rw [← List.length_eq_zero_iff, (appliedCovers_iff.mp hc).2.1, hzs]
    rfl
  · simp [covers] at ha

private theorem clash_applied {x y : EffectTagId} {xs ys : List TypeId} {e : Effect}
    (hxy : ¬ coverage.Extends x y) (hyx : ¬ coverage.Extends y x)
    (ha : coverage.covers (.applied x xs) e = true)
    (hb : coverage.covers (.applied y ys) e = true) :
    coverage.Clash (.applied x xs) (.applied y ys) := by
  rcases covers_applied ha with ⟨z, zs, rfl, hca⟩ | ⟨ty, rfl, rfl⟩
  · obtain ⟨hzx, hlx, hax⟩ := appliedCovers_iff.mp hca
    obtain ⟨hzy, hly, hay⟩ := appliedCovers_iff.mp hb
    have hmx : ¬ (xs.length = 1 ∧ coverage.registry.isMemoryTag x = true) := by
      intro hm
      rw [if_pos hm] at hax
      exact hxy (hax.1 ▸ hzy)
    have hmy : ¬ (ys.length = 1 ∧ coverage.registry.isMemoryTag y = true) := by
      intro hm
      rw [if_pos hm] at hay
      exact hyx (hay.1 ▸ hzx)
    rw [if_neg hmx] at hax
    rw [if_neg hmy] at hay
    have hlen : xs.length = ys.length := hlx.trans hly.symm
    refine ⟨⟨z, hzx, hzy⟩, hlen, ?_, fun p hp => ?_⟩
    · rintro ⟨h1, hm | hm⟩
      · exact hmx ⟨h1, hm⟩
      · exact hmy ⟨hlen ▸ h1, hm⟩
    · obtain ⟨i, hi, rfl⟩ := List.mem_iff_getElem.mp hp
      simp only [List.length_zip, lt_inf_iff] at hi
      rw [List.getElem_zip]
      refine ⟨zs[i], ?_, ?_⟩
      · exact hax (xs[i], zs[i]) (List.mem_iff_getElem.mpr ⟨i, by simp; omega, by simp⟩)
      · exact hay (ys[i], zs[i]) (List.mem_iff_getElem.mpr ⟨i, by simp; omega, by simp⟩)
  · rcases covers_applied hb with ⟨z, zs, he, -⟩ | ⟨-, -, rfl⟩
    · cases he
    · exact (hxy .refl).elim

theorem clash_of_covers {a b e : Effect} {s t : EffectTagId} (hs : memberTag a = some s)
    (ht : memberTag b = some t) (hst : ¬ coverage.Extends s t) (hts : ¬ coverage.Extends t s)
    (ha : coverage.covers a e = true) (hb : coverage.covers b e = true) : coverage.Clash a b := by
  obtain ⟨z, hz, hzs⟩ := covers_extends ha hs
  obtain ⟨z', hz', hzt⟩ := covers_extends hb ht
  obtain rfl : z = z' := Option.some.inj (hz.symm.trans hz')
  -- a member that covers its own tag only would have the tag of the effect, below the other
  have hda : coversDescendants a = true := by
    by_contra hd
    have heq := covers_memberTag ha (by simpa using hd)
    rw [hz, hs, Option.some.injEq] at heq
    exact hst (heq ▸ hzt)
  have hdb : coversDescendants b = true := by
    by_contra hd
    have heq := covers_memberTag hb (by simpa using hd)
    rw [hz, ht, Option.some.injEq] at heq
    exact hts (heq ▸ hzs)
  cases a with
  | action | appliedAction | var | error => cases hda
  | tag x =>
    cases hs
    cases b with
    | action | appliedAction | var | error => cases hdb
    | tag y =>
      cases ht
      exact ⟨z, hzs, hzt⟩
    | applied y ys =>
      cases ht
      exact ⟨args_nil_of_covers ha hb, z, hzs, hzt⟩
  | applied x xs =>
    cases hs
    cases b with
    | action | appliedAction | var | error => cases hdb
    | tag y =>
      cases ht
      exact ⟨args_nil_of_covers hb ha, z, hzs, hzt⟩
    | applied y ys =>
      cases ht
      exact clash_applied hst hts ha hb

/-- Rows reported disjoint cover no common effect exactly when, among members of unrelated tags,
none clash. -/
theorem rowsDisjoint_sound_iff (coverage : EffectCoverage) (left right : EffectRow) :
    (coverage.rowsDisjoint left right = true →
      ¬ ∃ e, (∃ a ∈ left.effects, coverage.covers a e = true) ∧
        ∃ b ∈ right.effects, coverage.covers b e = true) ↔
    (coverage.Unrelated left right →
      ∀ a ∈ left.effects, ∀ b ∈ right.effects, ¬ coverage.Clash a b) := by
  rw [rowsDisjoint_iff]
  refine imp_congr_right fun hu => ⟨fun h a ha b hb hc => ?_, ?_⟩
  · obtain ⟨e, hae, hbe⟩ := hc.exists_covered
    exact h ⟨e, ⟨a, ha, hae⟩, b, hb, hbe⟩
  · rintro h ⟨e, ⟨a, ha, hae⟩, b, hb, hbe⟩
    obtain ⟨s, hs, hr⟩ := hu.2.2 a ha
    obtain ⟨t, ht, hst, hts⟩ := hr b hb
    exact h a ha b hb
      (clash_of_covers (memberTag_of_tagOf hs) (memberTag_of_tagOf ht) hst hts hae hbe)

/-- Two effects of a dependency and a third that extends both. -/
def diamondCoverage : EffectCoverage where
  registry := ((((EffectRegistry.empty.registerTag 1024 "Read").registerTag 1025 "Write").registerTag
    1026 "ReadWrite").addExtension 1026 1024).addExtension 1026 1025
  types := .new
  depth := 1

/-- The rows of the two parents are reported disjoint, and both cover their common child. -/
theorem rowsDisjoint_common_child :
    diamondCoverage.rowsDisjoint (.closed {.tag 1024}) (.closed {.tag 1025}) = true ∧
      diamondCoverage.covers (.tag 1024) (.tag 1026) = true ∧
      diamondCoverage.covers (.tag 1025) (.tag 1026) = true := by
  decide

end EffectCoverage
end EtasFrontend.Effects
