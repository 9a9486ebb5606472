import EtasFrontend.Lib.Keyed
import EtasFrontend.Types.StoreInvariant
import EtasFrontend.Types.Substitution
import EtasFrontend.Types.TypeTree

/-! What substitution is for: the tree of a type with its parameters and variables replaced. -/
namespace EtasFrontend.Types
open Lib Relation

/-! Trees of a store. -/

/-- Every component of a stored node is stored. -/
def TypeStore.Closed (store : TypeStore) : Prop :=
  ∀ a ty, store.get a = some ty → ∀ b ∈ ty.children, ∃ t, store.get b = some t

theorem TypeStore.closed_of_lt {store : TypeStore}
    (h : ∀ e ∈ store.allTypes.zipIdx, ∀ b ∈ e.1.children, b < e.2) : store.Closed := by
  intro a ty ha b hb
  have hlt : b < store.len := by
    have hab : b < a := h (ty, a) (List.mem_zipIdx_iff_getElem?.2 (TypeStore.get_eq _ _ ▸ ha)) b hb
    exact hab.trans (TypeStore.lt_len_of_get ha)
  exact Option.ne_none_iff_exists'.1 fun hnone => absurd hlt (not_lt.2 (get_eq_none.1 hnone))

/-- `store'` keeps every node of `store`, and what the tables say of it. -/
structure TypeStore.Extends (store store' : TypeStore) : Prop where
  get : ∀ a ty, store.get a = some ty → store'.get a = some ty
  nominal : ∀ a ty, store.get a = some ty → store'.nominalIdentity a = store.nominalIdentity a
  parameter : ∀ a ty, store.get a = some ty →
    store'.parameterIdentity a = store.parameterIdentity a

/-- The type `a` written out. -/
inductive Unfolds (store : TypeStore) : TypeId → TypeTree → Prop
  | node {a : TypeId} {ty : Ty} (f : TypeId → TypeTree) (h : store.get a = some ty)
      (hf : ∀ b ∈ ty.children, Unfolds store b (f b)) :
      Unfolds store a (.node (store.facts a ty) (ty.mapRefs f))

variable {S S' : TypeStore} {a : TypeId}

namespace TypeStore.Extends

theorem refl (S : TypeStore) : S.Extends S := ⟨fun _ _ h => h, fun _ _ _ => rfl, fun _ _ _ => rfl⟩

theorem trans {S₁ S₂ S₃ : TypeStore} (h : S₁.Extends S₂) (h' : S₂.Extends S₃) : S₁.Extends S₃ where
  get a ty ha := h'.get a ty (h.get a ty ha)
  nominal a ty ha := (h'.nominal a ty (h.get a ty ha)).trans (h.nominal a ty ha)
  parameter a ty ha := (h'.parameter a ty (h.get a ty ha)).trans (h.parameter a ty ha)

theorem isErasedView (h : S.Extends S') {c : TypeId} {t : Ty} (hc : S.get c = some t) :
    Unifier.isErasedView S' c = Unifier.isErasedView S c := by
  simp only [Unifier.isErasedView, hc, h.get c t hc]

theorem facts (h : S.Extends S') {ty : Ty} (ha : S.get a = some ty)
    (hcon : ∀ c ∈ ty.constructorRefs, ∃ t, S.get c = some t) : S'.facts a ty = S.facts a ty := by
  unfold TypeStore.facts
  rw [h.nominal a ty ha, h.parameter a ty ha]
  have hview : ty.constructorRefs.any (Unifier.isErasedView S') =
      ty.constructorRefs.any (Unifier.isErasedView S) := by
    rw [Bool.eq_iff_iff, List.any_eq_true, List.any_eq_true]
    refine exists_congr fun c => and_congr_right fun hc => ?_
    obtain ⟨t, ht⟩ := hcon c hc
    rw [h.isErasedView ht]
  rw [hview]

theorem intern (interner : TypeInterner) (ty : Ty) :
    interner.store.Extends (interner.intern ty).2.store := by
  have hstep : InternerStep (fun _ => true) (fun _ _ _ => True) interner (interner.intern ty).2 :=
    .intern interner ty
  have htables := hstep.keepsTables
  refine ⟨fun a t ha => ?_, fun a t ha => htables.nominal a (lt_len_of_get ha),
    fun a t ha => htables.parameter a (lt_len_of_get ha)⟩
  rcases interner.intern_cases ty with ⟨id, -, hr⟩ | ⟨-, hr⟩
  · rw [hr]
    exact ha
  · rw [hr]
    exact StoreInv.get_intern_of_get ha _

end TypeStore.Extends

namespace Unfolds

theorem get {t : TypeTree} (h : Unfolds S a t) : ∃ ty, S.get a = some ty := by
  cases h with
  | node f h _ => exact ⟨_, h⟩

theorem unique {s t : TypeTree} (hs : Unfolds S a s) (ht : Unfolds S a t) : s = t := by
  induction hs generalizing t with
  | node f h _ ih =>
    cases ht with
    | node g h' hg =>
      cases h.symm.trans h'
      rw [Ty.mapRefs_congr fun b hb => ih b hb (hg b hb)]

theorem extend (hext : S.Extends S') {t : TypeTree} (h : Unfolds S a t) : Unfolds S' a t := by
  induction h with
  | @node a ty f h hf ih =>
    have hcon : ∀ c ∈ ty.constructorRefs, ∃ t, S.get c = some t :=
      fun c hc => (hf c (List.mem_append_left _ hc)).get
    rw [← hext.facts h hcon]
    exact .node f (hext.get a ty h) ih

end Unfolds

theorem exists_unfolds (hs : S.WellFormed) (hc : S.Closed) {ty : Ty} (h : S.get a = some ty) :
    ∃ t, Unfolds S a t := by
  have hwf : WellFounded fun b a => TransGen (Component S) a b :=
    hs.wellFounded (Set.finite_lt_nat S.len) fun a b ⟨_, hget, _⟩ => TypeStore.lt_len_of_get hget
  induction a using hwf.induction generalizing ty with
  | _ a ih =>
    have hkids : ∀ b, ∃ t, b ∈ ty.children → Unfolds S b t := by
      intro b
      by_cases hb : b ∈ ty.children
      · obtain ⟨tb, htb⟩ := hc a ty h b hb
        obtain ⟨t, ht⟩ := ih b (.single ⟨ty, h, hb⟩) htb
        exact ⟨t, fun _ => ht⟩
      · exact ⟨.missing b, fun h => absurd h hb⟩
    choose f hf using hkids
    exact ⟨_, .node f h hf⟩

/-- The same node, bounds of an existential taken as a set: the interner sorts them by id and
drops repetitions. -/
def Ty.SameUpToBounds {ρ : Type} (ty ty' : Ty ρ) : Prop :=
  ty' = ty ∨ ∃ bounds bounds', ty = .existential bounds ∧ ty' = .existential bounds' ∧
    ∀ b, b ∈ bounds' ↔ b ∈ bounds

/-- `tree` is the type `a` with the replacements of `σ` made. A parameter is replaced by its
argument as it stands, except that solver variables in it are replaced; what any other type is
replaced by is substituted in turn. The declaration of an application stays. -/
inductive Substituted (S : TypeStore) : SubstitutionInput → TypeId → TypeTree → Prop
  | verbatim {σ : SubstitutionInput} {a r : TypeId} {name : NamedTypeRef} {tree : TypeTree}
      (h : S.get a = some (.named name)) (hr : σ.target S a (.named name) = some r)
      (hv : σ.vars = none) (ht : Unfolds S r tree) : Substituted S σ a tree
  | argument {σ : SubstitutionInput} {a r : TypeId} {name : NamedTypeRef} {tree : TypeTree}
      (h : S.get a = some (.named name)) (hr : σ.target S a (.named name) = some r)
      (hv : σ.vars ≠ none) (ht : Substituted S σ.onlyVariables r tree) : Substituted S σ a tree
  | follow {σ : SubstitutionInput} {a r : TypeId} {ty : Ty} {tree : TypeTree}
      (h : S.get a = some ty) (hn : ∀ name, ty ≠ .named name) (hr : σ.target S a ty = some r)
      (ht : Substituted S σ r tree) : Substituted S σ a tree
  | node {σ : SubstitutionInput} {a : TypeId} {ty : Ty} {node : Ty TypeTree}
      (con f : TypeId → TypeTree) (h : S.get a = some ty) (hr : σ.target S a ty = none)
      (hcon : ∀ c ∈ ty.constructorRefs, Unfolds S c (con c))
      (hf : ∀ b ∈ ty.refs, Substituted S σ b (f b))
      (hnode : (ty.mapParts con f).SameUpToBounds node) :
      Substituted S σ a (.node (S.facts a ty) node)

/-! The graph of what has to be substituted first. -/

/-- Types the walk visits from `a`: what it is replaced by, or its components. The argument of a
parameter is not one of them. -/
def needsList (σ : SubstitutionInput) (S : TypeStore) (a : TypeId) : List TypeId :=
  match S.get a with
  | none => []
  | some ty =>
    match σ.target S a ty with
    | some r =>
      match ty with
      | .named _ => []
      | _ => [r]
    | none => ty.refs

def Needs (σ : SubstitutionInput) (S : TypeStore) (a b : TypeId) : Prop := b ∈ needsList σ S a

/-- `a` is not a parameter and is replaced by `b`. -/
def Follows (σ : SubstitutionInput) (S : TypeStore) (a b : TypeId) : Prop :=
  ∃ ty, S.get a = some ty ∧ (∀ name, ty ≠ .named name) ∧ σ.target S a ty = some b

/-- From `root` the walk comes to a type `c` that lies on a cycle, and a replacement is part of
the cycle; in the type itself or in the argument of a parameter in it. -/
inductive CycleAt (S : TypeStore) : SubstitutionInput → TypeId → TypeId → Prop
  | here {σ : SubstitutionInput} {root a b c : TypeId} (hc : ReflTransGen (Needs σ S) root c)
      (ha : ReflTransGen (Needs σ S) c a) (hab : Follows σ S a b)
      (hb : ReflTransGen (Needs σ S) b c) : CycleAt S σ root c
  | inArgument {σ : SubstitutionInput} {root a r c : TypeId} {name : NamedTypeRef}
      (ha : ReflTransGen (Needs σ S) root a) (h : S.get a = some (.named name))
      (hr : σ.target S a (.named name) = some r) (hc : CycleAt S σ.onlyVariables r c) :
      CycleAt S σ root c

/-- Every value of the maps is a type of the store. -/
structure SubstitutionInput.ValuesIn (σ : SubstitutionInput) (S : TypeStore) : Prop where
  named : ∀ m, σ.named = some m → ∀ k r, m.get k = some r → ∃ t, S.get r = some t
  parameters : ∀ m, σ.parameters = some m → ∀ k r, m.get k = some r → ∃ t, S.get r = some t
  canonicalParameters : ∀ m, σ.canonicalParameters = some m → ∀ k r, m.get k = some r →
    ∃ t, S.get r = some t
  vars : ∀ s, σ.vars = some s → ∀ v r, s.get v = some r → ∃ t, S.get r = some t
  typeParameters : ∀ m, σ.typeParameters = some m → ∀ k r, m.get k = some r →
    ∃ t, S.get r = some t

end EtasFrontend.Types
