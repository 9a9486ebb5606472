import EtasFrontend.Types.UnifierOccurs

/-! Types as finite trees: the store unfolded from an id, with every bound variable replaced by
the type it is bound to. -/
namespace EtasFrontend.Types
open Lib Relation

/-- What a store says about a node beyond the node itself. -/
structure NodeFacts where
  nominal : Option DefinitionKey
  parameter : Option CanonicalTypeParameterIdentity
  erasedView : Bool

/-- A type written out. An id without a node is a leaf. -/
inductive TypeTree where
  | node (facts : NodeFacts) (ty : Ty TypeTree)
  | missing (id : TypeId)

/-- `erasedView` tells of an application whether its declaration has a read-only erased view. -/
def TypeStore.facts (store : TypeStore) (id : TypeId) (ty : Ty) : NodeFacts where
  nominal := store.nominalIdentity id
  parameter := store.parameterIdentity id
  erasedView := ty.constructorRefs.any (Unifier.isErasedView store)

/-- `tree` is the type `id` with the bindings fully applied. -/
inductive FullyApplied (store : TypeStore) (lookup : TypeVarId → Option TypeId) :
    TypeId → TypeTree → Prop
  | binding {a b : TypeId} {tree : TypeTree} (h : Binding store lookup a b)
      (ht : FullyApplied store lookup b tree) : FullyApplied store lookup a tree
  | node {a : TypeId} {ty : Ty} (f : TypeId → TypeTree) (hr : Resolved store lookup a)
      (h : store.get a = some ty) (hf : ∀ b ∈ ty.children, FullyApplied store lookup b (f b)) :
      FullyApplied store lookup a (.node (store.facts a ty) (ty.mapRefs f))
  | missing {a : TypeId} (h : store.get a = none) : FullyApplied store lookup a (.missing a)

variable {store : TypeStore} {lookup : TypeVarId → Option TypeId}

theorem Binding.get_ne_none {a b : TypeId} (h : Binding store lookup a b) : store.get a ≠ none := by
  obtain ⟨v, hv, -⟩ := h
  simp [hv]

theorem FullyApplied.unique {a : TypeId} {s t : TypeTree} (hs : FullyApplied store lookup a s)
    (ht : FullyApplied store lookup a t) : s = t := by
  induction hs generalizing t with
  | binding h _ ih =>
    cases ht with
    | binding h' ht' =>
      cases h.unique h'
      exact ih ht'
    | node _ hr _ _ => exact absurd h (hr _)
    | missing hm => exact absurd hm h.get_ne_none
  | node f hr h _ ih =>
    cases ht with
    | binding h' _ => exact absurd h' (hr _)
    | node g _ h' hg =>
      cases h.symm.trans h'
      rw [Ty.mapRefs_congr fun b hb => ih b hb (hg b hb)]
    | missing hm =>
      rw [hm] at h
      cases h
  | missing hm =>
    cases ht with
    | binding h' _ => exact absurd hm h'.get_ne_none
    | node _ _ h _ =>
      rw [hm] at h
      cases h
    | missing _ => rfl

theorem FullyApplied.of_binding {a b : TypeId} {t : TypeTree} (h : Binding store lookup a b)
    (ht : FullyApplied store lookup a t) : FullyApplied store lookup b t := by
  cases ht with
  | binding h' ht' =>
    cases h.unique h'
    exact ht'
  | node _ hr _ _ => exact absurd h (hr _)
  | missing hm => exact absurd hm h.get_ne_none

theorem FullyApplied.of_bindings {a b : TypeId} {t : TypeTree}
    (h : ReflTransGen (Binding store lookup) a b) (ht : FullyApplied store lookup a t) :
    FullyApplied store lookup b t := by
  induction h using ReflTransGen.head_induction_on with
  | refl => exact ht
  | head hab _ ih => exact ih (ht.of_binding hab)

theorem FullyApplied.parts {a : TypeId} {t : TypeTree} {ty : Ty}
    (ht : FullyApplied store lookup a t) (h : store.get a = some ty) :
    ∃ f, (∀ b ∈ ty.children, FullyApplied store lookup b (f b)) ∧
      (t = .node (store.facts a ty) (ty.mapRefs f) ∨ ∃ v, ty = .var v) := by
  cases ht with
  | binding hb _ =>
    obtain ⟨v, hv, -⟩ := hb
    cases h.symm.trans hv
    exact ⟨.missing, fun b hb => (List.not_mem_nil hb).elim, Or.inr ⟨v, rfl⟩⟩
  | node f _ h' hf =>
    cases h.symm.trans h'
    exact ⟨f, hf, Or.inl rfl⟩
  | missing hm =>
    rw [hm] at h
    cases h

theorem exists_fullyApplied (ha : Acyclic (Edge store lookup)) (a : TypeId) :
    ∃ t, FullyApplied store lookup a t := by
  induction a using (edge_wellFounded ha).induction with
  | _ a ih =>
    by_cases hb : ∃ b, Binding store lookup a b
    · obtain ⟨b, hb⟩ := hb
      obtain ⟨t, ht⟩ := ih b (.single (Or.inr hb))
      exact ⟨t, .binding hb ht⟩
    · have hr : Resolved store lookup a := fun b h => hb ⟨b, h⟩
      cases h : store.get a with
      | none => exact ⟨_, .missing h⟩
      | some ty =>
        have hkids : ∀ b, ∃ t, b ∈ ty.children → FullyApplied store lookup b t := by
          intro b
          by_cases hb : b ∈ ty.children
          · obtain ⟨t, ht⟩ := ih b (.single (Or.inl ⟨ty, h, hb⟩))
            exact ⟨t, fun _ => ht⟩
          · exact ⟨.missing b, fun h => absurd h hb⟩
        choose f hf using hkids
        exact ⟨_, .node f hr h hf⟩

end EtasFrontend.Types
