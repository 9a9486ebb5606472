import EtasFrontend.Types.SubstitutionAssemble
import Mathlib.Data.List.Find

/-! The three ways to look a node up: the index of an interner, the first id in a store, and an
index of a store by the hashes of its nodes. For nodes with components they agree. -/
namespace EtasFrontend.Types
open Lib Relation

/-- Ids by the hash of their nodes: the first one, and the others in their order. -/
structure TypeLookupIndex where
  first : Map UInt64 TypeId
  collisions : Map UInt64 (List TypeId)

namespace TypeLookupIndex
variable (hash : Ty → UInt64)

def add (index : TypeLookupIndex) (ty : Ty) (id : TypeId) : TypeLookupIndex :=
  match index.first.get (hash ty) with
  | none => { index with first := index.first.insert (hash ty) id }
  | some _ => { index with
      collisions := index.collisions.insert (hash ty)
        ((index.collisions.get (hash ty)).getD [] ++ [id]) }

/-- Reserved ids are left out. -/
def new (store : TypeStore) : TypeLookupIndex :=
  store.allTypes.zipIdx.foldl
    (fun index e => if store.isCanonical e.2 then index else index.add hash e.1 e.2) ⟨∅, ∅⟩

def get (index : TypeLookupIndex) (store : TypeStore) (ty : Ty) : Option TypeId :=
  match index.first.get (hash ty) with
  | none => none
  | some first =>
    if store.get first = some ty then some first
    else (index.collisions.get (hash ty)).bind fun ids => ids.find? fun id => store.get id = some ty

/-- All ids with a hash, in their order. -/
def bucket (index : TypeLookupIndex) (key : UInt64) : List TypeId :=
  (index.first.get key).toList ++ (index.collisions.get key).getD []

variable {hash}

theorem bucket_add (hash : Ty → UInt64) {index : TypeLookupIndex} (ty : Ty) (id : TypeId)
    (hfirst : ∀ key, index.first.get key = none → index.collisions.get key = none) :
    (∀ key, (index.add hash ty id).first.get key = none →
      (index.add hash ty id).collisions.get key = none) ∧
    ∀ key, (index.add hash ty id).bucket key =
      index.bucket key ++ if hash ty = key then [id] else [] := by
  unfold add
  cases hget : index.first.get (hash ty) with
  | none =>
    refine ⟨fun key hkey => ?_, fun key => ?_⟩
    · dsimp only at hkey ⊢
      rw [Map.get_insert] at hkey
      split_ifs at hkey
      exact hfirst key hkey
    · unfold bucket
      dsimp only
      rw [Map.get_insert]
      by_cases heq : key = hash ty
      · subst heq
        simp [hget, hfirst _ hget]
      · simp [heq, Ne.symm heq]
  | some first =>
    refine ⟨fun key hkey => ?_, fun key => ?_⟩
    · dsimp only at hkey ⊢
      rw [Map.get_insert, if_neg]
      · exact hfirst key hkey
      · rintro rfl
        cases hget.symm.trans hkey
    · unfold bucket
      dsimp only
      rw [Map.get_insert]
      by_cases heq : key = hash ty
      · subst heq
        simp
      · simp [heq, Ne.symm heq]

theorem new_spec (hash : Ty → UInt64) (store : TypeStore) :
    (∀ key, (new hash store).first.get key = none → (new hash store).collisions.get key = none) ∧
    ∀ key, (new hash store).bucket key = ((store.allTypes.zipIdx.filter fun e =>
      !store.isCanonical e.2 && hash e.1 == key).map Prod.snd) := by
  have hfold : ∀ (l : List (Ty × TypeId)) (index : TypeLookupIndex),
      (∀ key, index.first.get key = none → index.collisions.get key = none) →
      let after := l.foldl
        (fun index e => if store.isCanonical e.2 then index else index.add hash e.1 e.2) index
      (∀ key, after.first.get key = none → after.collisions.get key = none) ∧
      ∀ key, after.bucket key = index.bucket key ++
        (l.filter fun e => !store.isCanonical e.2 && hash e.1 == key).map Prod.snd := by
    intro l
    induction l with
    | nil =>
      intro index hfirst
      exact ⟨hfirst, by simp⟩
    | cons e l ih =>
      intro index hfirst
      rw [List.foldl_cons]
      by_cases hr : store.isCanonical e.2 = true
      · rw [if_pos hr]
        obtain ⟨hall, hl⟩ := ih index hfirst
        refine ⟨hall, fun key => ?_⟩
        rw [hl, List.filter_cons_of_neg (by simp [hr])]
      · rw [if_neg hr]
        obtain ⟨hfirst', hbucket⟩ := bucket_add hash e.1 e.2 hfirst
        obtain ⟨hall, hl⟩ := ih _ hfirst'
        refine ⟨hall, fun key => ?_⟩
        rw [hl, hbucket]
        by_cases hkey : hash e.1 = key
        · rw [if_pos hkey, List.filter_cons_of_pos (by simp [hr, hkey])]
          simp
        · rw [if_neg hkey, List.filter_cons_of_neg (by simp [hkey])]
          simp
  exact hfold _ ⟨∅, ∅⟩ fun _ _ => rfl

theorem get_eq_find (index : TypeLookupIndex) (store : TypeStore) (ty : Ty)
    (hfirst : ∀ key, index.first.get key = none → index.collisions.get key = none) :
    index.get hash store ty =
      (index.bucket (hash ty)).find? fun id => store.get id = some ty := by
  unfold get bucket
  cases hget : index.first.get (hash ty) with
  | none =>
    rw [hfirst _ hget]
    rfl
  | some first =>
    dsimp only [Option.toList_some]
    rw [List.singleton_append, List.find?_cons]
    by_cases hsame : store.get first = some ty
    · simp [hsame]
    · cases hc : index.collisions.get (hash ty) with
      | none => simp [hsame]
      | some ids => simp [hsame]

theorem get_new (hash : Ty → UInt64) (store : TypeStore) (ty : Ty) :
    (new hash store).get hash store ty =
      (store.allTypes.zipIdx.find? fun e => !store.isCanonical e.2 && e.1 == ty).map Prod.snd := by
  obtain ⟨hfirst, hbucket⟩ := new_spec hash store
  rw [get_eq_find _ _ _ hfirst, hbucket, List.find?_map, List.find?_filter]
  congr 1
  refine List.find?_congr fun e he => ?_
  have hget : store.get e.2 = some e.1 := by
    rw [TypeStore.get_eq]
    exact List.mem_zipIdx_iff_getElem?.mp he
  simp only [Function.comp, hget, Option.some.injEq]
  by_cases heq : e.1 = ty
  · simp [heq]
  · simp [heq]

end TypeLookupIndex

/-- Every node with components is found at its own id: no two ids hold the same one. -/
def CompoundsIndexed (interner : TypeInterner) : Prop :=
  ∀ id ty, interner.store.get id = some ty → ty.isLeaf = false → interner.find ty = some id

variable {portable : GenericOwner → Bool}

theorem StoreInv.isCanonical_compound {store : TypeStore} (h : StoreInv portable store)
    {id : TypeId} {ty : Ty} (hget : store.get id = some ty) (hleaf : ty.isLeaf = false) :
    store.isCanonical id = false := by
  rw [TypeStore.isCanonical_eq_false]
  constructor
  · by_contra hne
    obtain ⟨key, hk⟩ := Option.ne_none_iff_exists'.mp hne
    obtain ⟨ty', hty', hm⟩ := h.nominal id key hk
    cases hget.symm.trans hty'
    cases ty with
    | nominal _ | enum _ => cases hleaf
    | _ => cases hm
  · by_contra hne
    obtain ⟨key, hk⟩ := Option.ne_none_iff_exists'.mp hne
    obtain ⟨-, name, hty'⟩ := h.parameter id key hk
    cases hget.symm.trans hty'
    cases hleaf

theorem CompoundsIndexed.of_reachable {allowed : TypeInterner → TypeId → Option TypeId → Prop}
    {interner : TypeInterner} (h : InternerReachable portable allowed interner) :
    CompoundsIndexed interner := by
  have hindexed := IndexedOn.of_reachable (p := (·.isLeaf = false))
    (fun _ _ _ _ hnominal => by cases hnominal.choose_spec) h
  intro id ty hget hleaf
  have hcan := (InternerInv.of_reachable h).store.isCanonical_compound hget hleaf
  exact hindexed id ty hleaf hget hcan

end EtasFrontend.Types
