import EtasFrontend.Types.Store

/-! Invariants of the interner over every sequence of its operations. -/
namespace EtasFrontend.Types
open Lib Relation

/-! Canonical form. -/

instance : Std.Total CheckedSpecBound.Le := ⟨fun _ _ => le_total _ _⟩

instance : IsTrans CheckedSpecBound CheckedSpecBound.Le := ⟨fun _ _ _ h h' => le_trans h h'⟩

theorem canonicalType_idem (ty : Ty) : canonicalType (canonicalType ty) = canonicalType ty := by
  cases ty with
  | existential bounds =>
    have hsorted := List.pairwise_insertionSort CheckedSpecBound.Le bounds
    have hsub := List.destutter_sublist (· ≠ ·) (bounds.insertionSort CheckedSpecBound.Le)
    simp only [canonicalType]
    rw [(hsorted.sublist hsub).insertionSort_eq, List.destutter_idem]
  | tuple elements => cases elements <;> rfl
  | _ => rfl

variable {ty : Ty}

theorem canonicalType_of_identityMatchesType {key : DefinitionKey}
    (h : identityMatchesType key ty = true) : canonicalType ty = ty := by
  cases ty with
  | nominal _ | enum _ => rfl
  | _ => cases h

/-! Accessors after an update. -/

variable {id : TypeId} {store : TypeStore}

namespace TypeStore

section
variable (store : TypeStore)

theorem get_intern (ty : Ty) (id : ℕ) :
    (store.intern ty).2.get id =
      if id = store.len then some (canonicalType ty) else store.get id := by
  have hall : (store.intern ty).2.allTypes = store.allTypes ++ [canonicalType ty] :=
    (List.append_assoc ..).symm
  have hlen : store.allTypes.length = store.len := List.length_append
  rw [get_eq, get_eq, hall]
  split_ifs with h
  · rw [h, ← hlen, List.getElem?_concat_length]
  · rw [List.getElem?_append]
    split_ifs with hlt
    · rfl
    · rw [List.getElem?_eq_none (by simp; omega), List.getElem?_eq_none (by omega)]

theorem get_set {id : ℕ} (hb : store.baseLen ≤ id) (hl : id < store.len)
    (ty : Ty) (id' : ℕ) :
    { store with types := store.types.set (id - store.baseLen) ty }.get id' =
      if id' = id then some ty else store.get id' := by
  have hlen : id - store.baseLen < store.types.length := by
    unfold len at hl
    omega
  change (if id' < store.baseLen then store.baseTypes[id']?
    else (store.types.set (id - store.baseLen) ty)[id' - store.baseLen]?) = _
  unfold get
  split_ifs with h1 h2 h2
  · omega
  · rfl
  · rw [h2, List.getElem?_set_self hlen]
  · rw [List.getElem?_set_ne (by omega)]

theorem nominalIdentity_insert (id id' : TypeId) (key : DefinitionKey) :
    { store with nominalIdentities := store.nominalIdentities.insert id key }.nominalIdentity id' =
      if id' = id then some key else store.nominalIdentity id' := by
  unfold nominalIdentity
  rw [Map.get_insert]
  split_ifs <;> rfl

theorem allNominalIdentities_get (id : TypeId) :
    store.allNominalIdentities.get id = store.nominalIdentity id := by
  unfold allNominalIdentities nominalIdentity
  rw [Map.get_extend]
  cases store.base <;> rfl

theorem allParameterIdentities_get (id : TypeId) :
    store.allParameterIdentities.get id = store.parameterIdentity id := by
  unfold allParameterIdentities parameterIdentity
  rw [Map.get_extend]
  cases store.base <;> rfl

end

theorem isCanonical_eq_false :
    store.isCanonical id = false ↔
      store.nominalIdentity id = none ∧ store.parameterIdentity id = none := by
  simp [isCanonical]

end TypeStore

theorem get_inverse {κ ν : Type} [DecidableEq κ] [DecidableEq ν] {m : Map κ ν}
    (hinj : ∀ k k' v, m.get k = some v → m.get k' = some v → k = k') (v : ν) (k : κ) :
    (Map.ofList (m.toList.map Prod.swap)).get v = some k ↔ m.get k = some v := by
  have hmem : ∀ k v, (v, k) ∈ m.toList.map Prod.swap ↔ m.get k = some v := by
    intro k v
    rw [← Map.mem_toList, List.mem_map]
    exact ⟨fun ⟨⟨a, b⟩, h, he⟩ => by cases he; exact h, fun h => ⟨(k, v), h, rfl⟩⟩
  constructor
  · intro h
    exact (hmem k v).mp (Map.get_ofList_eq_some h)
  · intro h
    exact Map.get_ofList_of_unique ((hmem k v).mpr h)
      fun k' h' => hinj k' k v ((hmem k' v).mp h') h

private theorem get_foldl_orInsert (reserved : TypeId → Bool) (l : List (Ty × TypeId))
    (m : Map Ty TypeId) (ty : Ty) :
    (l.foldl (fun m e => if reserved e.2 then m else m.orInsert e.1 e.2) m).get ty =
      (m.get ty).or ((l.find? fun e => !reserved e.2 && e.1 == ty).map Prod.snd) := by
  induction l generalizing m with
  | nil => simp
  | cons e l ih =>
    rw [List.foldl_cons, ih, List.find?_cons]
    by_cases hr : reserved e.2 = true
    · simp [hr]
    · by_cases ht : e.1 = ty
      · subst ht
        simp [hr, Map.get_orInsert]
      · simp [hr, beq_eq_false_iff_ne.mpr ht, Map.get_orInsert, Ne.symm ht]

theorem reverseIndex_sound {reserved : TypeId → Bool} {types : List Ty} {start id : ℕ}
    (h : (reverseIndex reserved types start).get ty = some id) :
    start ≤ id ∧ types[id - start]? = some ty ∧ reserved id = false := by
  rw [reverseIndex, get_foldl_orInsert, Map.get_empty, Option.none_or,
    Option.map_eq_some_iff] at h
  obtain ⟨⟨ty', id'⟩, hf, rfl⟩ := h
  obtain ⟨hle, hget⟩ := List.mk_mem_zipIdx_iff_le_and_getElem?_sub.mp (List.mem_of_find?_eq_some hf)
  have hp := List.find?_some hf
  simp only [Bool.and_eq_true, Bool.not_eq_true', beq_iff_eq] at hp
  rw [hp.2] at hget
  exact ⟨hle, hget, hp.1⟩

theorem reverseIndex_complete {reserved : TypeId → Bool} {types : List Ty} {start id : ℕ}
    (hle : start ≤ id) (hget : types[id - start]? = some ty) (hr : reserved id = false) :
    ∃ id', (reverseIndex reserved types start).get ty = some id' := by
  have hsome : ((types.zipIdx start).find? fun e => !reserved e.2 && e.1 == ty).isSome := by
    rw [List.find?_isSome]
    exact ⟨(ty, id), List.mk_mem_zipIdx_iff_le_and_getElem?_sub.mpr ⟨hle, hget⟩, by simp [hr]⟩
  obtain ⟨e, he⟩ := Option.isSome_iff_exists.mp hsome
  refine ⟨e.2, ?_⟩
  rw [reverseIndex, get_foldl_orInsert, Map.get_empty, Option.none_or, he]
  rfl

/-- What holds of the store of an interner at any time. -/
structure StoreInv (portable : GenericOwner → Bool) (store : TypeStore) : Prop where
  canonical : ∀ id ty, store.get id = some ty → canonicalType ty = ty
  nominal : ∀ id key, store.nominalIdentity id = some key →
    ∃ ty, store.get id = some ty ∧ identityMatchesType key ty = true
  parameter : ∀ id key, store.parameterIdentity id = some key →
    portable key.owner = true ∧ ∃ name, store.get id = some (.named ⟨name, none⟩)
  nominal_inj : ∀ id id' key, store.nominalIdentity id = some key →
    store.nominalIdentity id' = some key → id = id'
  parameter_inj : ∀ id id' key, store.parameterIdentity id = some key →
    store.parameterIdentity id' = some key → id = id'
  parameterIds : ∀ key id, store.canonicalParameter key = some id ↔
    store.parameterIdentity id = some key
  localNominal : ∀ id, (store.nominalIdentities.get id).isSome → store.baseLen ≤ id
  localParameter : ∀ id, (store.parameterIdentities.get id).isSome → store.baseLen ≤ id
  baseIds : ∀ base, store.base = some base → ∀ ty id, base.ids.get ty = some id →
    id < store.baseLen ∧ store.get id = some ty ∧ store.isCanonical id = false
  baseNominal : ∀ base, store.base = some base → ∀ id, (base.nominalIdentities.get id).isSome →
    id < store.baseLen
  baseParameter : ∀ base, store.base = some base → ∀ id,
    (base.parameterIdentities.get id).isSome → id < store.baseLen
  baseParameterIds : ∀ base, store.base = some base → ∀ key id,
    base.parameterIds.get key = some id ↔ base.parameterIdentities.get id = some key

structure InternerInv (portable : GenericOwner → Bool) (interner : TypeInterner) : Prop where
  store : StoreInv portable interner.store
  nominals : ∀ key id, interner.canonicalNominals.get key = some id ↔
    interner.store.nominalIdentity id = some key
  sound : ∀ ty id, interner.find ty = some id →
    interner.store.get id = some ty ∧ interner.store.isCanonical id = false
  localTypes : ∀ ty id, interner.types.get ty = some id → interner.store.baseLen ≤ id

/-- Every node outside the tables is found, and found at its own id. -/
def Indexed (interner : TypeInterner) : Prop :=
  ∀ id ty, interner.store.get id = some ty → interner.store.isCanonical id = false →
    interner.find ty = some id

/-- The same for the nodes of one kind. -/
def IndexedOn (p : Ty → Prop) (interner : TypeInterner) : Prop :=
  ∀ id ty, p ty → interner.store.get id = some ty → interner.store.isCanonical id = false →
    interner.find ty = some id

/-- An operation of the interner. `allowed` restricts `define_nominal`. -/
inductive InternerStep (portable : GenericOwner → Bool)
    (allowed : TypeInterner → TypeId → Option TypeId → Prop) : TypeInterner → TypeInterner → Prop
  | intern (interner : TypeInterner) (ty : Ty) :
      InternerStep portable allowed interner (interner.intern ty).2
  | nominal (interner : TypeInterner) (key : DefinitionKey) (ty : Ty) :
      InternerStep portable allowed interner (interner.internCanonicalNominal key ty).2
  | parameter (interner : TypeInterner) (key : CanonicalTypeParameterIdentity) (name : String) :
      InternerStep portable allowed interner
        (interner.internCanonicalParameter portable key name).2
  | define {interner interner' : TypeInterner} {id : TypeId} {representation : Option TypeId}
      (ha : allowed interner id representation)
      (h : interner.defineNominal id representation = some interner') :
      InternerStep portable allowed interner interner'
  | reload (interner : TypeInterner) :
      InternerStep portable allowed interner (.fromStore interner.store)
  | freeze (interner : TypeInterner) : InternerStep portable allowed interner interner.freeze

/-- Reached from the empty interner. -/
def InternerReachable (portable : GenericOwner → Bool)
    (allowed : TypeInterner → TypeId → Option TypeId → Prop) (interner : TypeInterner) : Prop :=
  ReflTransGen (InternerStep portable allowed) .new interner

/-- The completed declaration is not yet held by another id outside the tables. -/
def CompletesFresh (interner : TypeInterner) (id : TypeId) (representation : Option TypeId) :
    Prop :=
  ∀ nominal, interner.store.get id = some (.nominal nominal) → ∀ id',
    interner.store.get id' = some (.nominal { nominal with representation }) →
      interner.store.isCanonical id' = false → id' = id

variable {portable : GenericOwner → Bool}

open TypeStore (lt_len_of_get get_intern get_eq isCanonical_eq_false nominalIdentity_insert get_set)

namespace StoreInv

theorem isCanonical_of_get_none {store : TypeStore} (h : StoreInv portable store)
    (hid : store.get id = none) : store.isCanonical id = false := by
  rw [isCanonical_eq_false]
  constructor
  · by_contra hne
    obtain ⟨key, hk⟩ := Option.ne_none_iff_exists'.mp hne
    obtain ⟨ty, hty, -⟩ := h.nominal id key hk
    rw [hid] at hty
    cases hty
  · by_contra hne
    obtain ⟨key, hk⟩ := Option.ne_none_iff_exists'.mp hne
    obtain ⟨-, name, hty⟩ := h.parameter id key hk
    rw [hid] at hty
    cases hty

theorem parameterIdentity_of_nominal {store : TypeStore} (h : StoreInv portable store)
    {nominal : NominalTypeRef} (hid : store.get id = some (.nominal nominal)) :
    store.parameterIdentity id = none := by
  by_contra hne
  obtain ⟨key, hk⟩ := Option.ne_none_iff_exists'.mp hne
  obtain ⟨-, name, hty⟩ := h.parameter id key hk
  rw [hid] at hty
  cases hty

theorem new : StoreInv portable .new where
  canonical id ty h := by
    rw [get_eq] at h
    cases h
  nominal _ _ h := by cases h
  parameter _ _ h := by cases h
  nominal_inj _ _ _ h := by cases h
  parameter_inj _ _ _ h := by cases h
  parameterIds _ _ := iff_of_false nofun nofun
  localNominal _ h := by cases h
  localParameter _ h := by cases h
  baseIds _ h := by cases h
  baseNominal _ h := by cases h
  baseParameter _ h := by cases h
  baseParameterIds _ h := by cases h

variable {store : TypeStore}

theorem get_intern_of_get {t : Ty} (h : store.get id = some t) (ty : Ty) :
    (store.intern ty).2.get id = some t := by
  rw [get_intern, if_neg (lt_len_of_get h).ne, h]

section
variable (h : StoreInv portable store)
include h

theorem intern (ty : Ty) : StoreInv portable (store.intern ty).2 where
  canonical id t ht := by
    rw [get_intern] at ht
    split_ifs at ht
    · cases ht
      exact canonicalType_idem ty
    · exact h.canonical id t ht
  nominal id key hk := by
    obtain ⟨t, ht, hm⟩ := h.nominal id key hk
    exact ⟨t, get_intern_of_get ht ty, hm⟩
  parameter id key hk := by
    obtain ⟨hp, name, ht⟩ := h.parameter id key hk
    exact ⟨hp, name, get_intern_of_get ht ty⟩
  nominal_inj := h.nominal_inj
  parameter_inj := h.parameter_inj
  parameterIds := h.parameterIds
  localNominal := h.localNominal
  localParameter := h.localParameter
  baseIds base hb t id hi := by
    obtain ⟨hlt, ht, hc⟩ := h.baseIds base hb t id hi
    exact ⟨hlt, get_intern_of_get ht ty, hc⟩
  baseNominal := h.baseNominal
  baseParameter := h.baseParameter
  baseParameterIds := h.baseParameterIds

theorem insertNominal {key : DefinitionKey} (hb : store.baseLen ≤ id)
    (hget : store.get id = some ty) (hm : identityMatchesType key ty = true)
    (hfresh : ∀ id', store.nominalIdentity id' ≠ some key) :
    StoreInv portable
      { store with nominalIdentities := store.nominalIdentities.insert id key } where
  canonical := h.canonical
  nominal id' key' hk := by
    rw [nominalIdentity_insert] at hk
    split_ifs at hk with he
    · cases hk
      subst he
      exact ⟨ty, hget, hm⟩
    · exact h.nominal id' key' hk
  parameter := h.parameter
  nominal_inj a b key' ha hb := by
    rw [nominalIdentity_insert] at ha hb
    split_ifs at ha hb with hai hbi hbi
    · rw [hai, hbi]
    · cases ha
      exact absurd hb (hfresh b)
    · cases hb
      exact absurd ha (hfresh a)
    · exact h.nominal_inj a b key' ha hb
  parameter_inj := h.parameter_inj
  parameterIds := h.parameterIds
  localNominal id' hs := by
    rw [Map.get_insert] at hs
    split_ifs at hs with he
    · rw [he]
      exact hb
    · exact h.localNominal id' hs
  localParameter := h.localParameter
  baseIds base hbase t id' hi := by
    obtain ⟨hlt, ht, hc⟩ := h.baseIds base hbase t id' hi
    refine ⟨hlt, ht, ?_⟩
    rw [isCanonical_eq_false] at hc ⊢
    rw [nominalIdentity_insert, if_neg (lt_of_lt_of_le hlt hb).ne]
    exact hc
  baseNominal := h.baseNominal
  baseParameter := h.baseParameter
  baseParameterIds := h.baseParameterIds

/-- Entering a parameter into the table. -/
theorem insertParameter {key : CanonicalTypeParameterIdentity}
    {name : String} (hb : store.baseLen ≤ id) (hget : store.get id = some (.named ⟨name, none⟩))
    (hp : portable key.owner = true) (hno : store.parameterIdentity id = none)
    (hfresh : store.canonicalParameter key = none) :
    StoreInv portable { store with
      parameterIdentities := store.parameterIdentities.insert id key
      parameterIds := store.parameterIds.insert key id } := by
  have hfresh' : ∀ id', store.parameterIdentity id' ≠ some key := by
    intro id' hk
    rw [← h.parameterIds, hfresh] at hk
    cases hk
  have hident : ∀ id', { store with
      parameterIdentities := store.parameterIdentities.insert id key
      parameterIds := store.parameterIds.insert key id }.parameterIdentity id' =
        if id' = id then some key else store.parameterIdentity id' := by
    intro id'
    unfold TypeStore.parameterIdentity
    rw [Map.get_insert]
    split_ifs <;> rfl
  refine ⟨h.canonical, h.nominal, fun id' key' hk => ?_, h.nominal_inj, fun a b key' ha hb => ?_,
    fun key' id' => ?_, h.localNominal, fun id' hs => ?_, fun base hbase t id' hi => ?_,
    h.baseNominal, h.baseParameter, h.baseParameterIds⟩
  · rw [hident] at hk
    split_ifs at hk with he
    · cases hk
      subst he
      exact ⟨hp, name, hget⟩
    · exact h.parameter id' key' hk
  · rw [hident] at ha hb
    split_ifs at ha hb with hai hbi hbi
    · rw [hai, hbi]
    · cases ha
      exact absurd hb (hfresh' b)
    · cases hb
      exact absurd ha (hfresh' a)
    · exact h.parameter_inj a b key' ha hb
  · rw [hident]
    unfold TypeStore.canonicalParameter
    rw [Map.get_insert]
    by_cases hk : key' = key
    · subst hk
      by_cases hi : id' = id
      · simp [hi]
      · simp [hi, Ne.symm hi, hfresh' id']
    · simp only [hk, if_false]
      change store.canonicalParameter key' = some id' ↔ _
      rw [h.parameterIds]
      by_cases hi : id' = id
      · simp [hi, hno, Ne.symm hk]
      · simp [hi]
  · rw [Map.get_insert] at hs
    split_ifs at hs with he
    · rw [he]
      exact hb
    · exact h.localParameter id' hs
  · obtain ⟨hlt, ht, hc⟩ := h.baseIds base hbase t id' hi
    refine ⟨hlt, ht, ?_⟩
    rw [isCanonical_eq_false] at hc ⊢
    rw [hident, if_neg (lt_of_lt_of_le hlt hb).ne]
    exact hc

theorem set {nominal : NominalTypeRef} (hb : store.baseLen ≤ id)
    (hget : store.get id = some (.nominal nominal)) (representation : Option TypeId) :
    StoreInv portable { store with
      types := store.types.set (id - store.baseLen) (.nominal { nominal with representation }) } := by
  have hset := get_set store hb (lt_len_of_get hget)
    (.nominal { nominal with representation })
  refine ⟨fun id' t ht => ?_, fun id' key hk => ?_, fun id' key hk => ?_, h.nominal_inj,
    h.parameter_inj, h.parameterIds, h.localNominal, h.localParameter,
    fun base hbase t id' hi => ?_, h.baseNominal, h.baseParameter, h.baseParameterIds⟩
  · rw [hset] at ht
    split_ifs at ht
    · cases ht
      rfl
    · exact h.canonical id' t ht
  · obtain ⟨t, ht, hm⟩ := h.nominal id' key hk
    rw [hset]
    split_ifs with he
    · subst he
      cases hget.symm.trans ht
      exact ⟨_, rfl, hm⟩
    · exact ⟨t, ht, hm⟩
  · obtain ⟨hp, name, ht⟩ := h.parameter id' key hk
    refine ⟨hp, name, ?_⟩
    rw [hset, if_neg]
    · exact ht
    · rintro rfl
      rw [hget] at ht
      cases ht
  · obtain ⟨hlt, ht, hc⟩ := h.baseIds base hbase t id' hi
    refine ⟨hlt, ?_, hc⟩
    rw [hset, if_neg (lt_of_lt_of_le hlt hb).ne]
    exact ht

end

section
variable (store : TypeStore)

theorem get_freeze (id : TypeId) : (TypeStore.withBase (.ofStore store)).get id = store.get id := by
  rw [get_eq, get_eq]
  exact congrArg (·[id]?) (List.append_nil store.allTypes)

theorem nominalIdentity_freeze (id : TypeId) :
    (TypeStore.withBase (.ofStore store)).nominalIdentity id = store.nominalIdentity id :=
  store.allNominalIdentities_get id

theorem parameterIdentity_freeze (id : TypeId) :
    (TypeStore.withBase (.ofStore store)).parameterIdentity id = store.parameterIdentity id :=
  store.allParameterIdentities_get id

theorem isCanonical_freeze (id : TypeId) :
    (TypeStore.withBase (.ofStore store)).isCanonical id = store.isCanonical id := by
  unfold TypeStore.isCanonical
  rw [nominalIdentity_freeze, parameterIdentity_freeze]

theorem baseLen_freeze : (TypeStore.withBase (.ofStore store)).baseLen = store.len :=
  List.length_append

end

theorem freeze (h : StoreInv portable store) : StoreInv portable (.withBase (.ofStore store)) := by
  have hids : ∀ key id, (FrozenTypes.ofStore store).parameterIds.get key = some id ↔
      store.allParameterIdentities.get id = some key := by
    intro key id
    refine get_inverse (fun a b key ha hb => ?_) key id
    rw [store.allParameterIdentities_get] at ha hb
    exact h.parameter_inj a b key ha hb
  refine ⟨fun id ty ht => ?_, fun id key hk => ?_, fun id key hk => ?_, fun a b key ha hb => ?_,
    fun a b key ha hb => ?_, fun key id => ?_, nofun, nofun,
    fun base hb ty id hi => ?_, fun base hb id hs => ?_, fun base hb id hs => ?_,
    fun base hb => ?_⟩
  · rw [get_freeze] at ht
    exact h.canonical id ty ht
  · rw [nominalIdentity_freeze] at hk
    rw [get_freeze]
    exact h.nominal id key hk
  · rw [parameterIdentity_freeze] at hk
    rw [get_freeze]
    exact h.parameter id key hk
  · rw [nominalIdentity_freeze] at ha hb
    exact h.nominal_inj a b key ha hb
  · rw [parameterIdentity_freeze] at ha hb
    exact h.parameter_inj a b key ha hb
  · rw [parameterIdentity_freeze, ← store.allParameterIdentities_get]
    exact hids key id
  · cases hb
    obtain ⟨-, hget, hr⟩ := reverseIndex_sound hi
    rw [Nat.sub_zero, ← get_eq] at hget
    rw [get_freeze, isCanonical_freeze, baseLen_freeze]
    exact ⟨lt_len_of_get hget, hget, hr⟩
  · cases hb
    obtain ⟨key, hk⟩ := Option.isSome_iff_exists.mp hs
    obtain ⟨ty, hty, -⟩ := h.nominal id key ((store.allNominalIdentities_get id).symm.trans hk)
    rw [baseLen_freeze]
    exact lt_len_of_get hty
  · cases hb
    obtain ⟨key, hk⟩ := Option.isSome_iff_exists.mp hs
    obtain ⟨-, name, hty⟩ :=
      h.parameter id key ((store.allParameterIdentities_get id).symm.trans hk)
    rw [baseLen_freeze]
    exact lt_len_of_get hty
  · cases hb
    exact hids

end StoreInv

/-! What an operation does. -/

variable {representation : Option TypeId}

namespace TypeInterner

theorem intern_cases (interner : TypeInterner) (ty : Ty) :
    (∃ id, interner.find (canonicalType ty) = some id ∧ interner.intern ty = (id, interner)) ∨
    (interner.find (canonicalType ty) = none ∧ interner.intern ty =
      (interner.store.len, { interner with
        store := (interner.store.intern (canonicalType ty)).2
        types := interner.types.insert (canonicalType ty) interner.store.len })) := by
  unfold intern
  cases h : interner.find (canonicalType ty) with
  | some id => exact Or.inl ⟨id, rfl, rfl⟩
  | none => exact Or.inr ⟨rfl, rfl⟩

theorem internCanonicalNominal_cases (interner : TypeInterner) (key : DefinitionKey) (ty : Ty) :
    (∃ result, interner.internCanonicalNominal key ty = (result, interner)) ∨
    (identityMatchesType key ty = true ∧ interner.canonicalNominals.get key = none ∧
      interner.internCanonicalNominal key ty = (.ok interner.store.len, { interner with
        store := { (interner.store.intern ty).2 with
          nominalIdentities := interner.store.nominalIdentities.insert interner.store.len key }
        canonicalNominals := interner.canonicalNominals.insert key interner.store.len })) := by
  unfold internCanonicalNominal
  cases hm : identityMatchesType key ty with
  | false => exact Or.inl ⟨_, rfl⟩
  | true =>
    cases hk : interner.canonicalNominals.get key with
    | none => exact Or.inr ⟨rfl, rfl, rfl⟩
    | some id =>
      refine Or.inl ?_
      by_cases hg : interner.store.get id = some ty
      · exact ⟨.ok id, by simp [hg]⟩
      · exact ⟨.error "canonical nominal identity has conflicting layouts", by simp [hg]⟩

theorem internCanonicalParameter_cases (portable : GenericOwner → Bool) (interner : TypeInterner)
    (key : CanonicalTypeParameterIdentity) (name : String) :
    (∃ result, interner.internCanonicalParameter portable key name = (result, interner)) ∨
    (portable key.owner = true ∧ interner.store.canonicalParameter key = none ∧
      interner.internCanonicalParameter portable key name =
        (.ok interner.store.len, { interner with
          store := { (interner.store.intern (.named ⟨name, none⟩)).2 with
            parameterIdentities :=
              interner.store.parameterIdentities.insert interner.store.len key
            parameterIds := interner.store.parameterIds.insert key interner.store.len } })) := by
  unfold internCanonicalParameter
  split_ifs with hbad
  · exact Or.inl ⟨_, rfl⟩
  · cases hk : interner.store.canonicalParameter key with
    | none =>
      simp only [Bool.or_eq_true, Bool.not_eq_true', not_or, Bool.not_eq_false] at hbad
      exact Or.inr ⟨hbad.1, rfl, rfl⟩
    | some id =>
      refine Or.inl ?_
      simp only
      split_ifs
      · exact ⟨_, rfl⟩
      · exact ⟨_, rfl⟩

theorem defineNominal_cases {interner interner' : TypeInterner}
    (h : interner.defineNominal id representation = some interner') :
    ∃ nominal, interner.store.baseLen ≤ id ∧ interner.store.get id = some (.nominal nominal) ∧
      ((interner.store.nominalIdentity id).isSome ∧ interner' = { interner with
        store := { interner.store with
          types := interner.store.types.set (id - interner.store.baseLen)
            (.nominal { nominal with representation }) } } ∨
      interner.store.nominalIdentity id = none ∧ interner' = { interner with
        store := { interner.store with
          types := interner.store.types.set (id - interner.store.baseLen)
            (.nominal { nominal with representation }) }
        types := (interner.types.remove (.nominal nominal)).insert
          (.nominal { nominal with representation }) id }) := by
  by_cases hb : id < interner.store.baseLen
  · simp [defineNominal, hb] at h
  · rw [defineNominal, if_neg hb] at h
    split at h
    next nominal hn =>
      have hget : interner.store.get id = some (.nominal nominal) := by
        rw [TypeStore.get, if_neg hb]
        exact hn
      refine ⟨nominal, not_lt.mp hb, hget, ?_⟩
      by_cases hc : (interner.store.nominalIdentity id).isSome
      · simp only [hc, if_true, Option.some.injEq] at h
        exact Or.inl ⟨hc, h.symm⟩
      · simp only [hc, Bool.false_eq_true, if_false, Option.some.injEq] at h
        exact Or.inr ⟨by simpa using hc, h.symm⟩
    next => cases h

end TypeInterner

namespace InternerInv
variable {interner interner' : TypeInterner}

theorem new : InternerInv portable .new :=
  ⟨.new, fun _ _ => iff_of_false nofun nofun, nofun, nofun⟩

theorem isCanonical_len (h : InternerInv portable interner) :
    interner.store.isCanonical interner.store.len = false :=
  h.store.isCanonical_of_get_none (TypeStore.get_eq_none.mpr le_rfl)

theorem baseLen_le_len (store : TypeStore) : store.baseLen ≤ store.len := Nat.le_add_right ..

theorem find_insert (types : Map Ty TypeId) (interner : TypeInterner)
    (ht : interner.types = types.insert ty id) (ty' : Ty) :
    interner.find ty' = if ty' = ty then some id else
      { interner with types := types }.find ty' := by
  unfold TypeInterner.find
  rw [ht, Map.get_insert]
  split_ifs <;> rfl

section
variable (h : InternerInv portable interner)
include h

theorem intern (ty : Ty) : InternerInv portable (interner.intern ty).2 := by
  rcases interner.intern_cases ty with ⟨id, -, hr⟩ | ⟨-, hr⟩
  · rw [hr]
    exact h
  · rw [hr]
    refine ⟨h.store.intern _, h.nominals, fun ty' id hf => ?_, fun ty' id hf => ?_⟩
    · rw [find_insert interner.types _ rfl] at hf
      split_ifs at hf with he
      · cases hf
        subst he
        refine ⟨?_, h.isCanonical_len⟩
        rw [get_intern, if_pos rfl, canonicalType_idem]
      · obtain ⟨hget, hc⟩ := h.sound ty' id hf
        exact ⟨StoreInv.get_intern_of_get hget _, hc⟩
    · rw [Map.get_insert] at hf
      split_ifs at hf
      · cases hf
        exact baseLen_le_len interner.store
      · exact h.localTypes ty' id hf

/-- A found id stays where it is when a node with an entry in a table is added. -/
private theorem sound_reserve (hb : store.base = interner.store.base)
    (hget : ∀ id ty, interner.store.get id = some ty → store.get id = some ty)
    (hc : ∀ id, id < interner.store.len → store.isCanonical id = interner.store.isCanonical id)
    (ty : Ty) (id : TypeId) (hf : TypeInterner.find { interner with store } ty = some id) :
    store.get id = some ty ∧ store.isCanonical id = false := by
  unfold TypeInterner.find at hf
  rw [hb] at hf
  obtain ⟨hty, hcan⟩ := h.sound ty id hf
  exact ⟨hget id ty hty, (hc id (lt_len_of_get hty)).trans hcan⟩

theorem internCanonicalNominal (key : DefinitionKey) (ty : Ty) :
    InternerInv portable (interner.internCanonicalNominal key ty).2 := by
  rcases interner.internCanonicalNominal_cases key ty with ⟨_, hr⟩ | ⟨hm, hnone, hr⟩
  · rw [hr]
    exact h
  · rw [hr]
    have hfresh : ∀ id', interner.store.nominalIdentity id' ≠ some key := by
      intro id' hk
      rw [← h.nominals, hnone] at hk
      cases hk
    have hget : (interner.store.intern ty).2.get interner.store.len = some ty := by
      rw [get_intern, if_pos rfl, canonicalType_of_identityMatchesType hm]
    have hstore := (h.store.intern ty).insertNominal (baseLen_le_len interner.store) hget hm hfresh
    have hident (id : TypeId) :=
      (interner.store.intern ty).2.nominalIdentity_insert interner.store.len id key
    refine ⟨hstore, fun key' id => ?_,
      h.sound_reserve rfl (fun _ _ hg => StoreInv.get_intern_of_get hg ty) fun id hlt => ?_,
      h.localTypes⟩
    · refine Iff.trans ?_ (iff_of_eq (congrArg (· = some key') (hident id).symm))
      change (interner.canonicalNominals.insert key interner.store.len).get key' = some id ↔
        (if id = interner.store.len then _ else interner.store.nominalIdentity id) = some key'
      have hlen := (isCanonical_eq_false.mp h.isCanonical_len).1
      rw [Map.get_insert]
      by_cases hk : key' = key <;> by_cases hi : id = interner.store.len
      · simp [hk, hi]
      · simp [hk, hi, hfresh id, Ne.symm hi]
      · simp [hk, hi, Ne.symm hk, h.nominals, hlen]
      · simp [hk, hi, h.nominals]
    · refine congrArg (fun o : Option DefinitionKey => o.isSome || _) ?_
      exact (hident id).trans (if_neg hlt.ne)

theorem internCanonicalParameter (key : CanonicalTypeParameterIdentity) (name : String) :
    InternerInv portable (interner.internCanonicalParameter portable key name).2 := by
  rcases interner.internCanonicalParameter_cases portable key name with ⟨_, hr⟩ | ⟨hp, hnone, hr⟩
  · rw [hr]
    exact h
  · rw [hr]
    have hget : (interner.store.intern (.named ⟨name, none⟩)).2.get interner.store.len =
        some (.named ⟨name, none⟩) := by
      rw [get_intern, if_pos rfl]
      rfl
    have hlen := (isCanonical_eq_false.mp h.isCanonical_len).2
    refine ⟨(h.store.intern _).insertParameter (baseLen_le_len interner.store) hget hp hlen hnone,
      h.nominals, h.sound_reserve rfl (fun _ _ hg => StoreInv.get_intern_of_get hg _) ?_,
      h.localTypes⟩
    intro id hlt
    unfold TypeStore.isCanonical TypeStore.parameterIdentity
    rw [Map.get_insert, if_neg hlt.ne]
    rfl

theorem defineNominal (hd : interner.defineNominal id representation = some interner') :
    InternerInv portable interner' := by
  obtain ⟨nominal, hb, hget, hcase⟩ := TypeInterner.defineNominal_cases hd
  have hset := get_set interner.store hb (lt_len_of_get hget)
    (.nominal { nominal with representation })
  have hparam := h.store.parameterIdentity_of_nominal hget
  rcases hcase with ⟨hc, rfl⟩ | ⟨hc, rfl⟩
  · refine ⟨h.store.set hb hget _, h.nominals, fun ty id' hf => ?_, h.localTypes⟩
    obtain ⟨hty, hcan⟩ := h.sound ty id' hf
    refine ⟨?_, hcan⟩
    rw [hset, if_neg]
    · exact hty
    · rintro rfl
      rw [(isCanonical_eq_false.mp hcan).1] at hc
      cases hc
  · refine ⟨h.store.set hb hget _, h.nominals, fun ty id' hf => ?_, fun ty id' hf => ?_⟩
    · rw [find_insert (interner.types.remove (.nominal nominal)) _ rfl] at hf
      split_ifs at hf with he
      · cases hf
        subst he
        refine ⟨?_, isCanonical_eq_false.mpr ⟨hc, hparam⟩⟩
        rw [hset, if_pos rfl]
      · -- an entry that is left is one of another node, or of the base
        rw [hset]
        by_cases hold : ty = .nominal nominal
        · unfold TypeInterner.find at hf
          simp only [Map.get_remove, hold, if_true, Option.none_or] at hf
          obtain ⟨base, hbase, hi⟩ := Option.bind_eq_some_iff.mp hf
          obtain ⟨hlt, hty, hcan⟩ := h.store.baseIds base hbase _ id' hi
          rw [if_neg (lt_of_lt_of_le hlt hb).ne, hold]
          exact ⟨hty, hcan⟩
        · have hf' : interner.find ty = some id' := by
            rw [← hf]
            unfold TypeInterner.find
            simp only [Map.get_remove, hold, if_false]
          obtain ⟨hty, hcan⟩ := h.sound ty id' hf'
          rw [if_neg]
          · exact ⟨hty, hcan⟩
          · rintro rfl
            exact hold (Option.some.inj (hty.symm.trans hget))
    · rw [Map.get_insert, Map.get_remove] at hf
      split_ifs at hf
      · cases hf
        exact hb
      · exact h.localTypes ty id' hf

end

theorem fromStore (h : StoreInv portable store) : InternerInv portable (.fromStore store) := by
  refine ⟨h, fun key id => ?_, fun ty id hf => ?_, fun ty id hf => (reverseIndex_sound hf).1⟩
  · change _ ↔ store.nominalIdentity id = some key
    rw [← store.allNominalIdentities_get]
    refine get_inverse (fun a b key ha hb => ?_) key id
    rw [store.allNominalIdentities_get] at ha hb
    exact h.nominal_inj a b key ha hb
  · rcases Option.or_eq_some_iff.mp hf with hl | ⟨-, hbase⟩
    · obtain ⟨hle, hget, hr⟩ := reverseIndex_sound hl
      refine ⟨?_, hr⟩
      change store.get id = some ty
      rw [TypeStore.get, if_neg (not_lt.mpr hle)]
      exact hget
    · obtain ⟨base, hb, hi⟩ := Option.bind_eq_some_iff.mp hbase
      exact (h.baseIds base hb ty id hi).2

variable {allowed : TypeInterner → TypeId → Option TypeId → Prop}

theorem step
    (h : InternerInv portable interner) (hs : InternerStep portable allowed interner interner') :
    InternerInv portable interner' := by
  cases hs with
  | intern ty => exact h.intern ty
  | nominal key ty => exact h.internCanonicalNominal key ty
  | parameter key name => exact h.internCanonicalParameter key name
  | define _ hd => exact h.defineNominal hd
  | reload => exact .fromStore h.store
  | freeze => exact .fromStore h.store.freeze

theorem of_reachable
    (h : InternerReachable portable allowed interner) : InternerInv portable interner := by
  induction h with
  | refl => exact .new
  | tail _ hs ih => exact ih.step hs

end InternerInv

/-! The index finds every node, as long as no declaration is completed to a node that is there. -/

namespace IndexedOn
variable {p : Ty → Prop} {interner interner' : TypeInterner}

theorem new : IndexedOn p .new := by
  intro id ty _ h
  rw [get_eq] at h
  cases h

section
variable (h : IndexedOn p interner)
include h

theorem intern (ty : Ty) : IndexedOn p (interner.intern ty).2 := by
  rcases interner.intern_cases ty with ⟨id, -, hr⟩ | ⟨hnone, hr⟩
  · rw [hr]
    exact h
  · rw [hr]
    intro id t hp ht hc
    rw [InternerInv.find_insert interner.types _ rfl]
    rw [get_intern, canonicalType_idem] at ht
    split_ifs at ht with he
    · rw [if_pos (Option.some.inj ht).symm, he]
    · have hf := h id t hp ht hc
      rw [if_neg]
      · exact hf
      · rintro rfl
        rw [hnone] at hf
        cases hf

/-- Adding a node with an entry in a table. -/
private theorem reserve (ty : Ty) {nominals : Map DefinitionKey TypeId}
    (hb : store.base = interner.store.base)
    (hget : ∀ id, store.get id = (interner.store.intern ty).2.get id)
    (hc : ∀ id, store.isCanonical id = false →
      id ≠ interner.store.len ∧ interner.store.isCanonical id = false) :
    IndexedOn p { interner with store, canonicalNominals := nominals } := by
  intro id t hp ht hcan
  obtain ⟨hne, hcan'⟩ := hc id hcan
  have ht' : interner.store.get id = some t := by
    rw [← ht]
    exact ((hget id).trans ((get_intern ..).trans (if_neg hne))).symm
  have hf := h id t hp ht' hcan'
  unfold TypeInterner.find at hf ⊢
  rw [hb]
  exact hf

theorem internCanonicalNominal (key : DefinitionKey) (ty : Ty) :
    IndexedOn p (interner.internCanonicalNominal key ty).2 := by
  rcases interner.internCanonicalNominal_cases key ty with ⟨_, hr⟩ | ⟨-, -, hr⟩
  · rw [hr]
    exact h
  · rw [hr]
    apply h.reserve ty
    · rfl
    · exact fun _ => rfl
    intro id hc
    rw [isCanonical_eq_false] at hc ⊢
    have hident := (interner.store.intern ty).2.nominalIdentity_insert interner.store.len id key
    have hno := hident.symm.trans hc.1
    split_ifs at hno with he
    exact ⟨he, hno, hc.2⟩

theorem internCanonicalParameter (key : CanonicalTypeParameterIdentity) (name : String) :
    IndexedOn p (interner.internCanonicalParameter portable key name).2 := by
  rcases interner.internCanonicalParameter_cases portable key name with ⟨_, hr⟩ | ⟨-, -, hr⟩
  · rw [hr]
    exact h
  · rw [hr]
    apply h.reserve (.named ⟨name, none⟩)
    · rfl
    · exact fun _ => rfl
    intro id hc
    rw [isCanonical_eq_false] at hc ⊢
    obtain ⟨hn, hp⟩ := hc
    unfold TypeStore.parameterIdentity at hp
    rw [Map.get_insert] at hp
    split_ifs at hp with he
    · simp at hp
    · exact ⟨he, hn, hp⟩

theorem defineNominal (hi : InternerInv portable interner)
    (hfresh : (∃ nominal, p (.nominal nominal)) → CompletesFresh interner id representation)
    (hd : interner.defineNominal id representation = some interner') : IndexedOn p interner' := by
  obtain ⟨nominal, hb, hget, hcase⟩ := TypeInterner.defineNominal_cases hd
  have hset := get_set interner.store hb (lt_len_of_get hget)
    (.nominal { nominal with representation })
  rcases hcase with ⟨hc, rfl⟩ | ⟨hc, rfl⟩
  · intro id' ty hp hty hcan
    rw [hset] at hty
    split_ifs at hty with he
    · subst he
      have hnone : interner.store.nominalIdentity id' = none :=
        (isCanonical_eq_false.mp hcan).1
      rw [hnone] at hc
      cases hc
    · exact h id' ty hp hty hcan
  · intro id' ty hp hty hcan
    rw [InternerInv.find_insert (interner.types.remove (.nominal nominal)) _ rfl]
    rw [hset] at hty
    split_ifs at hty with he
    · rw [if_pos (Option.some.inj hty).symm, he]
    · have hnew : ty ≠ .nominal { nominal with representation } := by
        rintro rfl
        exact he (hfresh ⟨_, hp⟩ nominal hget id' hty hcan)
      have hf := h id' ty hp hty hcan
      have hold : ty ≠ .nominal nominal := by
        rintro rfl
        have hid := h id _ hp hget (isCanonical_eq_false.mpr
          ⟨hc, hi.store.parameterIdentity_of_nominal hget⟩)
        exact he (Option.some.inj (hf.symm.trans hid))
      rw [if_neg hnew, ← hf]
      unfold TypeInterner.find
      simp only [Map.get_remove, hold, if_false]

theorem unique (hp : p ty) {a b : TypeId} (ha : interner.store.get a = some ty)
    (hb : interner.store.get b = some ty) (hca : interner.store.isCanonical a = false)
    (hcb : interner.store.isCanonical b = false) : a = b :=
  Option.some.inj ((h a ty hp ha hca).symm.trans (h b ty hp hb hcb))

theorem reload (hi : InternerInv portable interner) : IndexedOn p (.fromStore interner.store) := by
  have hi' := InternerInv.fromStore hi.store
  intro id ty hp hty hcan
  change interner.store.get id = some ty at hty
  change interner.store.isCanonical id = false at hcan
  obtain ⟨found, hfound⟩ : ∃ found, (reverseIndex interner.store.isCanonical interner.store.types
    interner.store.baseLen).get ty = found := ⟨_, rfl⟩
  have hfind : (TypeInterner.fromStore interner.store).find ty = found.or
      (interner.store.base.bind fun base => base.ids.get ty) := by
    rw [← hfound]
    rfl
  suffices hsome : ∃ id', (TypeInterner.fromStore interner.store).find ty = some id' by
    obtain ⟨id', hf⟩ := hsome
    obtain ⟨hty', hcan'⟩ := hi'.sound ty id' hf
    rw [hf, h.unique hp hty hty' hcan hcan']
  rw [hfind]
  by_cases hb : interner.store.baseLen ≤ id
  · have hloc : interner.store.types[id - interner.store.baseLen]? = some ty := by
      rw [← hty, TypeStore.get, if_neg (not_lt.mpr hb)]
    obtain ⟨id', hx⟩ := reverseIndex_complete hb hloc hcan
    rw [hfound] at hx
    exact ⟨id', by simp [hx]⟩
  · -- a node of the base is not in the local index, so the base has it
    rcases Option.or_eq_some_iff.mp (h id ty hp hty hcan) with hl | ⟨-, hbase⟩
    · exact absurd (hi.localTypes ty id hl) hb
    · cases found with
      | none => exact ⟨id, hbase⟩
      | some id' => exact ⟨id', rfl⟩

theorem freeze (hi : InternerInv portable interner) : IndexedOn p interner.freeze := by
  have hi' := InternerInv.fromStore hi.store.freeze
  intro id ty hp hty hcan
  change (TypeStore.withBase (.ofStore interner.store)).get id = some ty at hty
  change (TypeStore.withBase (.ofStore interner.store)).isCanonical id = false at hcan
  rw [StoreInv.get_freeze] at hty
  rw [StoreInv.isCanonical_freeze] at hcan
  have hall : interner.store.allTypes[id - 0]? = some ty := by rw [← get_eq]; exact hty
  obtain ⟨id', hx⟩ := reverseIndex_complete (Nat.zero_le id) hall hcan
  have hf : interner.freeze.find ty = some id' := hx
  obtain ⟨hty', hcan'⟩ := hi'.sound ty id' hf
  change (TypeStore.withBase (.ofStore interner.store)).get id' = some ty at hty'
  change (TypeStore.withBase (.ofStore interner.store)).isCanonical id' = false at hcan'
  rw [StoreInv.get_freeze] at hty'
  rw [StoreInv.isCanonical_freeze] at hcan'
  rw [hf, h.unique hp hty hty' hcan hcan']

end

theorem of_reachable {allowed : TypeInterner → TypeId → Option TypeId → Prop}
    (hfresh : ∀ interner id representation, allowed interner id representation →
      (∃ nominal, p (.nominal nominal)) → CompletesFresh interner id representation)
    (h : InternerReachable portable allowed interner) : IndexedOn p interner := by
  induction h with
  | refl => exact .new
  | tail hr hs ih =>
    have hi := InternerInv.of_reachable hr
    cases hs with
    | intern ty => exact ih.intern ty
    | nominal key ty => exact ih.internCanonicalNominal key ty
    | parameter key name => exact ih.internCanonicalParameter key name
    | define ha hd => exact ih.defineNominal hi (hfresh _ _ _ ha) hd
    | reload => exact ih.reload hi
    | freeze => exact ih.freeze hi

end IndexedOn

theorem Indexed.of_reachable {interner : TypeInterner}
    (h : InternerReachable portable CompletesFresh interner) : Indexed interner :=
  fun id ty => IndexedOn.of_reachable (p := fun _ => True) (fun _ _ _ ha _ => ha) h id ty trivial

/-- Ids that exist keep their entries in the tables. -/
structure KeepsTables (store store' : TypeStore) : Prop where
  len : store.len ≤ store'.len
  nominal : ∀ id < store.len, store'.nominalIdentity id = store.nominalIdentity id
  parameter : ∀ id < store.len, store'.parameterIdentity id = store.parameterIdentity id

theorem KeepsTables.refl (store : TypeStore) : KeepsTables store store :=
  ⟨le_rfl, fun _ _ => rfl, fun _ _ => rfl⟩

theorem KeepsTables.trans {s t u : TypeStore} (h : KeepsTables s t) (h' : KeepsTables t u) :
    KeepsTables s u where
  len := h.len.trans h'.len
  nominal id hlt := (h'.nominal id (hlt.trans_le h.len)).trans (h.nominal id hlt)
  parameter id hlt := (h'.parameter id (hlt.trans_le h.len)).trans (h.parameter id hlt)

theorem KeepsTables.isCanonical {s t : TypeStore} (h : KeepsTables s t) (hlt : id < s.len) :
    t.isCanonical id = s.isCanonical id := by
  unfold TypeStore.isCanonical
  rw [h.nominal id hlt, h.parameter id hlt]

private theorem len_intern (store : TypeStore) (ty : Ty) : store.len ≤ (store.intern ty).2.len := by
  have : (store.intern ty).2.len = store.baseLen + (store.types ++ [canonicalType ty]).length := rfl
  rw [this, List.length_append, TypeStore.len]
  omega

section
variable {allowed : TypeInterner → TypeId → Option TypeId → Prop}
  {interner later : TypeInterner}

theorem InternerStep.keepsTables (h : InternerStep portable allowed interner later) :
    KeepsTables interner.store later.store := by
  cases h with
  | intern ty =>
    rcases interner.intern_cases ty with ⟨id, -, hr⟩ | ⟨-, hr⟩ <;> rw [hr]
    · exact .refl _
    · exact ⟨len_intern .., fun _ _ => rfl, fun _ _ => rfl⟩
  | nominal key ty =>
    rcases interner.internCanonicalNominal_cases key ty with ⟨_, hr⟩ | ⟨-, -, hr⟩ <;> rw [hr]
    · exact .refl _
    · refine ⟨len_intern .., fun id hlt => ?_, fun _ _ => rfl⟩
      exact ((interner.store.intern ty).2.nominalIdentity_insert _ id key).trans (if_neg hlt.ne)
  | parameter key name =>
    rcases interner.internCanonicalParameter_cases portable key name with ⟨_, hr⟩ | ⟨-, -, hr⟩ <;>
      rw [hr]
    · exact .refl _
    · refine ⟨len_intern .., fun _ _ => rfl, fun id hlt => ?_⟩
      unfold TypeStore.parameterIdentity
      rw [Map.get_insert, if_neg hlt.ne]
      rfl
  | define _ hd =>
    obtain ⟨nominal, -, -, hcase⟩ := TypeInterner.defineNominal_cases hd
    have hlen (ty : Ty) (k : ℕ) :
        { interner.store with types := interner.store.types.set k ty }.len = interner.store.len :=
      congrArg (interner.store.baseLen + ·) List.length_set
    rcases hcase with ⟨-, rfl⟩ | ⟨-, rfl⟩ <;>
      exact ⟨(hlen _ _).ge, fun _ _ => rfl, fun _ _ => rfl⟩
  | reload => exact .refl _
  | freeze =>
    refine ⟨?_, fun id _ => StoreInv.nominalIdentity_freeze .., fun id _ =>
      StoreInv.parameterIdentity_freeze ..⟩
    exact (StoreInv.baseLen_freeze interner.store).ge.trans (InternerInv.baseLen_le_len _)

theorem KeepsTables.of_steps
    (h : ReflTransGen (InternerStep portable allowed) interner later) :
    KeepsTables interner.store later.store := by
  induction h with
  | refl => exact .refl _
  | tail _ hs ih => exact ih.trans hs.keepsTables

theorem InternerInv.intern_spec (h : InternerInv portable interner) (ty : Ty) :
    (interner.intern ty).2.store.get (interner.intern ty).1 = some (canonicalType ty) ∧
      (interner.intern ty).2.store.isCanonical (interner.intern ty).1 = false := by
  rcases interner.intern_cases ty with ⟨id, hf, hr⟩ | ⟨-, hr⟩
  · rw [hr]
    exact h.sound _ id hf
  · rw [hr]
    refine ⟨?_, h.isCanonical_len⟩
    rw [get_intern, if_pos rfl, canonicalType_idem]

theorem Indexed.intern_eq (h : Indexed interner)
    (hget : interner.store.get id = some (canonicalType ty))
    (hc : interner.store.isCanonical id = false) : (interner.intern ty).1 = id := by
  rcases interner.intern_cases ty with ⟨id', hf, hr⟩ | ⟨hf, -⟩
  · rw [hr]
    exact Option.some.inj (hf.symm.trans (h id _ hget hc))
  · rw [h id _ hget hc] at hf
    cases hf

end

/-- Over every sequence of operations `intern` returns the id of the canonical form, outside the
tables, and each key has one id, for good. Over those that complete no declaration to a node
already there, ids outside the tables hold distinct nodes and a node is found again until its id is
completed to another one. -/
theorem interner_ids (portable : GenericOwner → Bool) :
    (∀ interner, InternerReachable portable (fun _ _ _ => True) interner →
      (∀ ty, (interner.intern ty).2.store.get (interner.intern ty).1 = some (canonicalType ty) ∧
        (interner.intern ty).2.store.isCanonical (interner.intern ty).1 = false) ∧
      (∀ key id, interner.canonicalNominals.get key = some id ↔
        interner.store.nominalIdentity id = some key) ∧
      (∀ key id, interner.store.canonicalParameter key = some id ↔
        interner.store.parameterIdentity id = some key) ∧
      ∀ later, ReflTransGen (InternerStep portable fun _ _ _ => True) interner later →
        KeepsTables interner.store later.store) ∧
    ∀ interner, InternerReachable portable CompletesFresh interner →
      (∀ a b ty, interner.store.get a = some ty → interner.store.get b = some ty →
        interner.store.isCanonical a = false → interner.store.isCanonical b = false → a = b) ∧
      ∀ ty later, ReflTransGen (InternerStep portable CompletesFresh) (interner.intern ty).2 later →
        later.store.get (interner.intern ty).1 = some (canonicalType ty) →
          (later.intern ty).1 = (interner.intern ty).1 := by
  refine ⟨fun interner h => ?_, fun interner h => ⟨?_, fun ty later hl hget => ?_⟩⟩
  · have hi := InternerInv.of_reachable h
    exact ⟨hi.intern_spec, hi.nominals, hi.store.parameterIds, fun _ => .of_steps⟩
  · intro a b ty ha hb hca hcb
    have hindexed := Indexed.of_reachable h
    exact Option.some.inj ((hindexed a ty ha hca).symm.trans (hindexed b ty hb hcb))
  · have hlater : InternerReachable portable CompletesFresh later :=
      (h.tail (.intern interner ty)).trans hl
    obtain ⟨hid, hc⟩ := (InternerInv.of_reachable h).intern_spec ty
    refine (Indexed.of_reachable hlater).intern_eq hget ?_
    rw [(KeepsTables.of_steps hl).isCanonical (lt_len_of_get hid)]
    exact hc

/-- A declaration, a primitive and the completed declaration, interned in this order. -/
def twinInterner : TypeInterner :=
  (((TypeInterner.new.intern (.nominal ⟨"Id", [], none, false⟩)).2.intern (.primitive .u64)).2.intern
    (.nominal ⟨"Id", [], some 1, false⟩)).2

theorem interner_ids_twin :
    (twinInterner.intern (.list 1)).2.store.get (twinInterner.intern (.list 1)).1 =
        some (canonicalType (.list 1)) ∧
      (twinInterner.intern (.primitive .u64)).1 = 1 := by
  have hreach (allowed : TypeInterner → TypeId → Option TypeId → Prop) :
      InternerReachable (fun _ => true) allowed twinInterner :=
    ((ReflTransGen.single (.intern _ _)).tail (.intern _ _)).tail (.intern _ _)
  obtain ⟨hany, hfresh⟩ := interner_ids fun _ => true
  refine ⟨((hany twinInterner (hreach _)).1 (.list 1)).1, ?_⟩
  exact (hfresh twinInterner (hreach _)).2 (.primitive .u64) _ .refl (by decide)

/-- Completing the first declaration to the third node: two ids hold one node, the node is interned
to another id than before, and the declaration is interned anew. -/
theorem defineNominal_makes_twins :
    ∃ after, InternerReachable (fun _ => true) (fun _ _ _ => True) twinInterner ∧
      twinInterner.defineNominal 0 (some 1) = some after ∧
      after.store.get 0 = some (.nominal ⟨"Id", [], some 1, false⟩) ∧
      after.store.get 2 = some (.nominal ⟨"Id", [], some 1, false⟩) ∧
      after.store.isCanonical 0 = false ∧ after.store.isCanonical 2 = false ∧
      (twinInterner.intern (.nominal ⟨"Id", [], some 1, false⟩)).1 = 2 ∧
      (after.intern (.nominal ⟨"Id", [], some 1, false⟩)).1 = 0 ∧
      (after.intern (.nominal ⟨"Id", [], none, false⟩)).1 = 3 := by
  refine ⟨_, ?_, rfl, by decide, by decide, by decide, by decide, by decide, by decide, by decide⟩
  exact ((ReflTransGen.single (.intern _ _)).tail (.intern _ _)).tail (.intern _ _)

end EtasFrontend.Types
