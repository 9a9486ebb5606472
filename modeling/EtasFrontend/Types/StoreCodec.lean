import EtasFrontend.Types.StoreInvariant

/-! The wire form of a store and the local parts of a body store. Both are validated when they are
read back. -/
namespace EtasFrontend.Types
open Lib

/-- The flat record a complete store is written as. -/
structure FlatStore where
  types : List Ty
  nominalIdentities : Map TypeId DefinitionKey
  parameterIdentities : Map TypeId CanonicalTypeParameterIdentity

/-! Validation. -/

/-- One pass over a table: every entry is valid and its key is new to the set of keys seen. -/
def checkKeys {κ : Type} [DecidableEq κ] (valid : TypeId → κ → Bool) (message : String) :
    List (TypeId × κ) → List κ → Except String Unit
  | [], _ => .ok ()
  | (id, key) :: rest, keys =>
      if !valid id key || keys.contains key then .error message
      else checkKeys valid message rest (key :: keys)

def validNominal (types : TypeId → Option Ty) (id : TypeId) (key : DefinitionKey) : Bool :=
  (types id).any (identityMatchesType key)

def validParameter (portable : GenericOwner → Bool) (types : TypeId → Option Ty)
    (nominals : Map TypeId DefinitionKey) (id : TypeId) (key : CanonicalTypeParameterIdentity) :
    Bool :=
  portable key.owner &&
    (match types id with
      | some (.named name) => name.sourceParameter.isNone
      | _ => false) &&
    (nominals.get id).isNone

namespace TypeStore

/-- A validated store; the ids of its parameters are collected from their table. -/
def ofParts (base : Option FrozenTypes) (types : List Ty) (nominals : Map TypeId DefinitionKey)
    (parameters : Map TypeId CanonicalTypeParameterIdentity) : TypeStore where
  base := base
  types := types.map canonicalType
  nominalIdentities := nominals
  parameterIdentities := parameters
  parameterIds := Map.ofList (parameters.toList.map Prod.swap)

def serialize (store : TypeStore) : FlatStore :=
  ⟨store.allTypes, store.allNominalIdentities, store.allParameterIdentities⟩

def deserialize (portable : GenericOwner → Bool) (flat : FlatStore) : Except String TypeStore := do
  let types := fun id : TypeId => flat.types[id]?
  checkKeys (validNominal types) "invalid or duplicate canonical nominal identity"
    flat.nominalIdentities.toList []
  checkKeys (validParameter portable types flat.nominalIdentities)
    "invalid or duplicate canonical parameter identity" flat.parameterIdentities.toList []
  return .ofParts none flat.types flat.nominalIdentities flat.parameterIdentities

def intoLocalParts (store : TypeStore) :
    List Ty × Map TypeId DefinitionKey × Map TypeId CanonicalTypeParameterIdentity :=
  (store.types, store.nominalIdentities, store.parameterIdentities)

def withLocalParts (portable : GenericOwner → Bool) (base : FrozenTypes) (types : List Ty)
    (nominals : Map TypeId DefinitionKey)
    (parameters : Map TypeId CanonicalTypeParameterIdentity) : Except String TypeStore := do
  -- an id of the base has no local node
  let localTypes := fun id : TypeId =>
    if base.types.length ≤ id then types[id - base.types.length]? else none
  checkKeys (validNominal localTypes) "invalid or duplicate body nominal identity"
    nominals.toList (base.nominalIdentities.toList.map Prod.snd)
  checkKeys (validParameter portable localTypes nominals)
    "invalid or duplicate body parameter identity" parameters.toList
    (base.parameterIdentities.toList.map Prod.snd)
  return .ofParts (some base) types nominals parameters

end TypeStore

theorem checkKeys_ok {κ : Type} [DecidableEq κ] {valid : TypeId → κ → Bool} {message : String}
    {entries : List (TypeId × κ)} {keys : List κ} (hv : ∀ e ∈ entries, valid e.1 e.2 = true)
    (hnd : (entries.map Prod.snd).Nodup) (hd : ∀ e ∈ entries, e.2 ∉ keys) :
    checkKeys valid message entries keys = .ok () := by
  induction entries generalizing keys with
  | nil => rfl
  | cons e rest ih =>
    obtain ⟨id, key⟩ := e
    obtain ⟨hkey, hrest⟩ := List.nodup_cons.mp hnd
    have hnew : keys.contains key = false := by simpa using hd _ List.mem_cons_self
    rw [checkKeys, hv _ List.mem_cons_self, hnew, if_neg (by simp)]
    refine ih (fun e he => hv e (List.mem_cons_of_mem _ he)) hrest fun e he => ?_
    rw [List.mem_cons, not_or]
    refine ⟨?_, hd e (List.mem_cons_of_mem _ he)⟩
    intro heq
    exact hkey (List.mem_map.mpr ⟨e, he, heq⟩)

/-- A table with distinct keys passes when its entries are valid and not among those before. -/
theorem checkKeys_table {κ : Type} [DecidableEq κ] {valid : TypeId → κ → Bool} {message : String}
    {table : Map TypeId κ} (before : List (TypeId × κ))
    (hinj : ∀ id id' key, table.get id = some key → table.get id' = some key → id = id')
    (hv : ∀ id key, table.get id = some key → valid id key = true)
    (hd : ∀ id id' key, table.get id = some key → (id', key) ∉ before) :
    checkKeys valid message table.toList (before.map Prod.snd) = .ok () := by
  refine checkKeys_ok (fun e he => hv e.1 e.2 (Map.mem_toList.mp he)) ?_ fun e he hmem => ?_
  · refine (Map.nodup_toList table).map_on fun a ha b hb hab => ?_
    rw [Prod.ext_iff]
    exact ⟨hinj _ _ _ (Map.mem_toList.mp ha) (hab ▸ Map.mem_toList.mp hb), hab⟩
  · obtain ⟨e', he', hk⟩ := List.mem_map.mp hmem
    exact hd e.1 e'.1 e.2 (Map.mem_toList.mp he) (hk ▸ he')

/-- The two stores answer every query alike. -/
structure Agrees (restored store : TypeStore) : Prop where
  get : ∀ id, restored.get id = store.get id
  nominalIdentity : ∀ id, restored.nominalIdentity id = store.nominalIdentity id
  parameterIdentity : ∀ id, restored.parameterIdentity id = store.parameterIdentity id
  canonicalParameter : ∀ key, restored.canonicalParameter key = store.canonicalParameter key

namespace StoreInv
variable {portable : GenericOwner → Bool} {store : TypeStore} {id : TypeId}

theorem validNominal (h : StoreInv portable store) {types : TypeId → Option Ty}
    {key : DefinitionKey} (ht : types id = store.get id)
    (hk : store.nominalIdentity id = some key) : validNominal types id key = true := by
  obtain ⟨ty, hty, hm⟩ := h.nominal id key hk
  unfold Types.validNominal
  rw [ht, hty]
  exact hm

variable {key : CanonicalTypeParameterIdentity}

section
variable (h : StoreInv portable store)
include h

theorem validParameter {types : TypeId → Option Ty}
    {nominals : Map TypeId DefinitionKey} (ht : types id = store.get id)
    (hn : ∀ key, nominals.get id = some key → store.nominalIdentity id = some key)
    (hk : store.parameterIdentity id = some key) :
    validParameter portable types nominals id key = true := by
  obtain ⟨hp, name, hty⟩ := h.parameter id key hk
  have hnone : nominals.get id = none := by
    by_contra hne
    obtain ⟨key', hk'⟩ := Option.ne_none_iff_exists'.mp hne
    obtain ⟨ty, hty', hm⟩ := h.nominal id key' (hn key' hk')
    cases hty.symm.trans hty'
    cases hm
  unfold Types.validParameter
  rw [ht, hty, hp, hnone]
  rfl

theorem map_canonicalType {types : List Ty}
    (hsub : types ⊆ store.allTypes) : types.map canonicalType = types := by
  conv_rhs => rw [← List.map_id types]
  refine List.map_congr_left fun ty hty => ?_
  obtain ⟨id, hid⟩ := List.mem_iff_getElem?.mp (hsub hty)
  exact h.canonical id ty ((store.get_eq id).trans hid)

/-- With the tables alike and the inverse table complete, the parameters are found alike. -/
theorem agrees {restored : TypeStore}
    (hall : restored.allTypes = store.allTypes)
    (hn : ∀ id, restored.nominalIdentity id = store.nominalIdentity id)
    (hp : ∀ id, restored.parameterIdentity id = store.parameterIdentity id)
    (hids : ∀ key id, restored.canonicalParameter key = some id ↔
      restored.parameterIdentity id = some key) : Agrees restored store where
  get id := by rw [TypeStore.get_eq, TypeStore.get_eq, hall]
  nominalIdentity := hn
  parameterIdentity := hp
  canonicalParameter key := Option.ext fun id => by
    rw [hids, hp, h.parameterIds]

theorem deserialize_serialize :
    ∃ restored, TypeStore.deserialize portable store.serialize = .ok restored ∧
      Agrees restored store := by
  have htypes (id : TypeId) : store.serialize.types[id]? = store.get id := (store.get_eq id).symm
  have hnominal (id : TypeId) : store.serialize.nominalIdentities.get id =
    store.nominalIdentity id := store.allNominalIdentities_get id
  have hparameter (id : TypeId) : store.serialize.parameterIdentities.get id =
    store.parameterIdentity id := store.allParameterIdentities_get id
  have hinj : ∀ id id' key, store.serialize.parameterIdentities.get id = some key →
      store.serialize.parameterIdentities.get id' = some key → id = id' := by
    intro id id' key hk hk'
    exact h.parameter_inj id id' key (hparameter id ▸ hk) (hparameter id' ▸ hk')
  have hchecked : checkKeys (Types.validNominal fun id => store.serialize.types[id]?)
      "invalid or duplicate canonical nominal identity"
      store.serialize.nominalIdentities.toList [] = .ok () := by
    refine checkKeys_table [] (fun id id' key hk hk' => ?_) (fun id key hk => ?_) nofun
    · exact h.nominal_inj id id' key (hnominal id ▸ hk) (hnominal id' ▸ hk')
    · exact h.validNominal (htypes id) (hnominal id ▸ hk)
  have hchecked' : checkKeys (Types.validParameter portable (fun id => store.serialize.types[id]?)
      store.serialize.nominalIdentities) "invalid or duplicate canonical parameter identity"
      store.serialize.parameterIdentities.toList [] = .ok () := by
    refine checkKeys_table [] hinj (fun id key hk => ?_) nofun
    exact h.validParameter (htypes id) (fun _ hn => hnominal id ▸ hn) (hparameter id ▸ hk)
  refine ⟨.ofParts none store.allTypes store.allNominalIdentities store.allParameterIdentities, ?_,
    h.agrees ?_ ?_ ?_ ?_⟩
  · unfold TypeStore.deserialize
    simp only [hchecked, hchecked']
    rfl
  · exact h.map_canonicalType (List.Subset.refl _)
  · intro id
    exact (Option.or_none ..).trans (hnominal id)
  · intro id
    exact (Option.or_none ..).trans (hparameter id)
  · intro key id
    refine (iff_of_eq (congrArg (· = some id) (Option.or_none ..))).trans ?_
    refine (get_inverse hinj key id).trans ?_
    exact (iff_of_eq (congrArg (· = some key) (Option.or_none ..))).symm

end

theorem nominalIdentity_local {key : DefinitionKey}
    (hk : store.nominalIdentities.get id = some key) : store.nominalIdentity id = some key := by
  rw [TypeStore.nominalIdentity, hk, Option.some_or]

theorem parameterIdentity_local (hk : store.parameterIdentities.get id = some key) :
    store.parameterIdentity id = some key := by
  rw [TypeStore.parameterIdentity, hk, Option.some_or]

theorem nominalIdentity_base (h : StoreInv portable store) {key : DefinitionKey}
    (hk : (store.base.bind fun base => base.nominalIdentities.get id) = some key) :
    id < store.baseLen ∧ store.nominalIdentity id = some key := by
  obtain ⟨base, hbase, hb⟩ := Option.bind_eq_some_iff.mp hk
  have hlt := h.baseNominal base hbase id (hb ▸ rfl)
  have hnone : store.nominalIdentities.get id = none := by
    by_contra hne
    exact (h.localNominal id (Option.isSome_iff_ne_none.mpr hne)).not_gt hlt
  refine ⟨hlt, ?_⟩
  rw [TypeStore.nominalIdentity, hnone, Option.none_or, hk]

theorem parameterIdentity_base (h : StoreInv portable store)
    (hk : (store.base.bind fun base => base.parameterIdentities.get id) = some key) :
    id < store.baseLen ∧ store.parameterIdentity id = some key := by
  obtain ⟨base, hbase, hb⟩ := Option.bind_eq_some_iff.mp hk
  have hlt := h.baseParameter base hbase id (hb ▸ rfl)
  have hnone : store.parameterIdentities.get id = none := by
    by_contra hne
    exact (h.localParameter id (Option.isSome_iff_ne_none.mpr hne)).not_gt hlt
  refine ⟨hlt, ?_⟩
  rw [TypeStore.parameterIdentity, hnone, Option.none_or, hk]

/-- A base for the local parts of `store`: its own, or the empty one when it has none. -/
structure IsBase (base : FrozenTypes) (store : TypeStore) : Prop where
  types : base.types = store.baseTypes
  nominal : ∀ id, base.nominalIdentities.get id =
    store.base.bind fun base => base.nominalIdentities.get id
  parameter : ∀ id, base.parameterIdentities.get id =
    store.base.bind fun base => base.parameterIdentities.get id
  parameterIds : ∀ key, base.parameterIds.get key =
    store.base.bind fun base => base.parameterIds.get key

theorem isBase_getD (store : TypeStore) : IsBase (store.base.getD (.ofStore .new)) store := by
  obtain ⟨_ | base, types, nominals, parameters, ids⟩ := store
  · exact ⟨rfl, fun _ => rfl, fun _ => rfl, fun _ => rfl⟩
  · exact ⟨rfl, fun _ => rfl, fun _ => rfl, fun _ => rfl⟩

theorem canonicalParameter_ofParts (h : StoreInv portable store) {base : FrozenTypes}
    (hb : IsBase base store) (key : CanonicalTypeParameterIdentity) (id : TypeId) :
    (TypeStore.ofParts (some base) store.types store.nominalIdentities
      store.parameterIdentities).canonicalParameter key = some id ↔
      store.parameterIdentity id = some key := by
  have hloc (id : TypeId) : (Map.ofList (store.parameterIdentities.toList.map Prod.swap)).get key =
      some id ↔ store.parameterIdentities.get id = some key := by
    refine get_inverse (fun a b key ha hb => ?_) key id
    exact h.parameter_inj a b key (parameterIdentity_local ha) (parameterIdentity_local hb)
  have hbase : base.parameterIds.get key = some id ↔
      (store.base.bind fun base => base.parameterIdentities.get id) = some key := by
    rw [hb.parameterIds, Option.bind_eq_some_iff, Option.bind_eq_some_iff]
    constructor
    · rintro ⟨b, hs, hk⟩
      exact ⟨b, hs, (h.baseParameterIds b hs key id).mp hk⟩
    · rintro ⟨b, hs, hk⟩
      exact ⟨b, hs, (h.baseParameterIds b hs key id).mpr hk⟩
  change ((Map.ofList (store.parameterIdentities.toList.map Prod.swap)).get key).or
    (base.parameterIds.get key) = some id ↔ _
  rw [Option.or_eq_some_iff, hloc, hbase]
  constructor
  · rintro (hk | ⟨-, hk⟩)
    · exact parameterIdentity_local hk
    · exact (h.parameterIdentity_base hk).2
  · intro hk
    rcases Option.or_eq_some_iff.mp hk with hl | ⟨-, hl⟩
    · exact Or.inl hl
    · -- the key of a parameter of the base has no second id in the local table
      refine Or.inr ⟨?_, hl⟩
      by_contra hne
      obtain ⟨id', hid'⟩ := Option.ne_none_iff_exists'.mp hne
      have hl' := (hloc id').mp hid'
      have heq := h.parameter_inj id' id key (parameterIdentity_local hl') hk
      have hge := h.localParameter id' (hl' ▸ rfl)
      rw [heq] at hge
      exact hge.not_gt (h.parameterIdentity_base hl).1

theorem withLocalParts_intoLocalParts (h : StoreInv portable store) {base : FrozenTypes}
    (hb : IsBase base store) :
    ∃ restored, TypeStore.withLocalParts portable base store.intoLocalParts.1
        store.intoLocalParts.2.1 store.intoLocalParts.2.2 = .ok restored ∧
      Agrees restored store := by
  have htypes (id : TypeId) (hid : store.baseLen ≤ id) :
      (if base.types.length ≤ id then store.types[id - base.types.length]? else none) =
        store.get id := by
    rw [hb.types, TypeStore.get, if_neg (not_lt.mpr hid)]
    exact if_pos hid
  have hchecked : checkKeys (Types.validNominal fun id =>
        if base.types.length ≤ id then store.types[id - base.types.length]? else none)
      "invalid or duplicate body nominal identity" store.nominalIdentities.toList
      (base.nominalIdentities.toList.map Prod.snd) = .ok () := by
    refine checkKeys_table _ (fun id id' key hk hk' => ?_) (fun id key hk => ?_)
      fun id id' key hk hmem => ?_
    · exact h.nominal_inj id id' key (nominalIdentity_local hk) (nominalIdentity_local hk')
    · exact h.validNominal (htypes id (h.localNominal id (hk ▸ rfl))) (nominalIdentity_local hk)
    · obtain ⟨hlt, hk'⟩ := h.nominalIdentity_base ((hb.nominal id').symm.trans (Map.mem_toList.mp hmem))
      have heq := h.nominal_inj id id' key (nominalIdentity_local hk) hk'
      exact (h.localNominal id (hk ▸ rfl)).not_gt (heq ▸ hlt)
  have hchecked' : checkKeys (Types.validParameter portable (fun id =>
        if base.types.length ≤ id then store.types[id - base.types.length]? else none)
        store.nominalIdentities)
      "invalid or duplicate body parameter identity" store.parameterIdentities.toList
      (base.parameterIdentities.toList.map Prod.snd) = .ok () := by
    refine checkKeys_table _ (fun id id' key hk hk' => ?_) (fun id key hk => ?_)
      fun id id' key hk hmem => ?_
    · exact h.parameter_inj id id' key (parameterIdentity_local hk) (parameterIdentity_local hk')
    · exact h.validParameter (htypes id (h.localParameter id (hk ▸ rfl)))
        (fun _ hn => nominalIdentity_local hn) (parameterIdentity_local hk)
    · obtain ⟨hlt, hk'⟩ :=
        h.parameterIdentity_base ((hb.parameter id').symm.trans (Map.mem_toList.mp hmem))
      have heq := h.parameter_inj id id' key (parameterIdentity_local hk) hk'
      exact (h.localParameter id (hk ▸ rfl)).not_gt (heq ▸ hlt)
  refine ⟨.ofParts (some base) store.types store.nominalIdentities store.parameterIdentities, ?_,
    h.agrees ?_ ?_ ?_ ?_⟩
  · unfold TypeStore.withLocalParts TypeStore.intoLocalParts
    simp only [hchecked, hchecked']
    rfl
  · have hmap := h.map_canonicalType (List.subset_append_right store.baseTypes store.types)
    change base.types ++ store.types.map canonicalType = _
    rw [hb.types, hmap]
    rfl
  · intro id
    exact congrArg (store.nominalIdentities.get id).or (hb.nominal id)
  · intro id
    exact congrArg (store.parameterIdentities.get id).or (hb.parameter id)
  · intro key id
    rw [h.canonicalParameter_ofParts hb]
    exact (iff_of_eq (congrArg (fun o => (store.parameterIdentities.get id).or o = some key)
      (hb.parameter id))).symm

end StoreInv

/-- A store an interner reached is read back from its wire form, and from its local parts over its
base. -/
theorem store_round_trips (portable : GenericOwner → Bool) {interner : TypeInterner}
    (h : InternerReachable portable (fun _ _ _ => True) interner) :
    (∃ restored, TypeStore.deserialize portable interner.store.serialize = .ok restored ∧
      Agrees restored interner.store) ∧
    ∃ restored, TypeStore.withLocalParts portable
        (interner.store.base.getD (.ofStore .new)) interner.store.intoLocalParts.1
        interner.store.intoLocalParts.2.1 interner.store.intoLocalParts.2.2 = .ok restored ∧
      Agrees restored interner.store := by
  have hi := (InternerInv.of_reachable h).store
  exact ⟨hi.deserialize_serialize, hi.withLocalParts_intoLocalParts (StoreInv.isBase_getD _)⟩

/-- A declaration in a frozen base; in the body over it a parameter and a declaration. -/
def bodyInterner : TypeInterner :=
  let key (name : String) : DefinitionKey := ⟨"app", ["m"], [name], .type⟩
  let base := (TypeInterner.new.internCanonicalNominal (key "Id")
    (.nominal ⟨"Id", [], none, false⟩)).2.freeze
  let body := (base.internCanonicalParameter (fun _ => true) ⟨.declaration (key "Box"), 0⟩ "T").2
  (body.internCanonicalNominal (key "Box") (.nominal ⟨"Box", ["T"], none, false⟩)).2

/-- The declaration of the body is completed in place; its store is still read back. -/
theorem store_round_trips_body :
    ∃ completed, bodyInterner.defineNominal 2 (some 1) = some completed ∧
      completed.store.get 2 = some (.nominal ⟨"Box", ["T"], some 1, false⟩) ∧
      ∃ restored, TypeStore.deserialize (fun _ => true) completed.store.serialize =
        .ok restored ∧ Agrees restored completed.store := by
  have hreach : InternerReachable (fun _ => true) (fun _ _ _ => True) bodyInterner :=
    (((Relation.ReflTransGen.single (.nominal _ _ _)).tail (.freeze _)).tail
      (.parameter _ _ _)).tail (.nominal _ _ _)
  obtain ⟨completed, hd⟩ : ∃ completed, bodyInterner.defineNominal 2 (some 1) = some completed :=
    ⟨_, rfl⟩
  refine ⟨completed, hd, ?_, (store_round_trips _ (hreach.tail (.define trivial hd))).1⟩
  cases hd
  decide

end EtasFrontend.Types
