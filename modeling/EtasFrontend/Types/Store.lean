import EtasFrontend.Lib.Map
import EtasFrontend.Types.Ty
import Mathlib.Data.List.Destutter
import Mathlib.Data.Prod.Lex
import Mathlib.Data.String.Basic

/-! The type store and the interner over it. A store is a local segment of nodes after an
optional frozen base; the interner adds the reverse index from a node to its id. -/
namespace EtasFrontend.Types
open Lib

/-! Canonical form of a node. -/

private abbrev SpecKey := ℕ ×ₗ ℕ ×ₗ List String ×ₗ List String ×ₗ List String ×ₗ ℕ

private def specKey (tag number : ℕ) (first second third : List String) (last : ℕ) : SpecKey :=
  toLex (tag, toLex (number, toLex (first, toLex (second, toLex (third, last)))))

def DefinitionKind.index : DefinitionKind → ℕ
  | .type => 0 | .spec => 1 | .agent => 2 | .flow => 3 | .tool => 4
  | .effect => 5 | .enumVariant => 6 | .value => 7 | .protocol => 8 | .requirement => 9

/-- The derived order of `CheckedSpecRef`: by variant, then by its fields. -/
def CheckedSpecRef.orderKey : CheckedSpecRef → SpecKey
  | .source symbol => specKey 0 symbol [] [] [] 0
  | .std path => specKey 1 0 path [] [] 0
  | .external package path => specKey 2 package path [] [] 0
  | .canonical key => specKey 3 0 [key.package] key.modulePath key.path key.kind.index

def CheckedSpecBound.Le (left right : CheckedSpecBound) : Prop :=
  toLex (left.spec.orderKey, left.args) ≤ toLex (right.spec.orderKey, right.args)

instance : DecidableRel CheckedSpecBound.Le := fun left right =>
  inferInstanceAs (Decidable (toLex (left.spec.orderKey, left.args) ≤
    toLex (right.spec.orderKey, right.args)))

/-- Bounds of an existential are sorted and adjacent repetitions dropped; the empty tuple is
the unit type. -/
def canonicalType : Ty → Ty
  | .existential bounds =>
      .existential ((bounds.insertionSort CheckedSpecBound.Le).destutter (· ≠ ·))
  | .tuple [] => .primitive .unit
  | ty => ty

/-! Identities of declarations and of their parameters. -/

/-- What a generic parameter belongs to. -/
inductive GenericOwner where
  | declaration (key : DefinitionKey)
  | method (method : CodeFingerprint)
  | implementation (implementation : CodeFingerprint)
  | implementationPattern (pattern : CodeFingerprint)
  deriving DecidableEq

structure CanonicalTypeParameterIdentity where
  owner : GenericOwner
  index : ℕ
  deriving DecidableEq

def identityMatchesType (identity : DefinitionKey) : Ty → Bool
  | .nominal _ => identity.kind == .type || identity.kind == .agent
  | .enum _ => identity.kind == .type
  | _ => false

/-- A frozen, indexed type universe. -/
structure FrozenTypes where
  types : List Ty
  ids : Map Ty TypeId
  nominalIdentities : Map TypeId DefinitionKey
  parameterIdentities : Map TypeId CanonicalTypeParameterIdentity
  parameterIds : Map CanonicalTypeParameterIdentity TypeId

structure TypeStore where
  base : Option FrozenTypes
  types : List Ty
  nominalIdentities : Map TypeId DefinitionKey
  parameterIdentities : Map TypeId CanonicalTypeParameterIdentity
  parameterIds : Map CanonicalTypeParameterIdentity TypeId

namespace TypeStore

def new : TypeStore := ⟨none, [], ∅, ∅, ∅⟩

def withBase (base : FrozenTypes) : TypeStore := ⟨some base, [], ∅, ∅, ∅⟩

def baseTypes (store : TypeStore) : List Ty := (store.base.map FrozenTypes.types).getD []

def baseLen (store : TypeStore) : ℕ := store.baseTypes.length

def len (store : TypeStore) : ℕ := store.baseLen + store.types.length

/-- All nodes, in the order of their ids. -/
def allTypes (store : TypeStore) : List Ty := store.baseTypes ++ store.types

def get (store : TypeStore) (id : TypeId) : Option Ty :=
  if id < store.baseLen then store.baseTypes[id]? else store.types[id - store.baseLen]?

def nominalIdentity (store : TypeStore) (id : TypeId) : Option DefinitionKey :=
  (store.nominalIdentities.get id).or (store.base.bind fun base => base.nominalIdentities.get id)

def allNominalIdentities (store : TypeStore) : Map TypeId DefinitionKey :=
  ((store.base.map FrozenTypes.nominalIdentities).getD ∅).extend store.nominalIdentities

def parameterIdentity (store : TypeStore) (id : TypeId) : Option CanonicalTypeParameterIdentity :=
  (store.parameterIdentities.get id).or
    (store.base.bind fun base => base.parameterIdentities.get id)

def allParameterIdentities (store : TypeStore) : Map TypeId CanonicalTypeParameterIdentity :=
  ((store.base.map FrozenTypes.parameterIdentities).getD ∅).extend store.parameterIdentities

def canonicalParameter (store : TypeStore) (identity : CanonicalTypeParameterIdentity) :
    Option TypeId :=
  (store.parameterIds.get identity).or (store.base.bind fun base => base.parameterIds.get identity)

/-- Append a node; its id is the length before. -/
def intern (store : TypeStore) (ty : Ty) : TypeId × TypeStore :=
  (store.len, { store with types := store.types ++ [canonicalType ty] })

/-- An id reserved for a declaration or a parameter is left out of the reverse index. -/
def isCanonical (store : TypeStore) (id : TypeId) : Bool :=
  (store.nominalIdentity id).isSome || (store.parameterIdentity id).isSome

theorem get_eq (store : TypeStore) (id : TypeId) : store.get id = store.allTypes[id]? := by
  unfold get allTypes baseLen
  split_ifs with h
  · rw [List.getElem?_append_left h]
  · rw [List.getElem?_append_right (not_lt.mp h)]

theorem get_eq_none {store : TypeStore} {id : TypeId} : store.get id = none ↔ store.len ≤ id := by
  rw [get_eq, List.getElem?_eq_none_iff, allTypes, List.length_append]
  rfl

theorem lt_len_of_get {store : TypeStore} {id : TypeId} {ty : Ty} (h : store.get id = some ty) :
    id < store.len := by
  by_contra hl
  rw [get_eq_none.mpr (not_lt.mp hl)] at h
  cases h

end TypeStore

/-- Index of the nodes that are not reserved, the first id of a node winning. -/
def reverseIndex (reserved : TypeId → Bool) (types : List Ty) (start : ℕ) : Map Ty TypeId :=
  (types.zipIdx start).foldl (fun m e => if reserved e.2 then m else m.orInsert e.1 e.2) ∅

/-- `SharedTypeBase::new`: freeze a whole store. -/
def FrozenTypes.ofStore (store : TypeStore) : FrozenTypes where
  types := store.allTypes
  ids := reverseIndex store.isCanonical store.allTypes 0
  nominalIdentities := store.allNominalIdentities
  parameterIdentities := store.allParameterIdentities
  parameterIds := Map.ofList (store.allParameterIdentities.toList.map Prod.swap)

structure TypeInterner where
  store : TypeStore
  types : Map Ty TypeId
  canonicalNominals : Map DefinitionKey TypeId

namespace TypeInterner

def new : TypeInterner := ⟨.new, ∅, ∅⟩

def fromStore (store : TypeStore) : TypeInterner where
  store := store
  types := reverseIndex store.isCanonical store.types store.baseLen
  canonicalNominals := Map.ofList (store.allNominalIdentities.toList.map Prod.swap)

/-- The id of a node already interned: the local index first, then the base. -/
def find (interner : TypeInterner) (ty : Ty) : Option TypeId :=
  (interner.types.get ty).or (interner.store.base.bind fun base => base.ids.get ty)

def intern (interner : TypeInterner) (ty : Ty) : TypeId × TypeInterner :=
  match interner.find (canonicalType ty) with
  | some id => (id, interner)
  | none =>
      let (id, store) := interner.store.intern (canonicalType ty)
      (id, { interner with store, types := interner.types.insert (canonicalType ty) id })

/-- `define_nominal`; `none` where the source panics. -/
def defineNominal (interner : TypeInterner) (id : TypeId) (representation : Option TypeId) :
    Option TypeInterner :=
  if id < interner.store.baseLen then none
  else
    match interner.store.types[id - interner.store.baseLen]? with
    | some (.nominal nominal) =>
        let ty := Ty.nominal { nominal with representation }
        let store := { interner.store with
          types := interner.store.types.set (id - interner.store.baseLen) ty }
        if (interner.store.nominalIdentity id).isSome then some { interner with store }
        else some { interner with
          store
          types := (interner.types.remove (.nominal nominal)).insert ty id }
    | _ => none

def internCanonicalNominal (interner : TypeInterner) (identity : DefinitionKey) (ty : Ty) :
    Except String TypeId × TypeInterner :=
  if !identityMatchesType identity ty then
    (.error "canonical nominal identity has an incompatible declaration kind", interner)
  else
    match interner.canonicalNominals.get identity with
    | some id =>
        if interner.store.get id = some ty then (.ok id, interner)
        else (.error "canonical nominal identity has conflicting layouts", interner)
    | none =>
        let (id, store) := interner.store.intern ty
        (.ok id, { interner with
          store := { store with nominalIdentities := store.nominalIdentities.insert id identity }
          canonicalNominals := interner.canonicalNominals.insert identity id })

/-- `portable` is the owner test of the code crate, outside this repository. -/
def internCanonicalParameter (portable : GenericOwner → Bool) (interner : TypeInterner)
    (identity : CanonicalTypeParameterIdentity) (name : String) :
    Except String TypeId × TypeInterner :=
  if !portable identity.owner || name.isEmpty then
    (.error "invalid canonical type parameter", interner)
  else
    let ty := Ty.named ⟨name, none⟩
    match interner.store.canonicalParameter identity with
    | some id =>
        if interner.store.get id = some ty ∨ identity.owner matches .implementation _ then
          (.ok id, interner)
        else (.error "canonical parameter has conflicting declaration", interner)
    | none =>
        let (id, store) := interner.store.intern ty
        (.ok id, { interner with
          store := { store with
            parameterIdentities := store.parameterIdentities.insert id identity
            parameterIds := store.parameterIds.insert identity id } })

/-- Freeze the store and continue on a fresh local segment over it. -/
def freeze (interner : TypeInterner) : TypeInterner :=
  fromStore (.withBase (.ofStore interner.store))

end TypeInterner
end EtasFrontend.Types
