import EtasFrontend.Hir.Program
import Mathlib.Data.Finset.Card

/-! Places in memory, and the sets of them that a value may denote. -/
namespace EtasFrontend.Alias
open Hir (HirItemId HirExprId HirBlockId HirHandlerArmId SymbolId)

inductive HirAnonymousFlowBody where
  | expr (expr : HirExprId)
  | block (block : HirBlockId)
  deriving DecidableEq

inductive HirSemanticUnit where
  | item (item : HirItemId)
  | anonymousFlow (owner : HirItemId) (expr : HirExprId) (body : HirAnonymousFlowBody)
  | handlerArm (arm : HirHandlerArmId)
  | topLevelLet (item : HirItemId)
  deriving DecidableEq

inductive AllocationSiteKind where
  | record | tuple | array | list | map | set | range | lambda | handler | unknown
  deriving DecidableEq

inductive AliasTarget where
  | symbol (symbol : SymbolId)
  | param (unit : HirSemanticUnit) (index : ℕ)
  | «return» (unit : HirSemanticUnit)
  | allocation (unit : Option HirSemanticUnit) (expr : HirExprId)
  | allocationKind (unit : Option HirSemanticUnit) (kind : AllocationSiteKind)
  | captured (unit : HirSemanticUnit) (symbol : SymbolId)
  | topLevel (item : HirItemId)
  | resourceHandle (symbol : SymbolId)
  | memoryPlace (path : List String)
  | external
  | unknown
  deriving DecidableEq

inductive Projection where
  | field (name : String)
  | collapsedField
  | index
  | constIndex (text : String)
  | mapKey (key : String)
  | deref
  deriving DecidableEq

structure Place where
  root : AliasTarget
  projections : List Projection
  deriving DecidableEq

namespace Place

def new (root : AliasTarget) : Place := ⟨root, []⟩

def project (place : Place) (projection : Projection) (maxDepth : ℕ) : Option Place :=
  if maxDepth ≤ place.projections.length then none
  else some { place with projections := place.projections ++ [projection] }

end Place

inductive AliasConstraintModel where
  | inclusionBased
  | unificationBased
  | hybrid (preUnifyLocals inclusionForResources inclusionForPublicApi : Bool)

inductive FlowSensitivity where
  | flowInsensitive | flowSensitive
  deriving DecidableEq

inductive AllocationSensitivity where
  | perType | perExpression | perCallSite
  deriving DecidableEq

inductive UpdatePolicy where
  | alwaysWeak | strongWhenMustAlias
  deriving DecidableEq

structure AliasPrecisionConfig where
  constraintModel : AliasConstraintModel
  flowSensitivity : FlowSensitivity
  allocationSensitivity : AllocationSensitivity
  updatePolicy : UpdatePolicy
  maxAliasSetSize : ℕ
  maxProjectionDepth : ℕ
  maxFixpointIterations : ℕ

namespace AliasPrecisionConfig

def fast : AliasPrecisionConfig where
  constraintModel := .unificationBased
  flowSensitivity := .flowInsensitive
  allocationSensitivity := .perExpression
  updatePolicy := .alwaysWeak
  maxAliasSetSize := 8
  maxProjectionDepth := 2
  maxFixpointIterations := 64

def balanced : AliasPrecisionConfig where
  constraintModel := .hybrid true true true
  flowSensitivity := .flowSensitive
  allocationSensitivity := .perExpression
  updatePolicy := .strongWhenMustAlias
  maxAliasSetSize := 32
  maxProjectionDepth := 4
  maxFixpointIterations := 128

def precise : AliasPrecisionConfig where
  constraintModel := .inclusionBased
  flowSensitivity := .flowSensitive
  allocationSensitivity := .perCallSite
  updatePolicy := .strongWhenMustAlias
  maxAliasSetSize := 128
  maxProjectionDepth := 8
  maxFixpointIterations := 256

end AliasPrecisionConfig

inductive AliasSet where
  | bottom
  | known (places : Finset Place)
  | unknown
  deriving DecidableEq

namespace AliasSet

def joinWithLimit : AliasSet → AliasSet → ℕ → AliasSet
  | .unknown, _, _ => .unknown
  | _, .unknown, _ => .unknown
  | .bottom, next, _ => next
  | current, .bottom, _ => current
  | .known left, .known right, limit =>
    if limit < (left ∪ right).card then .unknown else .known (left ∪ right)

def lessEqual : AliasSet → AliasSet → Bool
  | .bottom, _ => true
  | _, .unknown => true
  | .unknown, _ => false
  | .known _, .bottom => false
  | .known left, .known right => decide (left ⊆ right)

/-- The order of the source, under which a set grows. -/
instance : PartialOrder AliasSet where
  le a b := lessEqual a b = true
  le_refl a := by cases a <;> simp [lessEqual]
  le_trans a b c hab hbc := by
    cases a <;> cases b <;> cases c <;> simp_all [lessEqual]
    exact hab.trans hbc
  le_antisymm a b hab hba := by
    cases a <;> cases b <;> simp_all [lessEqual]
    exact hab.antisymm hba

instance : DecidableRel ((· ≤ ·) : AliasSet → AliasSet → Prop) :=
  fun a b => inferInstanceAs (Decidable (lessEqual a b = true))

variable {a b c : AliasSet} {limit : ℕ}

theorem bottom_le (a : AliasSet) : .bottom ≤ a := rfl

theorem le_unknown (a : AliasSet) : a ≤ .unknown := by cases a <;> rfl

theorem known_le_known {s t : Finset Place} : AliasSet.known s ≤ .known t ↔ s ⊆ t :=
  decide_eq_true_iff

@[simp] theorem unknown_le_iff : .unknown ≤ a ↔ a = .unknown := by
  constructor
  · intro h
    cases a with
    | unknown => rfl
    | bottom => cases h
    | known => cases h
  · rintro rfl
    exact le_refl _

@[simp] theorem le_bottom_iff : a ≤ .bottom ↔ a = .bottom := by
  constructor
  · intro h
    cases a with
    | bottom => rfl
    | unknown => cases h
    | known => cases h
  · rintro rfl
    exact le_refl _

@[simp] theorem bottom_join (a : AliasSet) : joinWithLimit .bottom a limit = a := by
  cases a <;> rfl

@[simp] theorem join_bottom (a : AliasSet) : joinWithLimit a .bottom limit = a := by
  cases a <;> rfl

theorem le_join_left (a b : AliasSet) (limit : ℕ) : a ≤ joinWithLimit a b limit := by
  cases a with
  | bottom => exact bottom_le _
  | unknown => exact le_unknown _
  | known s =>
    cases b with
    | bottom => exact le_refl _
    | unknown => exact le_unknown _
    | known t =>
      rw [joinWithLimit]
      split
      · exact le_unknown _
      · exact known_le_known.mpr Finset.subset_union_left

theorem le_join_right (a b : AliasSet) (limit : ℕ) : b ≤ joinWithLimit a b limit := by
  cases b with
  | bottom => exact bottom_le _
  | unknown => cases a <;> exact le_unknown _
  | known t =>
    cases a with
    | bottom => exact le_refl _
    | unknown => exact le_unknown _
    | known s =>
      rw [joinWithLimit]
      split
      · exact le_unknown _
      · exact known_le_known.mpr Finset.subset_union_right

/-- The size of a known set is within the limit. -/
def Within (limit : ℕ) : AliasSet → Prop
  | .known places => places.card ≤ limit
  | _ => True

theorem join_le (hc : c.Within limit) (ha : a ≤ c) (hb : b ≤ c) : joinWithLimit a b limit ≤ c := by
  cases a with
  | bottom => rwa [bottom_join]
  | unknown =>
    rw [unknown_le_iff.mp ha]
    exact le_unknown _
  | known s =>
    cases b with
    | bottom => exact ha
    | unknown =>
      rw [unknown_le_iff.mp hb]
      exact le_unknown _
    | known t =>
      cases c with
      | bottom => cases ha
      | unknown => exact le_unknown _
      | known u =>
        have hsub := Finset.union_subset (known_le_known.mp ha) (known_le_known.mp hb)
        rw [joinWithLimit, if_neg (Nat.not_lt.mpr ((Finset.card_le_card hsub).trans hc))]
        exact known_le_known.mpr hsub

theorem join_within (ha : a.Within limit) (hb : b.Within limit) :
    (joinWithLimit a b limit).Within limit := by
  cases a with
  | bottom => rwa [bottom_join]
  | unknown => trivial
  | known s =>
    cases b with
    | bottom => exact ha
    | unknown => trivial
    | known t =>
      rw [joinWithLimit]
      split
      · trivial
      · exact Nat.le_of_not_lt ‹_›

end AliasSet

/-- What a value may denote, and the one place that it denotes for certain. -/
structure AliasValue where
  may : AliasSet
  must : Option Place
  deriving DecidableEq

namespace AliasValue

def bottom : AliasValue := ⟨.bottom, none⟩

def unknown : AliasValue := ⟨.unknown, none⟩

def fromPlace (place : Place) : AliasValue := ⟨.known {place}, some place⟩

def fromTarget (target : AliasTarget) : AliasValue := fromPlace (.new target)

def isUnknown (value : AliasValue) : Bool :=
  match value.may with
  | .unknown => true
  | _ => false

def project (value : AliasValue) (projection : Projection) (config : AliasPrecisionConfig) :
    AliasValue :=
  match value.may with
  | .bottom => bottom
  | .unknown => unknown
  | .known places =>
    if ∃ place ∈ places, config.maxProjectionDepth ≤ place.projections.length then unknown
    else
      let projected := places.image fun place =>
        { place with projections := place.projections ++ [projection] }
      if config.maxAliasSetSize < projected.card then unknown
      else ⟨.known projected, value.must.bind (·.project projection config.maxProjectionDepth)⟩

def joinWithLimit (value other : AliasValue) (limit : ℕ) : AliasValue where
  may := value.may.joinWithLimit other.may limit
  must :=
    match value.may, other.may, value.must, other.must with
    | .bottom, _, _, right => right
    | _, .bottom, left, _ => left
    | _, .unknown, _, _ => none
    | .unknown, _, _, _ => none
    | _, _, some left, some right => if left = right then some left else none
    | _, _, _, _ => none

@[simp] theorem joinWithLimit_may (value other : AliasValue) (limit : ℕ) :
    (value.joinWithLimit other limit).may = value.may.joinWithLimit other.may limit := rfl

variable {value other : AliasValue} {projection : Projection} {config : AliasPrecisionConfig}

theorem project_within : (value.project projection config).may.Within config.maxAliasSetSize := by
  unfold project
  split
  · trivial
  · trivial
  split
  · trivial
  dsimp only
  split
  · trivial
  · exact Nat.le_of_not_lt ‹_›

theorem project_le (h : value.may ≤ other.may) :
    (value.project projection config).may ≤ (other.project projection config).may := by
  unfold project
  cases hvalue : value.may with
  | bottom => exact AliasSet.bottom_le _
  | unknown =>
    rw [hvalue, AliasSet.unknown_le_iff] at h
    rw [h]
  | known s =>
    rw [hvalue] at h
    cases hother : other.may with
    | bottom =>
      rw [hother] at h
      cases h
    | unknown => exact AliasSet.le_unknown _
    | known t =>
      rw [hother] at h
      have hsub := AliasSet.known_le_known.mp h
      dsimp only
      by_cases hdeep : ∃ place ∈ t, config.maxProjectionDepth ≤ place.projections.length
      · rw [if_pos hdeep]
        exact AliasSet.le_unknown _
      have hdeep' : ¬∃ place ∈ s, config.maxProjectionDepth ≤ place.projections.length :=
        fun ⟨place, hplace, hlen⟩ => hdeep ⟨place, hsub hplace, hlen⟩
      have himage := Finset.image_subset_image
        (f := fun place : Place => { place with projections := place.projections ++ [projection] })
        hsub
      rw [if_neg hdeep, if_neg hdeep']
      split
      case isTrue hcard =>
        rw [if_pos (Nat.lt_of_lt_of_le hcard (Finset.card_le_card himage))]
      case isFalse =>
        split
        · exact AliasSet.le_unknown _
        · exact AliasSet.known_le_known.mpr himage

end AliasValue
end EtasFrontend.Alias
