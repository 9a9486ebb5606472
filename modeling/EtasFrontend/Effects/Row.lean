import EtasFrontend.Effects.Registry

/-! Effects and rows of effects. -/
namespace EtasFrontend.Effects
open EtasFrontend.Types

inductive Effect where
  | tag (tag : EffectTagId)
  | action (action : ActionRef)
  | appliedAction (action : ActionInstanceRef)
  | applied (tag : EffectTagId) (args : List TypeId)
  | var (var : EffectVarId)
  | error (ty : TypeId)
  deriving DecidableEq

def Effect.isAction : Effect → Bool
  | .action _ | .appliedAction _ => true
  | _ => false

abbrev EffectSet := Finset Effect

/-- Members and, when the row is open, its tail. -/
structure EffectRow where
  effects : EffectSet
  openVar : Option EffectVarId
  deriving DecidableEq

namespace EffectRow

def empty : EffectRow := ⟨∅, none⟩

def closed (effects : EffectSet) : EffectRow := ⟨effects, none⟩

def isEmpty (row : EffectRow) : Bool := row.effects = ∅ && row.openVar.isNone

def removeEffect (row : EffectRow) (effect : Effect) : EffectRow :=
  { row with effects := row.effects.erase effect }

end EffectRow
end EtasFrontend.Effects
