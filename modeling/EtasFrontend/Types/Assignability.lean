import EtasFrontend.Types.Unifier

/-! Assignability between types, decided by the unifier with read-only erasure. -/
namespace EtasFrontend.Types

/-- `TypeRelation`: a store and the bindings known before. -/
structure TypeRelation where
  store : TypeStore
  substitutions : Option Substitution

def TypeRelation.new (store : TypeStore) : TypeRelation := ⟨store, none⟩

def isIndexInput (store : TypeStore) (ty : TypeId) : Bool :=
  match store.get ty with
  | some (.integerLiteral _) => true
  | some (.primitive primitive) => isIntegerPrimitive primitive
  | _ => false

def isLengthInput (store : TypeStore) (ty : TypeId) : Bool :=
  match store.get ty with
  | some (.array _) | some (.list _) | some (.slice _) | some (.map _ _)
  | some (.primitive .string) | some (.primitive .bytes) => true
  | _ => false

def isEmptinessInput (store : TypeStore) (ty : TypeId) : Bool := isLengthInput store ty

def supportConstraintAssignable (store : TypeStore) (lhs rhs : TypeId) : Bool :=
  match store.get rhs with
  | some (.named name) =>
    if name.name = "Index" then isIndexInput store lhs
    else if name.name = "LengthInput" then isLengthInput store lhs
    else if name.name = "EmptinessInput" then isEmptinessInput store lhs
    else false
  | _ => false

/-- `assignable(from, to)`, with a bound on the recursion of the unifier. -/
def TypeRelation.assignable (relation : TypeRelation) (n : ℕ) (lhs rhs : TypeId) :
    Option (Except UnifyError Unit) :=
  if relation.store.get lhs = some (.primitive .never) then some (.ok ())
  else if supportConstraintAssignable relation.store lhs rhs then some (.ok ())
  else
    let unifier :=
      match relation.substitutions with
      | some substitutions => Unifier.withKnownSubstitution substitutions
      | none => Unifier.new
    (unifier.withReadOnlyErasure.unify relation.store n lhs rhs).map Prod.fst

/-! The goal of two types that are no variables. -/

variable {store : TypeStore} {u : Unifier} {ty lhs rhs : TypeId}

theorem resolve_of_not_var {t : Ty} (h : store.get ty = some t) (hv : ∀ v, t ≠ .var v) :
    u.resolve store ty = .ok ty := by
  unfold Unifier.resolve resolveLoop
  rw [h]
  cases t with
  | var v => exact (hv v rfl).elim
  | _ => rfl

theorem goal_of_not_var {l r : Ty} (hp : u.patternParameters = none) (hl : store.get lhs = some l)
    (hr : store.get rhs = some r) (hlv : ∀ v, l ≠ .var v) (hrv : ∀ v, r ≠ .var v) :
    u.goal store lhs rhs = if lhs = rhs then .done else u.nodeGoal store lhs rhs l r := by
  unfold Unifier.goal
  rw [resolve_of_not_var hl hlv, resolve_of_not_var hr hrv]
  dsimp only
  rw [hp]
  dsimp only
  congr 1
  unfold Unifier.resolvedGoal
  rw [hl, hr]
  cases l with
  | var v => exact (hlv v rfl).elim
  | _ =>
    cases r with
    | var v => exact (hrv v rfl).elim
    | _ => rfl

end EtasFrontend.Types
