import Mathlib.Order.Lattice

/-! The exits of an abstract run: one state for each way control can leave. -/
namespace EtasFrontend.Analysis

/-- `etas_utils::JoinSemiLattice`. `joinChanges` is the flag `join_assign` returns. -/
class AbstractDomain (D : Type) extends SemilatticeSup D where
  bottom : D
  joinChanges : D → D → Bool

section
variable {D : Type} [AbstractDomain D]

def joinSlot : Option D → Option D → Option D
  | slot, none => slot
  | some current, some other => some (current ⊔ other)
  | none, some other => some other

theorem joinSlot_comm (a b : Option D) : joinSlot a b = joinSlot b a := by
  cases a with
  | none => cases b <;> rfl
  | some a =>
    cases b with
    | none => rfl
    | some b => exact congrArg some (sup_comm a b)

theorem joinSlot_assoc (a b c : Option D) :
    joinSlot (joinSlot a b) c = joinSlot a (joinSlot b c) := by
  cases c with
  | none => cases b <;> rfl
  | some c =>
    cases b with
    | none => cases a <;> rfl
    | some b =>
      cases a with
      | none => rfl
      | some a => exact congrArg some (sup_assoc a b c)

theorem joinSlot_idem (a : Option D) : joinSlot a a = a := by
  cases a with
  | none => rfl
  | some a => exact congrArg some (sup_idem a)

end

@[ext]
structure Control (D : Type) where
  normalState : Option D
  returnState : Option D
  breakState : Option D
  continueState : Option D
  resumeState : Option D
  finishState : Option D
  errorState : Option D
  deriving DecidableEq

namespace Control

section
variable {D : Type}

def bottom : Control D := ⟨none, none, none, none, none, none, none⟩

def normal (state : D) : Control D := { bottom with normalState := some state }

def returning (state : D) : Control D := { bottom with returnState := some state }

def breaking (state : D) : Control D := { bottom with breakState := some state }

def continuing (state : D) : Control D := { bottom with continueState := some state }

def resuming (state : D) : Control D := { bottom with resumeState := some state }

def finishing (state : D) : Control D := { bottom with finishState := some state }

def error (state : D) : Control D := { bottom with errorState := some state }

/-- What is left after `take_normal_state`. -/
def withoutNormal (control : Control D) : Control D := { control with normalState := none }

def isEmpty (control : Control D) : Bool :=
  control.normalState.isNone && control.returnState.isNone && control.breakState.isNone &&
    control.continueState.isNone && control.resumeState.isNone && control.finishState.isNone &&
    control.errorState.isNone

theorem eq_bottom_of_isEmpty {control : Control D} (h : control.isEmpty = true) :
    control = bottom := by
  obtain ⟨_ | _, _ | _, _ | _, _ | _, _ | _, _ | _, _ | _⟩ := control <;> first | rfl | cases h

/-- The states are mapped in the order of the channels. -/
def mapStates {m : Type → Type} [Monad m] (f : D → m D) (control : Control D) : m (Control D) := do
  let normalState ← control.normalState.mapM f
  let returnState ← control.returnState.mapM f
  let breakState ← control.breakState.mapM f
  let continueState ← control.continueState.mapM f
  let resumeState ← control.resumeState.mapM f
  let finishState ← control.finishState.mapM f
  let errorState ← control.errorState.mapM f
  pure ⟨normalState, returnState, breakState, continueState, resumeState, finishState, errorState⟩

end

variable {D : Type} [AbstractDomain D]

/-- `join_assign`. -/
def join (control other : Control D) : Control D where
  normalState := joinSlot control.normalState other.normalState
  returnState := joinSlot control.returnState other.returnState
  breakState := joinSlot control.breakState other.breakState
  continueState := joinSlot control.continueState other.continueState
  resumeState := joinSlot control.resumeState other.resumeState
  finishState := joinSlot control.finishState other.finishState
  errorState := joinSlot control.errorState other.errorState

theorem join_comm (a b : Control D) : a.join b = b.join a := by
  unfold join
  congr 1 <;> apply joinSlot_comm

theorem join_assoc (a b c : Control D) : (a.join b).join c = a.join (b.join c) := by
  unfold join
  congr 1 <;> apply joinSlot_assoc

theorem join_idem (a : Control D) : a.join a = a := by
  ext1 <;> apply joinSlot_idem

@[simp] theorem join_bottom (a : Control D) : a.join bottom = a := rfl

@[simp] theorem bottom_join (a : Control D) : bottom.join a = a := by
  rw [join_comm, join_bottom]

/-- With and without a result: `with_normal_processed` and `try_with_normal_processed`. -/
def withNormalProcessed {m : Type → Type} [Monad m] (control : Control D)
    (f : D → m (Control D)) : m (Control D) :=
  match control.normalState with
  | none => pure control
  | some state => do
    let processed ← f state
    pure (control.withoutNormal.join processed)

theorem withNormalProcessed_normal {m : Type → Type} [Monad m] [LawfulMonad m] (state : D)
    (f : D → m (Control D)) : (normal state).withNormalProcessed f = f state := by
  change (do let processed ← f state; pure (bottom.join processed)) = f state
  simp only [bottom_join, bind_pure]

end Control
end EtasFrontend.Analysis
