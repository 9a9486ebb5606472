import Mathlib.Data.List.Basic

/-! Short-circuit evaluation of one connective does not depend on its bracketing. -/
namespace EtasFrontend.Lib

/-- Bracketed operands of a binary connective. -/
inductive Bracketing (α : Type) where
  | leaf (a : α)
  | node (l r : Bracketing α)

namespace Bracketing
variable {α β σ ε : Type}

def leaves : Bracketing α → List α
  | .leaf a => [a]
  | .node l r => l.leaves ++ r.leaves

def map (f : α → β) : Bracketing α → Bracketing β
  | .leaf a => .leaf (f a)
  | .node l r => .node (l.map f) (r.map f)

/-- Other operands can stand at the leaves of a tree. -/
theorem exists_map {f : α → β} (t : Bracketing β) (as : List α) (h : as.map f = t.leaves) :
    ∃ u : Bracketing α, u.map f = t ∧ u.leaves = as := by
  induction t generalizing as with
  | leaf b =>
    obtain ⟨a, rfl, rfl⟩ := List.map_eq_singleton_iff.mp h
    exact ⟨.leaf a, rfl, rfl⟩
  | node l r hl hr =>
    obtain ⟨as', as'', rfl, hl', hr'⟩ := List.map_eq_append_iff.mp h
    obtain ⟨u, hu, hul⟩ := hl as' hl'
    obtain ⟨v, hv, hvl⟩ := hr as'' hr'
    exact ⟨.node u v, by rw [map, hu, hv], by rw [leaves, hul, hvl]⟩

/-- A truth value or an early exit, the state that is left, and the operands that ran. -/
structure Outcome (α σ ε : Type) where
  result : Except ε Bool
  state : σ
  ran : List α

/-- The second operand runs only after a first one that is not `stop`. -/
def Outcome.andThen (stop : Bool) (first : Outcome α σ ε) (second : σ → Outcome α σ ε) :
    Outcome α σ ε :=
  match first.result with
  | .error _ => first
  | .ok value =>
    if value = stop then first
    else
      ⟨(second first.state).result, (second first.state).state,
        first.ran ++ (second first.state).ran⟩

theorem Outcome.andThen_assoc (stop : Bool) (first : Outcome α σ ε)
    (second third : σ → Outcome α σ ε) :
    (first.andThen stop second).andThen stop third =
      first.andThen stop fun s => (second s).andThen stop third := by
  obtain ⟨result, state, ran⟩ := first
  cases result with
  | error e => rfl
  | ok value =>
    by_cases hv : value = stop
    · simp [andThen, hv]
    · cases hs : (second state).result with
      | error e => simp [andThen, hv, hs]
      | ok value' => by_cases hv' : value' = stop <;> simp [andThen, hv, hs, hv']

variable (stop : Bool) (runLeaf : α → σ → Except ε Bool × σ)

def run : Bracketing α → σ → Outcome α σ ε
  | .leaf a, s => ⟨(runLeaf a s).1, (runLeaf a s).2, [a]⟩
  | .node l r, s => (l.run s).andThen stop r.run

/-- Operands from left to right, without brackets. -/
def runAll : List α → σ → Outcome α σ ε
  | [], s => ⟨.ok !stop, s, []⟩
  | a :: as, s =>
    Outcome.andThen stop ⟨(runLeaf a s).1, (runLeaf a s).2, [a]⟩ (runAll as)

variable {stop runLeaf}

theorem runAll_append (as bs : List α) (s : σ) :
    runAll stop runLeaf (as ++ bs) s =
      (runAll stop runLeaf as s).andThen stop (runAll stop runLeaf bs) := by
  induction as generalizing s with
  | nil => simp [runAll, Outcome.andThen]
  | cons a as ih =>
    have hrest : runAll stop runLeaf (as ++ bs) =
        fun t => (runAll stop runLeaf as t).andThen stop (runAll stop runLeaf bs) := funext ih
    simp only [List.cons_append, runAll, hrest, Outcome.andThen_assoc]

theorem run_eq_runAll (t : Bracketing α) (s : σ) :
    t.run stop runLeaf s = runAll stop runLeaf t.leaves s := by
  induction t generalizing s with
  | leaf a =>
    simp only [run, leaves, runAll, Outcome.andThen]
    cases hr : (runLeaf a s).1 with
    | error e => rfl
    | ok value => cases value <;> cases stop <;> rfl
  | node l r hl hr =>
    have hright : r.run stop runLeaf = runAll stop runLeaf r.leaves := funext hr
    rw [run, hl, hright, leaves, runAll_append]

/-- Trees with the same operands in the same order run alike. -/
theorem run_congr {t u : Bracketing α} (h : t.leaves = u.leaves) (s : σ) :
    t.run stop runLeaf s = u.run stop runLeaf s := by
  rw [run_eq_runAll, run_eq_runAll, h]

end Bracketing
end EtasFrontend.Lib
