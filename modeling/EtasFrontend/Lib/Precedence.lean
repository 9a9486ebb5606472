import Mathlib.Data.List.Induction
import Mathlib.Order.Lattice

/-! Trees of binary operators, and the one that a sequence of operands and operators stands for:
operators of lower precedence are above those of higher precedence, and operators of one precedence
associate to the left. -/
namespace EtasFrontend.Lib
variable {α ω ρ : Type*} [LinearOrder ρ]

inductive OperatorTree (α ω : Type*) where
  | operand (a : α)
  | binary (lhs : OperatorTree α ω) (op : ω) (rhs : OperatorTree α ω)

namespace OperatorTree

/-- The first operand of the sequence. -/
def first : OperatorTree α ω → α
  | .operand a => a
  | .binary lhs _ _ => lhs.first

/-- The other operands, each after its operator. -/
def rest : OperatorTree α ω → List (ω × α)
  | .operand _ => []
  | .binary lhs op rhs => lhs.rest ++ (op, rhs.first) :: rhs.rest

def operators (t : OperatorTree α ω) : List ω := t.rest.map Prod.fst

def Climbs (prec : ω → ρ) : OperatorTree α ω → Prop
  | .operand _ => True
  | .binary lhs op rhs => lhs.Climbs prec ∧ rhs.Climbs prec ∧
      (∀ o ∈ lhs.operators, prec op ≤ prec o) ∧ ∀ o ∈ rhs.operators, prec op < prec o

variable {prec : ω → ρ} {t t' lhs rhs : OperatorTree α ω} {op : ω} {a : α}

theorem mem_operators_binary {o : ω} : o ∈ (binary lhs op rhs).operators ↔
    o ∈ lhs.operators ∨ o = op ∨ o ∈ rhs.operators := by
  simp [operators, rest]

theorem operators_extend_lt (h : (binary lhs op rhs).Climbs prec) :
    ∀ o ∈ (binary lhs op rhs).operators, prec op ≤ prec o := by
  intro o ho
  rcases mem_operators_binary.mp ho with ho | rfl | ho
  · exact h.2.2.1 o ho
  · exact le_rfl
  · exact (h.2.2.2 o ho).le

/-- The root is the last operator of the lowest precedence, so the sequence is split there. -/
theorem split_unique {lhs' rhs' : OperatorTree α ω} {op' : ω}
    (h : (binary lhs op rhs).Climbs prec) (h' : (binary lhs' op' rhs').Climbs prec)
    (hrest : (binary lhs op rhs).rest = (binary lhs' op' rhs').rest) :
    lhs.rest.length ≤ lhs'.rest.length := by
  by_contra hlt
  rw [rest, rest] at hrest
  rcases List.append_eq_append_iff.mp hrest with ⟨between, hlong, hshort⟩ | ⟨between, hlong, hshort⟩
  · have := congrArg List.length hlong
    rw [List.length_append] at this
    omega
  · cases between with
    | nil =>
      rw [List.append_nil] at hlong
      rw [hlong] at hlt
      exact hlt (Nat.le_refl _)
    | cons entry between =>
      rw [List.cons_append, List.cons.injEq] at hshort
      obtain ⟨rfl, hshort⟩ := hshort
      have hleft : prec op ≤ prec op' := h.2.2.1 op' (by simp [operators, hlong])
      have hright : prec op' < prec op := h'.2.2.2 op (by simp [operators, hshort])
      exact hright.not_ge hleft

/-- It stands for one tree only. -/
theorem Climbs.unique (h : t.Climbs prec) (h' : t'.Climbs prec) (hfirst : t.first = t'.first)
    (hrest : t.rest = t'.rest) : t = t' := by
  induction t generalizing t' with
  | operand a =>
    cases t' with
    | operand b => exact congrArg operand hfirst
    | binary lhs' op' rhs' => simp [rest] at hrest
  | binary lhs op rhs ihl ihr =>
    cases t' with
    | operand b => simp [rest] at hrest
    | binary lhs' op' rhs' =>
      have hlength : lhs.rest.length = lhs'.rest.length :=
        Nat.le_antisymm (split_unique h h' hrest) (split_unique h' h hrest.symm)
      rw [rest, rest] at hrest
      obtain ⟨hlhs, hright⟩ := List.append_inj hrest hlength
      rw [List.cons.injEq, Prod.mk.injEq] at hright
      obtain ⟨⟨rfl, hr⟩, hrhs⟩ := hright
      rw [ihl h.1 h'.1 hfirst hlhs, ihr h.2.1 h'.2.1 hr hrhs]

end OperatorTree
end EtasFrontend.Lib
