import Mathlib.Algebra.BigOperators.Group.List.Basic
import Mathlib.Algebra.GroupWithZero.Nat
import Mathlib.Order.BoundedOrder.Lattice

/-! Conjunctions and disjunctions over given leaves, and their disjunctive normal form as a list of
alternatives. -/
namespace EtasFrontend.Lib

inductive Formula (α : Type) where
  | leaf (a : α)
  | and (left right : Formula α)
  | or (left right : Formula α)

namespace Formula
variable {α β : Type}

def leaves : Formula α → List α
  | leaf a => [a]
  | and left right => left.leaves ++ right.leaves
  | or left right => left.leaves ++ right.leaves

def eval [Lattice β] (value : α → β) : Formula α → β
  | leaf a => value a
  | and left right => left.eval value ⊓ right.eval value
  | or left right => left.eval value ⊔ right.eval value

/-- Every alternative on the left with every one on the right. -/
def conjoin (left right : List (List α)) : List (List α) :=
  left.flatMap fun a => right.map fun b => a ++ b

def dnf : Formula α → List (List α)
  | leaf a => [[a]]
  | and left right => conjoin left.dnf right.dnf
  | or left right => left.dnf ++ right.dnf

/-! Values of alternatives. -/

theorem conjoin_cons (a : List α) (left right : List (List α)) :
    conjoin (a :: left) right = (right.map fun b => a ++ b) ++ conjoin left right := rfl

section Value
variable [Lattice β] [BoundedOrder β] (value : α → β)

def meet (clauses : List α) : β := clauses.foldr (fun a b => value a ⊓ b) ⊤

def join (alternatives : List (List α)) : β :=
  alternatives.foldr (fun clauses b => meet value clauses ⊔ b) ⊥

@[simp] theorem meet_nil : meet value [] = ⊤ := rfl

@[simp] theorem meet_cons (a : α) (l : List α) : meet value (a :: l) = value a ⊓ meet value l := rfl

@[simp] theorem join_nil : join value [] = ⊥ := rfl

@[simp] theorem join_cons (a : List α) (l : List (List α)) :
    join value (a :: l) = meet value a ⊔ join value l := rfl

theorem meet_append (a b : List α) : meet value (a ++ b) = meet value a ⊓ meet value b := by
  induction a with
  | nil => simp
  | cons x a ih => simp [ih, inf_assoc]

theorem join_append (a b : List (List α)) : join value (a ++ b) = join value a ⊔ join value b := by
  induction a with
  | nil => simp
  | cons x a ih => simp [ih, sup_assoc]

theorem join_map {γ : Type} (f : γ → α) (alternatives : List (List γ)) :
    join value (alternatives.map (List.map f)) = join (fun a => value (f a)) alternatives := by
  unfold join meet
  simp only [List.foldr_map]

end Value

section Distributive
variable [DistribLattice β] [BoundedOrder β] (value : α → β)

theorem join_map_append (a : List α) (right : List (List α)) :
    join value (right.map fun b => a ++ b) = meet value a ⊓ join value right := by
  induction right with
  | nil => simp
  | cons b right ih => rw [List.map_cons, join_cons, ih, meet_append, join_cons, inf_sup_left]

theorem join_conjoin (left right : List (List α)) :
    join value (conjoin left right) = join value left ⊓ join value right := by
  induction left with
  | nil => simp [conjoin]
  | cons a left ih =>
    rw [conjoin_cons, join_append, join_map_append, ih, join_cons, inf_sup_right]

/-- The normal form has the value of the formula. -/
theorem join_dnf (φ : Formula α) : join value φ.dnf = φ.eval value := by
  induction φ with
  | leaf a => simp [dnf, eval]
  | and left right hl hr => rw [dnf, join_conjoin, hl, hr, eval]
  | or left right hl hr => rw [dnf, join_append, hl, hr, eval]

end Distributive

def clauseCount (alternatives : List (List α)) : ℕ := (alternatives.map List.length).sum

/-- The number of alternatives and of their clauses. -/
def size (alternatives : List (List α)) : ℕ := alternatives.length + clauseCount alternatives

@[simp] theorem clauseCount_nil : clauseCount ([] : List (List α)) = 0 := rfl

@[simp] theorem clauseCount_cons (a : List α) (l : List (List α)) :
    clauseCount (a :: l) = a.length + clauseCount l := by
  simp [clauseCount]

theorem length_le_clauseCount {alternatives : List (List α)} {clauses : List α}
    (h : clauses ∈ alternatives) : clauses.length ≤ clauseCount alternatives := by
  induction alternatives with
  | nil => cases h
  | cons a alternatives ih =>
    rw [clauseCount_cons]
    rcases List.mem_cons.mp h with rfl | h
    · omega
    · have hle := ih h
      omega

theorem clauseCount_append (a b : List (List α)) :
    clauseCount (a ++ b) = clauseCount a + clauseCount b := by
  simp [clauseCount]

theorem size_append (a b : List (List α)) : size (a ++ b) = size a + size b := by
  have hlength : (a ++ b).length = a.length + b.length := List.length_append
  have hcount := clauseCount_append a b
  unfold size
  omega

theorem clauseCount_map_append (a : List α) (right : List (List α)) :
    clauseCount (right.map fun b => a ++ b) = a.length * right.length + clauseCount right := by
  induction right with
  | nil => simp
  | cons b right ih =>
    have hmul : a.length * (right.length + 1) = a.length * right.length + a.length :=
      Nat.mul_succ ..
    rw [List.map_cons, clauseCount_cons, clauseCount_cons, ih, List.length_append,
      List.length_cons, hmul]
    omega

@[simp] theorem length_conjoin (left right : List (List α)) :
    (conjoin left right).length = left.length * right.length := by
  induction left with
  | nil => simp [conjoin]
  | cons a left ih =>
    rw [conjoin_cons, List.length_append, List.length_map, ih, List.length_cons, Nat.succ_mul]
    omega

theorem clauseCount_conjoin (left right : List (List α)) :
    clauseCount (conjoin left right) =
      clauseCount left * right.length + clauseCount right * left.length := by
  induction left with
  | nil => simp [conjoin]
  | cons a left ih =>
    rw [conjoin_cons, clauseCount_append, clauseCount_map_append, ih, clauseCount_cons, List.length_cons,
      Nat.add_mul, Nat.mul_succ]
    omega

theorem size_conjoin (left right : List (List α)) :
    size (conjoin left right) = left.length * right.length +
      (clauseCount left * right.length + clauseCount right * left.length) := by
  rw [size, length_conjoin, clauseCount_conjoin]

theorem length_dnf_pos (φ : Formula α) : 0 < φ.dnf.length := by
  induction φ with
  | leaf a => simp [dnf]
  | and left right hl hr => simp [dnf, hl, hr]
  | or left right hl hr => simp [dnf]; omega

/-- A conjunction is at least as large as its parts. -/
theorem size_le_conjoin_left (left : List (List α)) {right : List (List α)}
    (h : 0 < right.length) : size left ≤ size (conjoin left right) := by
  have hlength : left.length ≤ left.length * right.length := Nat.le_mul_of_pos_right _ h
  have hcount : clauseCount left ≤ clauseCount left * right.length := Nat.le_mul_of_pos_right _ h
  rw [size_conjoin]
  unfold size
  omega

theorem size_le_conjoin_right {left : List (List α)} (right : List (List α))
    (h : 0 < left.length) : size right ≤ size (conjoin left right) := by
  have hlength : right.length ≤ left.length * right.length := Nat.le_mul_of_pos_left _ h
  have hcount : clauseCount right ≤ clauseCount right * left.length := Nat.le_mul_of_pos_right _ h
  rw [size_conjoin]
  unfold size
  omega

/-- Every alternative has a clause, and the clauses are leaves. -/
theorem mem_dnf {φ : Formula α} {clauses : List α} (h : clauses ∈ φ.dnf) :
    clauses ≠ [] ∧ ∀ a ∈ clauses, a ∈ φ.leaves := by
  induction φ generalizing clauses with
  | leaf a =>
    have hclauses : clauses = [a] := by simpa [dnf] using h
    subst hclauses
    simp [leaves]
  | and left right hl hr =>
    obtain ⟨a, ha, b, hb, rfl⟩ : ∃ a ∈ left.dnf, ∃ b ∈ right.dnf, a ++ b = clauses := by
      simpa [dnf, conjoin] using h
    obtain ⟨hne, hleft⟩ := hl ha
    obtain ⟨-, hright⟩ := hr hb
    constructor
    · simp [hne]
    · intro x hx
      rcases List.mem_append.mp hx with hx | hx
      · exact List.mem_append_left _ (hleft x hx)
      · exact List.mem_append_right _ (hright x hx)
  | or left right hl hr =>
    rcases List.mem_append.mp h with h | h
    · exact ⟨(hl h).1, fun x hx => List.mem_append_left _ ((hl h).2 x hx)⟩
    · exact ⟨(hr h).1, fun x hx => List.mem_append_right _ ((hr h).2 x hx)⟩

theorem conjoin_map (f : α → β) (left right : List (List α)) :
    conjoin (left.map (List.map f)) (right.map (List.map f)) =
      (conjoin left right).map (List.map f) := by
  induction left with
  | nil => rfl
  | cons a left ih =>
    have hcons' : conjoin ((a :: left).map (List.map f)) (right.map (List.map f)) =
        ((right.map (List.map f)).map fun b => a.map f ++ b) ++
          conjoin (left.map (List.map f)) (right.map (List.map f)) := rfl
    rw [conjoin_cons, hcons', ih, List.map_append, List.map_map, List.map_map]
    congr 1
    apply List.map_congr_left
    intro b _
    simp

end Formula
end EtasFrontend.Lib
