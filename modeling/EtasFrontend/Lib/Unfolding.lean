import Mathlib.Data.List.Basic
import Mathlib.Order.Lattice

/-! Trees given by finitely many equations, in which the tree of a node may be applied: its holes
are filled with the trees of other nodes. The infinite tree is described through its parts of every
depth, and what such a part shows is the least solution of a step on finite sets. -/
namespace EtasFrontend.Lib
universe u v w

variable {ν : Type u} {π : Type v} {κ : Type w}

/-- What stands at a node: a hole, the tree of another node with its holes filled, or a label. -/
inductive Equation (ν : Type u) (π : Type v) (κ : Type w) where
  | hole (name : π)
  | apply (head : ν) (formals : List π) (args : List ν)
  | node (label : κ) (children : List ν)

def Equation.components : Equation ν π κ → List ν
  | .hole _ => []
  | .apply head _ args => head :: args
  | .node _ children => children

inductive Tree (π : Type v) (κ : Type w) where
  | cut
  | hole (name : π)
  | node (label : κ) (children : List (Tree π κ))

variable {x : Option π}

namespace Tree

def subst (σ : π → Tree π κ) : Tree π κ → Tree π κ
  | .cut => .cut
  | .hole name => σ name
  | .node label children => .node label (children.map (subst σ))

/-- `none` is shown at a marked label and `some name` at a hole, unless a closed label is above. -/
inductive Shows (marked closed : κ → Bool) : Option π → Tree π κ → Prop
  | hole (name : π) : Shows marked closed (some name) (.hole name)
  | mark {label : κ} {children : List (Tree π κ)} (h : marked label = true) :
      Shows marked closed none (.node label children)
  | child {label : κ} {children : List (Tree π κ)} {child : Tree π κ} {x : Option π}
      (hopen : closed label = false) (hmem : child ∈ children) (h : Shows marked closed x child) :
      Shows marked closed x (.node label children)

variable {marked closed : κ → Bool}

theorem shows_node {label : κ} {children : List (Tree π κ)} :
    Shows marked closed x (.node label children) ↔ x = none ∧ marked label = true ∨
      closed label = false ∧ ∃ child ∈ children, Shows marked closed x child := by
  constructor
  · intro h
    cases h with
    | mark h => exact Or.inl ⟨rfl, h⟩
    | child hopen hmem h => exact Or.inr ⟨hopen, _, hmem, h⟩
  · rintro (⟨rfl, h⟩ | ⟨hopen, child, hmem, h⟩)
    · exact .mark h
    · exact .child hopen hmem h

/-- Where closed labels are marked, a mark below one shows nothing new. -/
theorem shows_none_iff (h : ∀ label, closed label = true → marked label = true) {t : Tree π κ} :
    Shows marked closed none t ↔ Shows marked (fun _ => false) none t := by
  generalize hx : (none : Option π) = x
  constructor
  · intro ht
    induction ht with
    | hole => cases hx
    | mark hmark => exact .mark hmark
    | child _ hmem _ ih => exact .child rfl hmem (ih hx)
  · intro ht
    induction ht with
    | hole => cases hx
    | mark hmark => exact .mark hmark
    | @child label _ _ _ _ hmem _ ih =>
      by_cases hclosed : closed label = true
      · subst hx
        exact .mark (h label hclosed)
      · exact .child (Bool.eq_false_iff.mpr hclosed) hmem (ih hx)

/-- A tree with its holes filled shows its own marks, and what is shown in the place of a hole. -/
theorem shows_subst {σ : π → Tree π κ} : ∀ t : Tree π κ,
    Shows marked closed x (t.subst σ) ↔ x = none ∧ Shows marked closed none t ∨
      ∃ name, Shows marked closed (some name) t ∧ Shows marked closed x (σ name)
  | .cut => by
    rw [subst]
    refine iff_of_false nofun ?_
    rintro (⟨-, h⟩ | ⟨name, h, -⟩) <;> cases h
  | .hole name => by
    rw [subst]
    constructor
    · exact fun h => Or.inr ⟨name, .hole name, h⟩
    · rintro (⟨-, h⟩ | ⟨other, h, hσ⟩)
      · cases h
      · cases h
        exact hσ
  | .node label children => by
    have ih : ∀ child ∈ children, Shows marked closed x (child.subst σ) ↔
        x = none ∧ Shows marked closed none child ∨
          ∃ name, Shows marked closed (some name) child ∧ Shows marked closed x (σ name) :=
      fun child _ => shows_subst child
    rw [subst]
    simp only [shows_node, List.mem_map, exists_exists_and_eq_and]
    constructor
    · rintro (⟨rfl, h⟩ | ⟨hopen, child, hmem, h⟩)
      · exact Or.inl ⟨rfl, Or.inl ⟨trivial, h⟩⟩
      · rcases (ih child hmem).mp h with ⟨rfl, hown⟩ | ⟨name, hname, hσ⟩
        · exact Or.inl ⟨rfl, Or.inr ⟨hopen, child, hmem, hown⟩⟩
        · exact Or.inr ⟨name, Or.inr ⟨hopen, child, hmem, hname⟩, hσ⟩
    · rintro (⟨rfl, ⟨-, h⟩ | ⟨hopen, child, hmem, h⟩⟩ |
        ⟨name, ⟨hname, -⟩ | ⟨hopen, child, hmem, h⟩, hσ⟩)
      · exact Or.inl ⟨rfl, h⟩
      · exact Or.inr ⟨hopen, child, hmem, (ih child hmem).mpr (Or.inl ⟨rfl, h⟩)⟩
      · cases hname
      · exact Or.inr ⟨hopen, child, hmem, (ih child hmem).mpr (Or.inr ⟨name, h, hσ⟩)⟩
termination_by t => sizeOf t
decreasing_by
  have hlt := List.sizeOf_lt_of_mem ‹_›
  simp only [node.sizeOf_spec]
  omega

end Tree

open Lib.Tree

variable [DecidableEq π]

/-- The trees of the arguments in the place of the formal parameters. -/
def instantiate (formals : List π) (args : List (Tree π κ)) (name : π) : Tree π κ :=
  (args[formals.idxOf name]?).getD (.hole name)

/-- The part of the tree of a node above a given depth. Filling a hole costs no depth. -/
def unfolding (equation : ν → Option (Equation ν π κ)) : ℕ → ν → Tree π κ
  | 0, _ => .cut
  | depth + 1, a =>
    match equation a with
    | none => .cut
    | some (.hole name) => .hole name
    | some (.apply head formals args) =>
      (unfolding equation depth head).subst (instantiate formals (args.map (unfolding equation depth)))
    | some (.node label children) => .node label (children.map (unfolding equation depth))

variable (equation : ν → Option (Equation ν π κ)) (marked closed : κ → Bool)

/-- What the infinite tree of a node shows. -/
def Contains (x : Option π) (a : ν) : Prop := ∃ depth, Shows marked closed x (unfolding equation depth a)

/-- What is shown in the place of a formal parameter; a name that is none stays a hole. -/
def Filled (shown : Option π → ν → Prop) (formals : List π) (args : List ν) (x : Option π)
    (name : π) : Prop :=
  match args[formals.idxOf name]? with
  | some arg => shown x arg
  | none => x = some name

/-- What a node shows, given what its components show. -/
def ShowStep (shown : Option π → ν → Prop) (x : Option π) (a : ν) : Prop :=
  match equation a with
  | none => False
  | some (.hole name) => x = some name
  | some (.apply head formals args) => x = none ∧ shown none head ∨
      ∃ name, shown (some name) head ∧ Filled shown formals args x name
  | some (.node label children) => x = none ∧ marked label = true ∨
      closed label = false ∧ ∃ child ∈ children, shown x child

variable {equation marked closed} {shown shown' : Option π → ν → Prop}

theorem Filled.mono {formals : List π} {args : List ν}
    {name : π} (hle : ∀ arg ∈ args, shown x arg → shown' x arg)
    (h : Filled shown formals args x name) : Filled shown' formals args x name := by
  unfold Filled at h ⊢
  rcases harg : args[formals.idxOf name]? with _ | arg
  · rw [harg] at h
    exact h
  · rw [harg] at h
    exact hle arg (List.mem_of_getElem? harg) h

variable {a : ν}

/-- The step looks at the components of its node only. -/
theorem ShowStep.mono
    (hle : ∀ e, equation a = some e → ∀ x, ∀ b ∈ e.components, shown x b → shown' x b)
    (h : ShowStep equation marked closed shown x a) :
    ShowStep equation marked closed shown' x a := by
  unfold ShowStep at h ⊢
  rcases hequation : equation a with _ | name | ⟨head, formals, args⟩ | ⟨label, children⟩
  all_goals rw [hequation] at h
  · exact h
  · exact h
  · have hhead : ∀ x, shown x head → shown' x head :=
      fun x => hle _ hequation x head List.mem_cons_self
    rcases h with ⟨hx, h⟩ | ⟨name, hname, h⟩
    · exact Or.inl ⟨hx, hhead _ h⟩
    · refine Or.inr ⟨name, hhead _ hname, h.mono fun arg harg => ?_⟩
      exact hle _ hequation x arg (List.mem_cons_of_mem _ harg)
  · rcases h with h | ⟨hopen, child, hmem, h⟩
    · exact Or.inl h
    · exact Or.inr ⟨hopen, child, hmem, hle _ hequation x child hmem h⟩

theorem shows_unfolding_succ {depth : ℕ} :
    Shows marked closed x (unfolding equation (depth + 1) a) ↔
      ShowStep equation marked closed
        (fun x a => Shows marked closed x (unfolding equation depth a)) x a := by
  unfold ShowStep
  rw [unfolding]
  rcases equation a with _ | name | ⟨head, formals, args⟩ | ⟨label, children⟩
  · exact iff_of_false nofun id
  · dsimp only
    constructor
    · intro h
      cases h
      rfl
    · rintro rfl
      exact .hole name
  · dsimp only
    rw [shows_subst]
    refine or_congr_right (exists_congr fun name => and_congr_right fun _ => ?_)
    rw [instantiate, List.getElem?_map, Filled]
    rcases args[formals.idxOf name]? with _ | arg
    · dsimp only [Option.map_none, Option.getD_none]
      constructor
      · intro h
        cases h
        rfl
      · rintro rfl
        exact .hole name
    · exact Iff.rfl
  · dsimp only
    rw [shows_node]
    simp only [List.mem_map, exists_exists_and_eq_and]

theorem shows_unfolding_mono {depth depth' : ℕ} (hle : depth ≤ depth')
    (h : Shows marked closed x (unfolding equation depth a)) :
    Shows marked closed x (unfolding equation depth' a) := by
  induction depth generalizing depth' x a with
  | zero => cases h
  | succ depth ih =>
    obtain ⟨rest, rfl⟩ := Nat.exists_eq_add_of_le hle
    rw [Nat.add_right_comm] at hle ⊢
    rw [shows_unfolding_succ] at h ⊢
    exact h.mono fun _ _ x a _ => ih (by omega)

theorem exists_filled {formals : List π} {args : List ν} {name : π}
    (h : Filled (Contains equation marked closed) formals args x name) :
    ∃ depth, Filled (fun x a => Shows marked closed x (unfolding equation depth a)) formals args x
      name := by
  unfold Filled at h ⊢
  split at h
  · exact h
  · exact ⟨0, h⟩

/-- What the tree shows is closed under the step. -/
theorem contains_of_step
    (h : ShowStep equation marked closed (Contains equation marked closed) x a) :
    Contains equation marked closed x a := by
  suffices hdepth : ∃ depth, ShowStep equation marked closed
      (fun x a => Shows marked closed x (unfolding equation depth a)) x a by
    obtain ⟨depth, hstep⟩ := hdepth
    exact ⟨depth + 1, shows_unfolding_succ.mpr hstep⟩
  unfold ShowStep at h ⊢
  split at h
  · exact h.elim
  · exact ⟨0, h⟩
  · rcases h with ⟨hx, depth, h⟩ | ⟨name, ⟨depth, hname⟩, h⟩
    · exact ⟨depth, Or.inl ⟨hx, h⟩⟩
    · -- the parts of the head and of the argument are cut at one depth
      obtain ⟨depth', h⟩ := exists_filled h
      refine ⟨max depth depth', Or.inr ⟨name, shows_unfolding_mono (le_max_left _ _) hname, ?_⟩⟩
      exact h.mono fun _ _ => shows_unfolding_mono (le_max_right _ _)
  · rcases h with h | ⟨hopen, child, hmem, depth, h⟩
    · exact ⟨0, Or.inl h⟩
    · exact ⟨depth, Or.inr ⟨hopen, child, hmem, h⟩⟩

/-- Nothing else is shown: a solution of the step on a set of nodes with their components has all
that their trees show. -/
theorem Contains.least (nodes : ν → Prop) (shown : Option π → ν → Prop)
    (hnodes : ∀ a, nodes a → ∀ e, equation a = some e → ∀ b ∈ e.components, nodes b)
    (hshown : ∀ x a, nodes a → ShowStep equation marked closed shown x a → shown x a)
    (ha : nodes a) (h : Contains equation marked closed x a) :
    shown x a := by
  obtain ⟨depth, h⟩ := h
  induction depth generalizing x a with
  | zero => cases h
  | succ depth ih =>
    refine hshown x a ha ((shows_unfolding_succ.mp h).mono ?_)
    intro e he y b hb hy
    exact ih (hnodes a ha e he b hb) hy

end EtasFrontend.Lib
