import Mathlib

/-! Languages over a set of letters, and the interleavings of two languages. -/
namespace EtasFrontend.Lib
open Computability

variable {α : Type} {l m : Language α} {A B : Set α}

/-- A split of a word is at its head or within its tail. -/
theorem exists_split_cons {P : List α → α → Prop} {x : α} {w : List α} :
    (∃ u y v, x :: w = u ++ y :: v ∧ P u y) ↔
      P [] x ∨ ∃ u y v, w = u ++ y :: v ∧ P (x :: u) y := by
  constructor
  · rintro ⟨u, y, v, heq, h⟩
    cases u with
    | nil =>
      cases heq
      exact Or.inl h
    | cons z u =>
      cases heq
      exact Or.inr ⟨u, y, v, rfl, h⟩
  · rintro (h | ⟨u, y, v, rfl, h⟩)
    · exact ⟨[], x, w, rfl, h⟩
    · exact ⟨x :: u, y, v, rfl, h⟩

/-- All words with letters in `A`. -/
def wordsOver (A : Set α) : Language α := {w | ∀ x ∈ w, x ∈ A}

theorem wordsOver_mono (h : A ⊆ B) : wordsOver A ≤ wordsOver B :=
  fun _ hw x hx => h (hw x hx)

theorem one_le_wordsOver : 1 ≤ wordsOver A := by
  rintro w rfl x hx
  cases hx

theorem wordsOver_empty : wordsOver (∅ : Set α) = 1 := by
  refine le_antisymm (fun w hw => ?_) one_le_wordsOver
  cases w with
  | nil => rfl
  | cons x w => exact (hw x List.mem_cons_self).elim

theorem singleton_le_wordsOver {a : α} (h : a ∈ A) : ({[a]} : Language α) ≤ wordsOver A := by
  rintro w rfl x hx
  cases List.mem_singleton.mp hx
  exact h

theorem mul_le_wordsOver (hl : l ≤ wordsOver A) (hm : m ≤ wordsOver A) : l * m ≤ wordsOver A := by
  rintro w ⟨u, hu, v, hv, rfl⟩ x hx
  rcases List.mem_append.mp hx with hx | hx
  · exact hl hu x hx
  · exact hm hv x hx

theorem kstar_le_wordsOver (hl : l ≤ wordsOver A) : l∗ ≤ wordsOver A := by
  rintro w hw x hx
  obtain ⟨words, rfl, hwords⟩ := Language.mem_kstar.mp hw
  obtain ⟨u, hu, hxu⟩ := List.mem_flatten.mp hx
  exact hl (hwords u hu) x hxu

/-- `w` merges `u` and `v`, the order of each kept. -/
inductive Interleave : List α → List α → List α → Prop
  | nil : Interleave [] [] []
  | left {u v w : List α} (x : α) (h : Interleave u v w) : Interleave (x :: u) v (x :: w)
  | right {u v w : List α} (x : α) (h : Interleave u v w) : Interleave u (x :: v) (x :: w)

theorem Interleave.mem {u v w : List α} (h : Interleave u v w) {x : α} (hx : x ∈ w) :
    x ∈ u ∨ x ∈ v := by
  induction h with
  | nil => cases hx
  | left y _ ih =>
    rcases List.mem_cons.mp hx with rfl | hx
    · exact Or.inl List.mem_cons_self
    · exact (ih hx).imp_left (List.mem_cons_of_mem _)
  | right y _ ih =>
    rcases List.mem_cons.mp hx with rfl | hx
    · exact Or.inr List.mem_cons_self
    · exact (ih hx).imp_right (List.mem_cons_of_mem _)

theorem interleave_append (u v : List α) : Interleave u v (u ++ v) := by
  induction u with
  | nil =>
    induction v with
    | nil => exact .nil
    | cons x v ih => exact .right x ih
  | cons x u ih => exact .left x ih

/-- The interleavings of a word of `l` with a word of `m`. -/
def shuffle (l m : Language α) : Language α := {w | ∃ u ∈ l, ∃ v ∈ m, Interleave u v w}

theorem shuffle_le_wordsOver (hl : l ≤ wordsOver A) (hm : m ≤ wordsOver A) :
    shuffle l m ≤ wordsOver A := by
  rintro w ⟨u, hu, v, hv, h⟩ x hx
  rcases h.mem hx with hx | hx
  · exact hl hu x hx
  · exact hm hv x hx

end EtasFrontend.Lib
