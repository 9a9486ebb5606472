import Mathlib.Data.List.Chain
import Mathlib.Data.List.Nodup

/-! Meanings of the nodes of a tree that is kept in an arena: a node means what its algebra makes
of the meanings of its parts. -/
namespace EtasFrontend.Lib
variable {ν δ : Type*}

inductive Means (parts : ν → List ν) (algebra : ν → (ν → δ) → δ) : ν → δ → Prop
  | node (a : ν) (m : ν → δ) (h : ∀ c ∈ parts a, Means parts algebra c (m c)) :
      Means parts algebra a (algebra a m)

/-- The algebra looks at the meanings of the parts only. -/
def LooksAtParts (parts : ν → List ν) (algebra : ν → (ν → δ) → δ) : Prop :=
  ∀ a m m', (∀ c ∈ parts a, m c = m' c) → algebra a m = algebra a m'

namespace Means
variable {parts parts' : ν → List ν} {algebra algebra' : ν → (ν → δ) → δ} {a : ν} {d d' : δ}

theorem inv (h : Means parts algebra a d) :
    ∃ m, d = algebra a m ∧ ∀ c ∈ parts a, Means parts algebra c (m c) := by
  cases h with
  | node _ m hm => exact ⟨m, rfl, hm⟩

theorem unique (halgebra : LooksAtParts parts algebra) (h : Means parts algebra a d)
    (h' : Means parts algebra a d') : d = d' := by
  induction h generalizing d' with
  | node a m _ ih =>
    obtain ⟨m', rfl, hm'⟩ := h'.inv
    exact halgebra a m m' fun c hc => ih c hc (hm' c hc)

/-- Meanings of all parts. -/
theorem choose_parts [Nonempty δ] (h : ∀ c ∈ parts a, ∃ d, Means parts algebra c d) :
    ∃ m : ν → δ, ∀ c ∈ parts a, Means parts algebra c (m c) := by
  classical
  obtain ⟨other⟩ := ‹Nonempty δ›
  refine ⟨fun c => if hc : c ∈ parts a then (h c hc).choose else other, fun c hc => ?_⟩
  simp only [dif_pos hc]
  exact (h c hc).choose_spec

/-- A node has a meaning when its parts have. -/
theorem exists_of_parts [Nonempty δ] (h : ∀ c ∈ parts a, ∃ d, Means parts algebra c d) :
    ∃ d, Means parts algebra a d := by
  obtain ⟨m, hm⟩ := choose_parts h
  exact ⟨_, .node a m hm⟩

/-- A second program gives the nodes of a kind their old meanings when it does so for each node
whose parts of that kind keep theirs. -/
theorem transfer (kind : ν → Prop)
    (hnode : ∀ a m, kind a → (∀ c ∈ parts a, Means parts algebra c (m c)) →
      (∀ c ∈ parts a, kind c → Means parts' algebra' c (m c)) →
        Means parts' algebra' a (algebra a m))
    (ha : kind a) (h : Means parts algebra a d) : Means parts' algebra' a d := by
  induction h with
  | node a m hm ih => exact hnode a m ha hm ih

/-- A node that is the same in the second program. -/
theorem same {m : ν → δ} (hparts : parts' a = parts a) (halgebra : algebra' a m = algebra a m)
    (h : ∀ c ∈ parts a, Means parts' algebra' c (m c)) :
    Means parts' algebra' a (algebra a m) := by
  rw [← halgebra]
  exact .node a m (hparts ▸ h)

end Means

/-- The nodes in use form a forest: their parts are in use, and have one owner in use. -/
structure Owned (parts : ν → List ν) (live : ν → Prop) : Prop where
  live_part : ∀ p c, live p → c ∈ parts p → live c
  owner : ∀ p q c, live p → live q → c ∈ parts p → c ∈ parts q → p = q
  nodup : ∀ p, live p → (parts p).Nodup

namespace Owned
variable {parts : ν → List ν} {live : ν → Prop} {a a' c : ν} {l l' : List ν}

theorem live_of_chain (h : Owned parts live) (hl : (a :: l).IsChain fun p c => c ∈ parts p)
    (ha : live a) : ∀ c ∈ a :: l, live c := by
  induction l generalizing a with
  | nil => simpa using ha
  | cons b l ih =>
    rw [List.isChain_cons_cons] at hl
    rw [List.forall_mem_cons]
    exact ⟨ha, ih hl.2 (h.live_part a b ha hl.1)⟩

/-- Nodes that list every part once. -/
theorem of_list (hlive : ∀ p ∈ l, ∀ c ∈ parts p, c ∈ l) (hnodup : (l.flatMap parts).Nodup) :
    Owned parts (· ∈ l) := by
  rw [List.nodup_flatMap] at hnodup
  refine ⟨fun p c hp hc => hlive p hp c hc, fun p q c hp hq hpc hqc => ?_, hnodup.1⟩
  by_contra hne
  have : Std.Symm (Function.onFun List.Disjoint parts) := ⟨fun _ _ h _ hb ha => h ha hb⟩
  exact hnodup.2.forall hp hq hne hpc hqc

variable (h : Owned parts live) (hl : (a :: l).IsChain fun p c => c ∈ parts p)
include h hl

/-- What owns a node of a chain below its head is on the chain. -/
theorem owner_mem_chain (ha : live a) {q : ν} (hq : live q) (hc : c ∈ l) (hqc : c ∈ parts q) :
    q ∈ a :: l := by
  induction l generalizing a with
  | nil => cases hc
  | cons b l ih =>
    rw [List.isChain_cons_cons] at hl
    rcases List.mem_cons.mp hc with rfl | hc
    · rw [h.owner q a c hq ha hqc hl.1]
      exact List.mem_cons_self
    · exact List.mem_cons_of_mem _ (ih hl.2 (h.live_part a b ha hl.1) hc)

/-- A node off a chain whose head has another owner has no part on the chain. -/
theorem not_mem_chain (ha : live a) {p q : ν} (hp : live p) (hpa : a ∈ parts p) (hq : live q)
    (hqp : q ≠ p) (hql : q ∉ a :: l) (hqc : c ∈ parts q) : c ∉ a :: l := by
  intro hc
  rcases List.mem_cons.mp hc with rfl | hc
  · exact hqp (h.owner q p c hq hp hqc hpa)
  · exact hql (h.owner_mem_chain hl ha hq hc hqc)

/-- Chains of one length that end at one node start at one node. -/
theorem head_eq_of_chain (hl' : (a' :: l').IsChain fun p c => c ∈ parts p) (ha : live a)
    (ha' : live a') (hlength : l.length = l'.length)
    (hlast : (a :: l).getLast? = (a' :: l').getLast?) : a = a' := by
  induction l generalizing a a' l' with
  | nil =>
    rw [List.eq_nil_of_length_eq_zero hlength.symm] at hlast
    simpa using hlast
  | cons b l ih =>
    cases l' with
    | nil => cases hlength
    | cons b' l' =>
      rw [List.isChain_cons_cons] at hl hl'
      rw [List.getLast?_cons_cons, List.getLast?_cons_cons] at hlast
      have hb := ih hl.2 hl'.2 (h.live_part a b ha hl.1) (h.live_part a' b' ha' hl'.1)
        (by simpa using hlength) hlast
      subst hb
      exact h.owner a a' b ha ha' hl.1 hl'.1

end Owned
end EtasFrontend.Lib
