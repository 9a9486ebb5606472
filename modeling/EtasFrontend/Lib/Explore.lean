import EtasFrontend.Lib.Search
import Mathlib.Algebra.Order.BigOperators.Group.Finset

/-! Exploration with an explicit stack. A node is brought to a normal form when it is taken, and its
visit gives the nodes to go to or stops the exploration with an answer. -/
namespace EtasFrontend.Lib

variable {α β : Type} (norm : α → α) (visit : α → Option (Except β (List α)))

/-- The top of the stack is its head. `none` means that the bound was too small, or that a visit
has no result. -/
def explore [DecidableEq α] : ℕ → List α → List α → Option (Except β (List α))
  | _, [], seen => some (.ok seen)
  | 0, _ :: _, _ => none
  | n + 1, a :: stack, seen =>
    if norm a ∈ seen then explore n stack seen
    else
      match visit (norm a) with
      | none => none
      | some (.error answer) => some (.error answer)
      | some (.ok next) => explore n (next.reverse ++ stack) (seen ++ [norm a])

/-- The nodes an exploration from `start` comes to. -/
inductive Reached (start : List α) : α → Prop
  | start {a : α} (h : a ∈ start) : Reached start (norm a)
  | step {a b : α} {next : List α} (ha : Reached start a) (hv : visit a = some (.ok next))
      (hb : b ∈ next) : Reached start (norm b)

/-- The state of an exploration. -/
structure Exploring (start stack seen : List α) : Prop where
  pending : ∀ a ∈ stack, Reached norm visit start (norm a)
  reached : ∀ a ∈ seen, Reached norm visit start a
  distinct : seen.Nodup
  begun : ∀ a ∈ start, norm a ∈ seen ∨ a ∈ stack
  closed : ∀ a ∈ seen, ∃ next, visit a = some (.ok next) ∧ ∀ b ∈ next, norm b ∈ seen ∨ b ∈ stack

variable {norm visit} {start stack seen : List α} {a : α}

theorem Exploring.init (start : List α) : Exploring norm visit start start [] where
  pending _ ha := .start ha
  reached _ ha := by cases ha
  distinct := List.nodup_nil
  begun _ ha := Or.inr ha
  closed _ ha := by cases ha

theorem Exploring.skip (h : Exploring norm visit start (a :: stack) seen) (ha : norm a ∈ seen) :
    Exploring norm visit start stack seen := by
  have hkeep : ∀ b, norm b ∈ seen ∨ b ∈ a :: stack → norm b ∈ seen ∨ b ∈ stack := by
    intro b hb
    rcases hb with hb | hb
    · exact Or.inl hb
    · rcases List.mem_cons.mp hb with rfl | hb
      · exact Or.inl ha
      · exact Or.inr hb
  refine ⟨fun b hb => h.pending b (List.mem_cons_of_mem _ hb), h.reached, h.distinct,
    fun b hb => hkeep b (h.begun b hb), fun b hb => ?_⟩
  obtain ⟨next, hvisit, hnext⟩ := h.closed b hb
  exact ⟨next, hvisit, fun c hc => hkeep c (hnext c hc)⟩

theorem Exploring.take {next : List α} (h : Exploring norm visit start (a :: stack) seen)
    (ha : norm a ∉ seen) (hvisit : visit (norm a) = some (.ok next)) :
    Exploring norm visit start (next.reverse ++ stack) (seen ++ [norm a]) := by
  have hreached := h.pending a List.mem_cons_self
  have hkeep : ∀ b, norm b ∈ seen ∨ b ∈ a :: stack →
      norm b ∈ seen ++ [norm a] ∨ b ∈ next.reverse ++ stack := by
    intro b hb
    rcases hb with hb | hb
    · exact Or.inl (List.mem_append_left _ hb)
    · rcases List.mem_cons.mp hb with rfl | hb
      · exact Or.inl (List.mem_append_right _ List.mem_cons_self)
      · exact Or.inr (List.mem_append_right _ hb)
  constructor
  · intro b hb
    rcases List.mem_append.mp hb with hb | hb
    · exact .step hreached hvisit (List.mem_reverse.mp hb)
    · exact h.pending b (List.mem_cons_of_mem _ hb)
  · intro b hb
    rcases List.mem_append.mp hb with hb | hb
    · exact h.reached b hb
    · rw [List.mem_singleton.mp hb]
      exact hreached
  · exact List.nodup_append.mpr ⟨h.distinct, List.nodup_singleton _, fun b hb c hc hbc =>
      ha (List.mem_singleton.mp hc ▸ hbc ▸ hb)⟩
  · exact fun b hb => hkeep b (h.begun b hb)
  · intro b hb
    rcases List.mem_append.mp hb with hb | hb
    · obtain ⟨other, hother, hnext⟩ := h.closed b hb
      exact ⟨other, hother, fun c hc => hkeep c (hnext c hc)⟩
    · rw [List.mem_singleton.mp hb]
      refine ⟨next, hvisit, fun c hc => Or.inr ?_⟩
      exact List.mem_append_left _ (List.mem_reverse.mpr hc)

variable [DecidableEq α]

/-- An exploration that ends has seen every node it comes to, once, and no visit has stopped it. -/
theorem explore_ok {n : ℕ} {seen' : List α} (hstate : Exploring norm visit start stack seen)
    (h : explore norm visit n stack seen = some (.ok seen')) :
    seen'.Nodup ∧ ∀ a, (a ∈ seen' ↔ Reached norm visit start a) ∧
      (a ∈ seen' → ∃ next, visit a = some (.ok next)) := by
  fun_induction explore norm visit n stack seen with
  | case1 _ seen =>
    cases h
    have hall : ∀ a, Reached norm visit start a → a ∈ seen' := by
      intro a ha
      induction ha with
      | start hb => exact (hstate.begun _ hb).resolve_right List.not_mem_nil
      | step _ hv hb ih =>
        obtain ⟨next, hvisit, hnext⟩ := hstate.closed _ ih
        cases hv.symm.trans hvisit
        exact (hnext _ hb).resolve_right List.not_mem_nil
    refine ⟨hstate.distinct, fun a => ⟨⟨hstate.reached a, hall a⟩, fun ha => ?_⟩⟩
    obtain ⟨next, hvisit, -⟩ := hstate.closed a ha
    exact ⟨next, hvisit⟩
  | case2 => cases h
  | case3 _ _ _ _ hmem ih => exact ih (hstate.skip hmem) h
  | case4 => cases h
  | case5 => cases h
  | case6 _ _ _ _ hmem _ hvisit ih => exact ih (hstate.take hmem hvisit) h

/-- One that is stopped has come to a node whose visit gives the answer. -/
theorem explore_error {n : ℕ} {answer : β} (hstate : Exploring norm visit start stack seen)
    (h : explore norm visit n stack seen = some (.error answer)) :
    ∃ a, Reached norm visit start a ∧ visit a = some (.error answer) := by
  fun_induction explore norm visit n stack seen with
  | case1 => cases h
  | case2 => cases h
  | case3 _ _ _ _ hmem ih => exact ih (hstate.skip hmem) h
  | case4 => cases h
  | case5 _ a _ _ _ _ hvisit =>
    cases h
    exact ⟨norm a, hstate.pending a List.mem_cons_self, hvisit⟩
  | case6 _ _ _ _ hmem _ hvisit ih => exact ih (hstate.take hmem hvisit) h

/-- What a node of a finite set goes to. -/
def successors (visit : α → Option (Except β (List α))) (nodes : Finset α) (a : α) : List α :=
  if a ∈ nodes then
    match visit a with
    | some (.ok next) => next
    | _ => []
  else []

/-- It returns, when it comes to finitely many nodes and every visit of one has a result. -/
theorem explore_returns {nodes : Finset α} (hnodes : ∀ a, Reached norm visit start a → a ∈ nodes)
    (hvisits : ∀ a, Reached norm visit start a → visit a ≠ none) {n : ℕ}
    (hstate : Exploring norm visit start stack seen)
    (hn : stack.length + pending (successors visit nodes) nodes seen ≤ n) :
    ∃ result, explore norm visit n stack seen = some result := by
  fun_induction explore norm visit n stack seen with
  | case1 => exact ⟨_, rfl⟩
  | case2 =>
    rw [List.length_cons] at hn
    omega
  | case3 _ _ _ _ hmem ih =>
    rw [List.length_cons] at hn
    exact ih (hstate.skip hmem) (by omega)
  | case4 _ a _ _ _ hvisit =>
    exact absurd hvisit (hvisits _ (hstate.pending a List.mem_cons_self))
  | case5 => exact ⟨_, rfl⟩
  | case6 _ a _ seen hmem next hvisit ih =>
    apply ih (hstate.take hmem hvisit)
    have hout : ∀ b ∉ nodes, successors visit nodes b = [] := by
      intro b hb
      exact if_neg hb
    have hnext : successors visit nodes (norm a) = next := by
      unfold successors
      rw [if_pos (hnodes _ (hstate.pending a List.mem_cons_self)), hvisit]
    have hdrop := pending_cons hout hmem
    have hsame : pending (successors visit nodes) nodes (seen ++ [norm a]) =
        pending (successors visit nodes) nodes (norm a :: seen) := by
      unfold pending
      refine Finset.sum_congr ?_ fun _ _ => rfl
      ext b
      simp [or_comm]
    rw [List.length_append, List.length_reverse, hsame]
    rw [List.length_cons, hdrop, hnext] at hn
    omega

/-- The same with a bound that does not depend on the visits. -/
theorem explore_returns_of_count {nodes : Finset α} {count : α → ℕ}
    (hnodes : ∀ a, Reached norm visit start a → a ∈ nodes)
    (hvisits : ∀ a, Reached norm visit start a → visit a ≠ none)
    (hcount : ∀ a ∈ nodes, ∀ next, visit a = some (.ok next) → next.length ≤ count a) {n : ℕ}
    (hn : start.length + ∑ a ∈ nodes, count a ≤ n) :
    ∃ result, explore norm visit n start [] = some result := by
  refine explore_returns hnodes hvisits (.init start) (le_trans (Nat.add_le_add_left ?_ _) hn)
  unfold pending
  refine (Finset.sum_le_sum_of_subset (Finset.filter_subset _ _)).trans ?_
  refine Finset.sum_le_sum fun a ha => ?_
  unfold successors
  split_ifs
  · split
    · next next hvisit => exact hcount a ha next hvisit
    · exact Nat.zero_le _

end EtasFrontend.Lib
