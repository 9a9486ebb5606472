import Mathlib.Data.List.Basic
import Mathlib.Order.Basic

/-! Search by levels: a queue of nodes with the depth they were found at. A node that is taken for
the first time is taken at its distance from the roots. -/
namespace EtasFrontend.Lib

section
variable {α : Type*} (succ : α → List α) (roots : List α)

/-- A path of `n` edges leads from a root to the node. -/
inductive Level : ℕ → α → Prop
  | root {a : α} (h : a ∈ roots) : Level 0 a
  | step {n : ℕ} {a b : α} (h : Level n a) (hb : b ∈ succ a) : Level (n + 1) b

/-- The state of the search while it takes nodes of depth `d`. -/
structure Leveled (d : ℕ) (queue : List (α × ℕ)) (seen : List α) : Prop where
  sorted : queue.Pairwise fun e f => e.2 ≤ f.2
  depths : ∀ e ∈ queue, e.2 = d ∨ e.2 = d + 1
  found : ∀ e ∈ queue, Level succ roots e.2 e.1
  reached : ∀ a ∈ seen, ∃ k ≤ d, Level succ roots k a
  below : ∀ n < d, ∀ a, Level succ roots n a → a ∈ seen
  level : ∀ a, Level succ roots d a → a ∈ seen ∨ (a, d) ∈ queue
  closed : ∀ a ∈ seen, ∀ b ∈ succ a, b ∈ seen ∨ ∃ e ∈ queue, e.1 = b

end

variable {α : Type*} {succ : α → List α} {roots seen : List α} {queue : List (α × ℕ)}
  {d k : ℕ} {a : α}

namespace Leveled

theorem init (succ : α → List α) (roots : List α) : Leveled succ roots 0 (roots.map (·, 0)) [] where
  sorted := by
    rw [List.pairwise_map]
    exact List.pairwise_of_forall fun _ _ => Nat.le_refl 0
  depths e he := by
    obtain ⟨a, -, rfl⟩ := List.mem_map.mp he
    exact Or.inl rfl
  found e he := by
    obtain ⟨a, ha, rfl⟩ := List.mem_map.mp he
    exact .root ha
  reached _ h := by cases h
  below n h := by omega
  level a h := by
    cases h with
    | root ha => exact Or.inr (List.mem_map.mpr ⟨a, ha, rfl⟩)
  closed _ h := by cases h

section
variable (h : Leveled succ roots d ((a, k) :: queue) seen)
include h

/-- The search goes on with the depth of the next entry. -/
theorem at_head : Leveled succ roots k ((a, k) :: queue) seen := by
  rcases h.depths (a, k) List.mem_cons_self with hk | hk
  · cases hk
    exact h
  · -- the level `d` is used up: every entry is of the next one
    dsimp only at hk
    subst hk
    have hall : ∀ e ∈ (a, d + 1) :: queue, e.2 = d + 1 := by
      intro e he
      rcases h.depths e he with hd | hd
      · rcases List.mem_cons.mp he with rfl | he
        · rfl
        · have hle := (List.pairwise_cons.mp h.sorted).1 e he
          dsimp only at hle
          omega
      · exact hd
    have hlevel : ∀ b, Level succ roots d b → b ∈ seen := by
      intro b hb
      rcases h.level b hb with hb | hb
      · exact hb
      · have := hall _ hb
        dsimp only at this
        omega
    exact {
      sorted := h.sorted
      depths := fun e he => Or.inl (hall e he)
      found := h.found
      reached := fun b hb => by
        obtain ⟨n, hn, hl⟩ := h.reached b hb
        exact ⟨n, by omega, hl⟩
      below := fun n hn b hb => by
        by_cases hnd : n = d
        · subst hnd
          exact hlevel b hb
        · exact h.below n (by omega) b hb
      level := fun b hb => by
        cases hb with
        | @step _ c _ hc hb =>
          rcases h.closed c (hlevel c hc) b hb with hb | ⟨e, he, rfl⟩
          · exact Or.inl hb
          · have hd := hall e he
            exact Or.inr (hd ▸ he)
      closed := h.closed }

/-- A node that was not taken before is at no smaller depth. -/
theorem shortest (ha : a ∉ seen) : Level succ roots k a ∧ ∀ n, Level succ roots n a → k ≤ n := by
  have hk := h.at_head
  refine ⟨hk.found (a, k) List.mem_cons_self, fun n hn => ?_⟩
  by_contra hlt
  exact ha (hk.below n (by omega) a hn)

theorem skip (ha : a ∈ seen) : Leveled succ roots k queue seen := by
  have hk := h.at_head
  exact {
    sorted := (List.pairwise_cons.mp hk.sorted).2
    depths := fun e he => hk.depths e (List.mem_cons_of_mem _ he)
    found := fun e he => hk.found e (List.mem_cons_of_mem _ he)
    reached := hk.reached
    below := hk.below
    level := fun b hb => by
      rcases hk.level b hb with hb | hb
      · exact Or.inl hb
      · rcases List.mem_cons.mp hb with he | hb
        · cases he
          exact Or.inl ha
        · exact Or.inr hb
    closed := fun b hb c hc => by
      rcases hk.closed b hb c hc with hc | ⟨e, he, rfl⟩
      · exact Or.inl hc
      · rcases List.mem_cons.mp he with rfl | he
        · exact Or.inl ha
        · exact Or.inr ⟨e, he, rfl⟩ }

/-- A node is taken, and those of its successors that were not taken are put in the queue. -/
theorem take [DecidableEq α] (seen' : List α) (hseen : ∀ b, b ∈ seen' ↔ b = a ∨ b ∈ seen) :
    Leveled succ roots k (queue ++ ((succ a).filter (· ∉ seen')).map (·, k + 1)) seen' := by
  have hk := h.at_head
  have hlevel := hk.found (a, k) List.mem_cons_self
  have hnew : ∀ e ∈ ((succ a).filter (· ∉ seen')).map (·, k + 1), e.1 ∈ succ a ∧ e.2 = k + 1 := by
    intro e he
    obtain ⟨b, hb, rfl⟩ := List.mem_map.mp he
    exact ⟨(List.mem_filter.mp hb).1, rfl⟩
  have hold : ∀ e ∈ queue, e ∈ (a, k) :: queue := fun e he => List.mem_cons_of_mem _ he
  exact {
    sorted := by
      refine List.pairwise_append.mpr ⟨(List.pairwise_cons.mp hk.sorted).2, ?_, fun e he f hf => ?_⟩
      · rw [List.pairwise_map]
        exact List.pairwise_of_forall fun _ _ => Nat.le_refl _
      · have hf := (hnew f hf).2
        rcases hk.depths e (hold e he) with he | he
        · omega
        · omega
    depths := fun e he => by
      rcases List.mem_append.mp he with he | he
      · exact hk.depths e (hold e he)
      · exact Or.inr (hnew e he).2
    found := fun e he => by
      rcases List.mem_append.mp he with he | he
      · exact hk.found e (hold e he)
      · obtain ⟨hsucc, hdepth⟩ := hnew e he
        rw [hdepth]
        exact .step hlevel hsucc
    reached := fun b hb => by
      rcases (hseen b).mp hb with rfl | hb
      · exact ⟨k, Nat.le_refl k, hlevel⟩
      · exact hk.reached b hb
    below := fun n hn b hb => (hseen b).mpr (Or.inr (hk.below n hn b hb))
    level := fun b hb => by
      rcases hk.level b hb with hb | hb
      · exact Or.inl ((hseen b).mpr (Or.inr hb))
      · rcases List.mem_cons.mp hb with he | hb
        · cases he
          exact Or.inl ((hseen a).mpr (Or.inl rfl))
        · exact Or.inr (List.mem_append_left _ hb)
    closed := fun b hb c hc => by
      by_cases hc' : c ∈ seen'
      · exact Or.inl hc'
      · right
        rcases (hseen b).mp hb with rfl | hb
        · have hmem : c ∈ (succ b).filter (· ∉ seen') := by simp [hc, hc']
          exact ⟨(c, k + 1), List.mem_append_right _ (List.mem_map.mpr ⟨c, hmem, rfl⟩), rfl⟩
        · rcases hk.closed b hb c hc with hc | ⟨e, he, rfl⟩
          · exact absurd ((hseen c).mpr (Or.inr hc)) hc'
          · rcases List.mem_cons.mp he with rfl | he
            · exact absurd ((hseen a).mpr (Or.inl rfl)) hc'
            · exact ⟨e, List.mem_append_left _ he, rfl⟩ }

end

/-- When the queue is empty, every node at some distance was taken. -/
theorem complete (h : Leveled succ roots d [] seen) {n : ℕ} {b : α} (hb : Level succ roots n b) :
    b ∈ seen := by
  have hlevel : ∀ c, Level succ roots d c → c ∈ seen := by
    intro c hc
    rcases h.level c hc with hc | hc
    · exact hc
    · cases hc
  by_cases hnd : n < d
  · exact h.below n hnd b hb
  induction hb with
  | @root c hc =>
    have hd : d = 0 := by omega
    subst hd
    exact hlevel c (.root hc)
  | @step m c e hc he ih =>
    by_cases hmd : m + 1 = d
    · exact hlevel e (hmd ▸ .step hc he)
    · rcases h.closed c (ih (by omega)) e he with he | ⟨_, he, _⟩
      · exact he
      · cases he

end Leveled
end EtasFrontend.Lib
