import EtasFrontend.Lib.Search
import EtasFrontend.Lib.Worklist

/-! Everything that is reached from some nodes, found with a queue. -/
namespace EtasFrontend.Lib
open Relation

variable {α : Type} [DecidableEq α] (succ : α → List α)

/-- A node that is taken for the first time is marked. -/
def mark (a : α) (seen : List α) : List α × Bool :=
  if a ∈ seen then (seen, false) else (a :: seen, true)

/-- The marked nodes, and what is left of the queue. -/
def reach (limit : ℕ) (start : List α) : List α × List α :=
  drain mark (fun a _ => succ a) limit [] start

variable {succ}

theorem mark_of_mem {a : α} {seen : List α} (h : a ∈ seen) : mark a seen = (seen, false) :=
  if_pos h

theorem mark_of_not_mem {a : α} {seen : List α} (h : a ∉ seen) : mark a seen = (a :: seen, true) :=
  if_neg h

theorem reach_complete {nodes : Finset α} (hn : ∀ a ∉ nodes, succ a = []) {limit : ℕ}
    {start : List α} (h : start.length + pending succ nodes [] ≤ limit) :
    (reach succ limit start).2 = [] := by
  have hbound (a : α) (seen : List α) : pending succ nodes (mark a seen).1 +
      (if (mark a seen).2 then (succ a).length else 0) ≤ pending succ nodes seen := by
    by_cases ha : a ∈ seen
    · rw [mark_of_mem ha]
      exact le_of_eq (Nat.add_zero _)
    · have hpending := pending_cons hn ha
      rw [mark_of_not_mem ha, if_pos rfl]
      dsimp only
      omega
  exact drain_complete hbound h

/-- Where the queue is empty, what is marked is closed. -/
theorem closed_of_run {seen queue final : List α}
    (run : WorklistRun mark (fun a _ => succ a) seen queue final)
    (h : ∀ a ∈ seen, ∀ b ∈ succ a, b ∈ seen ∨ b ∈ queue) :
    (∀ a, a ∈ seen ∨ a ∈ queue → a ∈ final) ∧ ∀ a ∈ final, ∀ b ∈ succ a, b ∈ final := by
  induction run with
  | done seen =>
    have hout : ∀ b, b ∈ seen ∨ b ∈ [] → b ∈ seen := fun b hb => hb.resolve_right List.not_mem_nil
    exact ⟨hout, fun a ha b hb => hout b (h a ha b hb)⟩
  | @take seen final queue rest a hmem hkept hadded hrest run ih =>
    by_cases ha : a ∈ seen
    · rw [mark_of_mem ha] at ih
      have hkeep : ∀ b, b ∈ seen ∨ b ∈ queue → b ∈ seen ∨ b ∈ rest := by
        intro b hb
        by_cases heq : b = a
        · exact Or.inl (heq ▸ ha)
        · exact hb.imp_right fun hb => hkept b hb heq
      have hih := ih fun b hb c hc => hkeep c (h b hb c hc)
      exact ⟨fun b hb => hih.1 b (hkeep b hb), hih.2⟩
    · rw [mark_of_not_mem ha] at ih hadded
      have hkeep : ∀ b, b ∈ seen ∨ b ∈ queue → b ∈ a :: seen ∨ b ∈ rest := by
        intro b hb
        by_cases heq : b = a
        · exact Or.inl (List.mem_cons.mpr (Or.inl heq))
        · exact hb.imp (List.mem_cons_of_mem _) fun hb => hkept b hb heq
      have hih := ih fun b hb c hc => by
        rcases List.mem_cons.mp hb with rfl | hb
        · exact Or.inr (hadded rfl c hc)
        · exact hkeep c (h b hb c hc)
      exact ⟨fun b hb => hih.1 b (hkeep b hb), hih.2⟩

theorem reached_of_run {start seen queue final : List α}
    (run : WorklistRun mark (fun a _ => succ a) seen queue final)
    (h : ∀ a, a ∈ seen ∨ a ∈ queue → ∃ s ∈ start, ReflTransGen (fun a b => b ∈ succ a) s a) :
    ∀ a ∈ final, ∃ s ∈ start, ReflTransGen (fun a b => b ∈ succ a) s a := by
  induction run with
  | done seen => exact fun a ha => h a (Or.inl ha)
  | @take seen final queue rest a hmem hkept hadded hrest run ih =>
    refine ih fun b hb => ?_
    have hseen : b ∈ (mark a seen).1 → b = a ∨ b ∈ seen := by
      unfold mark
      split_ifs
      · exact Or.inr
      · exact List.mem_cons.mp
    rcases hb with hb | hb
    · rcases hseen hb with rfl | hb
      · exact h b (Or.inr hmem)
      · exact h b (Or.inl hb)
    · rcases hrest b hb with hb | hb
      · exact h b (Or.inr hb)
      · obtain ⟨s, hs, hp⟩ := h a (Or.inr hmem)
        exact ⟨s, hs, hp.tail hb⟩

/-- With a limit above the number of edges just what is reached is marked. -/
theorem reach_iff {nodes : Finset α} (hn : ∀ a ∉ nodes, succ a = []) {limit : ℕ}
    {start : List α} (h : start.length + pending succ nodes [] ≤ limit) :
    ∃ seen, reach succ limit start = (seen, []) ∧
      ∀ a, a ∈ seen ↔ ∃ s ∈ start, ReflTransGen (fun a b => b ∈ succ a) s a := by
  have hleft := reach_complete hn h
  have hrun : reach succ limit start = ((reach succ limit start).1, []) := by rw [← hleft]
  have run := drain_run hrun
  refine ⟨_, hrun, fun a => ⟨fun ha => ?_, ?_⟩⟩
  · refine reached_of_run run (fun b hb => ?_) a ha
    exact ⟨b, hb.resolve_left List.not_mem_nil, .refl⟩
  · have hclosed := closed_of_run run fun b hb => absurd hb List.not_mem_nil
    rintro ⟨s, hs, hp⟩
    induction hp with
    | refl => exact hclosed.1 s (Or.inr hs)
    | tail _ hb ih => exact hclosed.2 _ ih _ hb

end EtasFrontend.Lib
