import Mathlib.Algebra.BigOperators.Group.Finset.Basic

/-! Depth-first search with an explicit stack, for a path of at least one edge. -/
namespace EtasFrontend.Lib
open Relation

variable {α : Type} [DecidableEq α] (succ : α → List α) (goal : α)

/-- Pop a node; stop at an edge into `goal`, else push its successors. The top of the stack is its
head. -/
def search : ℕ → List α → List α → Bool
  | 0, _, _ => false
  | _ + 1, [], _ => false
  | n + 1, a :: stack, seen =>
    if a ∈ seen then search n stack seen
    else if goal ∈ succ a then true
    else search n ((succ a).reverse ++ stack) (a :: seen)

/-- Edges that are still to be pushed. -/
def pending (nodes : Finset α) (seen : List α) : ℕ :=
  ∑ a ∈ nodes with a ∉ seen, (succ a).length

variable {succ goal}

theorem search_sound {n : ℕ} {stack seen : List α} (h : search succ goal n stack seen = true) :
    ∃ a ∈ stack, TransGen (fun a b => b ∈ succ a) a goal := by
  fun_induction search succ goal n stack seen with
  | case1 => cases h
  | case2 => cases h
  | case3 n a stack seen hs ih =>
    obtain ⟨b, hb, hp⟩ := ih h
    exact ⟨b, List.mem_cons_of_mem _ hb, hp⟩
  | case4 n a stack seen hs hg => exact ⟨a, List.mem_cons_self, .single hg⟩
  | case5 n a stack seen hs hg ih =>
    obtain ⟨b, hb, hp⟩ := ih h
    rcases List.mem_append.mp hb with hb | hb
    · exact ⟨a, List.mem_cons_self, .head (List.mem_reverse.mp hb) hp⟩
    · exact ⟨b, List.mem_cons_of_mem _ hb, hp⟩

variable {nodes : Finset α}

theorem pending_cons (hn : ∀ a ∉ nodes, succ a = []) {a : α} {seen : List α} (ha : a ∉ seen) :
    pending succ nodes seen = (succ a).length + pending succ nodes (a :: seen) := by
  have hfilter : {b ∈ nodes | b ∉ a :: seen} = ({b ∈ nodes | b ∉ seen} : Finset α).erase a := by
    ext b
    simp only [Finset.mem_filter, List.mem_cons, not_or, Finset.mem_erase]
    tauto
  unfold pending
  rw [hfilter]
  by_cases hmem : a ∈ nodes
  · exact (Finset.add_sum_erase _ _ (by simp [hmem, ha])).symm
  · rw [Finset.erase_eq_of_notMem (by simp [hmem]), hn a hmem]
    simp

/-- A search that runs out of nodes has closed the nodes it saw. -/
theorem search_closed (hn : ∀ a ∉ nodes, succ a = []) {n : ℕ}
    {stack seen : List α} (hf : stack.length + pending succ nodes seen < n)
    (hseen : ∀ a ∈ seen, goal ∉ succ a ∧ ∀ b ∈ succ a, b ∈ seen ∨ b ∈ stack)
    (h : search succ goal n stack seen = false) :
    ∃ closed : Set α, (∀ a ∈ stack, a ∈ closed) ∧ (∀ a ∈ seen, a ∈ closed) ∧
      ∀ a ∈ closed, goal ∉ succ a ∧ ∀ b ∈ succ a, b ∈ closed := by
  fun_induction search succ goal n stack seen with
  | case1 => omega
  | case2 n seen =>
    refine ⟨{a | a ∈ seen}, nofun, fun _ ha => ha, fun a ha => ⟨(hseen a ha).1, fun b hb => ?_⟩⟩
    simpa using (hseen a ha).2 b hb
  | case3 n a stack seen hs ih =>
    obtain ⟨closed, hstack, hc, hclosed⟩ := ih (by simp at hf; omega)
      (fun b hb => ⟨(hseen b hb).1, fun c hc => by
        rcases (hseen b hb).2 c hc with hc | hc
        · exact Or.inl hc
        · rcases List.mem_cons.mp hc with rfl | hc
          · exact Or.inl hs
          · exact Or.inr hc⟩) h
    exact ⟨closed, fun b hb => (List.mem_cons.mp hb).elim (fun e => e ▸ hc a hs) (hstack b), hc,
      hclosed⟩
  | case4 n a stack seen hs hg => cases h
  | case5 n a stack seen hs hg ih =>
    have hp := pending_cons hn hs
    have hseen' : ∀ b ∈ a :: seen, goal ∉ succ b ∧
        ∀ c ∈ succ b, c ∈ a :: seen ∨ c ∈ (succ a).reverse ++ stack := by
      intro b hb
      rcases List.mem_cons.mp hb with rfl | hb
      · exact ⟨hg, fun c hc => Or.inr (List.mem_append_left _ (List.mem_reverse.mpr hc))⟩
      · refine ⟨(hseen b hb).1, fun c hc => ?_⟩
        rcases (hseen b hb).2 c hc with hc | hc
        · exact Or.inl (List.mem_cons_of_mem _ hc)
        · rcases List.mem_cons.mp hc with rfl | hc
          · exact Or.inl List.mem_cons_self
          · exact Or.inr (List.mem_append_right _ hc)
    obtain ⟨closed, hstack, hc, hclosed⟩ := ih (by simp at hf ⊢; omega) hseen' h
    refine ⟨closed, fun b hb => ?_, fun b hb => hc b (List.mem_cons_of_mem _ hb), hclosed⟩
    rcases List.mem_cons.mp hb with rfl | hb
    · exact hc b List.mem_cons_self
    · exact hstack b (List.mem_append_right _ hb)

/-- With a bound above the number of edges the search decides reachability. -/
theorem search_iff (hn : ∀ a ∉ nodes, succ a = []) {n : ℕ} {start : α}
    (hf : 1 + pending succ nodes [] < n) :
    search succ goal n [start] [] = true ↔ TransGen (fun a b => b ∈ succ a) start goal := by
  constructor
  · intro h
    obtain ⟨a, ha, hp⟩ := search_sound h
    cases List.mem_singleton.mp ha
    exact hp
  · intro hp
    by_contra h
    obtain ⟨closed, hstack, -, hclosed⟩ := search_closed hn (by simpa using hf)
      (fun a ha => absurd ha List.not_mem_nil) (Bool.eq_false_iff.mpr h)
    -- no node of the closed set reaches the goal
    have hno : ∀ a, TransGen (fun a b => b ∈ succ a) a goal → a ∉ closed := by
      intro a hp
      induction hp using TransGen.head_induction_on with
      | single he => exact fun ha => (hclosed _ ha).1 he
      | head he _ ih => exact fun ha => ih ((hclosed _ ha).2 _ he)
    exact hno start hp (hstack start (List.mem_singleton_self start))

end EtasFrontend.Lib
