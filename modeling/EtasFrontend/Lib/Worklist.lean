import Mathlib.Data.List.Basic

/-! Runs of a worklist, whatever the order in which the pending nodes are taken. -/
namespace EtasFrontend.Lib

section
variable {α σ : Type} (step : α → σ → σ × Bool) (dependents : α → σ → List α)

/-- A run from a state with its pending nodes to a state where no node is pending. When the step of
a node reports a change, its dependents are pending again. -/
inductive WorklistRun : σ → List α → σ → Prop where
  | done (state : σ) : WorklistRun state [] state
  | take {state final : σ} {pending rest : List α} {node : α} (hnode : node ∈ pending)
      (hkept : ∀ other ∈ pending, other ≠ node → other ∈ rest)
      (hadded : (step node state).2 = true →
        ∀ other ∈ dependents node (step node state).1, other ∈ rest)
      (hrest : ∀ other ∈ rest, other ∈ pending ∨ other ∈ dependents node (step node state).1)
      (run : WorklistRun (step node state).1 rest final) : WorklistRun state pending final

end

variable {α σ : Type} {step : α → σ → σ × Bool} {dependents : α → σ → List α} {pending : List α}

/-- The rule for worklists. A step may only unsettle a node if it makes that node pending again;
then all nodes are settled where the run ends. -/
theorem WorklistRun.settles (nodes targets : α → Prop) (inv : σ → Prop) (settled : α → σ → Prop)
    (hclosed : ∀ node state other, other ∈ dependents node state → nodes other)
    (hinv : ∀ node state, nodes node → inv state → inv (step node state).1)
    (hstep : ∀ node state other, nodes node → targets other → inv state →
      (other = node ∨ settled other state) → settled other (step node state).1 ∨
        (step node state).2 = true ∧ other ∈ dependents node (step node state).1)
    {state final : σ} (run : WorklistRun step dependents state pending final)
    (hpending : ∀ node ∈ pending, nodes node) (hstart : inv state)
    (h : ∀ other, targets other → other ∈ pending ∨ settled other state) :
    inv final ∧ ∀ other, targets other → settled other final := by
  induction run with
  | done state =>
    refine ⟨hstart, fun other hother => ?_⟩
    rcases h other hother with hmem | hsettled
    · cases hmem
    · exact hsettled
  | @take state final pending rest node hnode hkept hadded hrest run ih =>
    have hn : nodes node := hpending node hnode
    apply ih
    · intro other hother
      rcases hrest other hother with hmem | hmem
      · exact hpending other hmem
      · exact hclosed _ _ other hmem
    · exact hinv node state hn hstart
    · intro other hother
      by_cases hkeep : other ∈ pending ∧ other ≠ node
      · exact Or.inl (hkept other hkeep.1 hkeep.2)
      · have hbefore : other = node ∨ settled other state := by
          by_cases heq : other = node
          · exact Or.inl heq
          · have hnot : other ∉ pending := fun hmem => hkeep ⟨hmem, heq⟩
            exact Or.inr ((h other hother).resolve_left hnot)
        rcases hstep node state other hn hother hstart hbefore with hset | ⟨hchanged, hdep⟩
        · exact Or.inr hset
        · exact Or.inl (hadded hchanged other hdep)

variable (step dependents) in
/-- Takes the pending nodes in their order, up to a limit; returns what is still pending. -/
def drain : ℕ → σ → List α → σ × List α
  | _, state, [] => (state, [])
  | 0, state, node :: pending => (state, node :: pending)
  | limit + 1, state, node :: pending =>
    drain limit (step node state).1
      (pending ++ if (step node state).2 then dependents node (step node state).1 else [])

theorem drain_run {limit : ℕ} {state final : σ}
    (h : drain step dependents limit state pending = (final, [])) :
    WorklistRun step dependents state pending final := by
  induction limit generalizing state pending with
  | zero =>
    cases pending with
    | nil =>
      cases h
      exact .done final
    | cons node pending => cases h
  | succ limit ih =>
    cases pending with
    | nil =>
      cases h
      exact .done final
    | cons node pending =>
      apply WorklistRun.take List.mem_cons_self _ _ _ (ih h)
      · intro other hother hne
        exact List.mem_append_left _ ((List.mem_cons.mp hother).resolve_left hne)
      · intro hchanged other hother
        rw [if_pos hchanged]
        exact List.mem_append_right _ hother
      · intro other hother
        rcases List.mem_append.mp hother with hmem | hmem
        · exact Or.inl (List.mem_cons_of_mem _ hmem)
        · split at hmem
          · exact Or.inr hmem
          · cases hmem

/-- A limit above what may still be taken is enough. -/
theorem drain_complete {bound : σ → ℕ} (hbound : ∀ node state, bound (step node state).1 +
      (if (step node state).2 then (dependents node (step node state).1).length else 0) ≤
        bound state) {limit : ℕ} {state : σ}
    (h : pending.length + bound state ≤ limit) :
    (drain step dependents limit state pending).2 = [] := by
  induction limit generalizing state pending with
  | zero =>
    cases pending with
    | nil => rfl
    | cons node pending =>
      rw [List.length_cons] at h
      omega
  | succ limit ih =>
    cases pending with
    | nil => rfl
    | cons node pending =>
      have hnode := hbound node state
      rw [List.length_cons] at h
      apply ih
      rw [List.length_append]
      split_ifs at hnode ⊢
      · omega
      · rw [List.length_nil]
        omega

end EtasFrontend.Lib
