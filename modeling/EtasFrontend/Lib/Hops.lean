import Mathlib.Data.Nat.Notation
import Mathlib.Logic.Relation

/-! Paths of a given length in a graph where every node has at most one successor. -/
namespace EtasFrontend.Lib
open Relation

variable {α : Type*} {r : α → α → Prop}

/-- `n` steps lead from the first node to the second. -/
inductive Hops (r : α → α → Prop) : ℕ → α → α → Prop
  | zero (a : α) : Hops r 0 a a
  | step {n : ℕ} {a b c : α} (h : r a b) (hs : Hops r n b c) : Hops r (n + 1) a c

theorem Hops.of_reflTransGen {a b : α} (h : ReflTransGen r a b) : ∃ n, Hops r n a b := by
  induction h using ReflTransGen.head_induction_on with
  | refl => exact ⟨0, .zero b⟩
  | head hstep _ ih =>
    obtain ⟨n, hn⟩ := ih
    exact ⟨n + 1, .step hstep hn⟩

/-- Steps of one length lead to one node. -/
theorem Hops.unique (hr : ∀ a b c, r a b → r a c → b = c) {n : ℕ} {a b c : α}
    (hb : Hops r n a b) (hc : Hops r n a c) : b = c := by
  induction hb with
  | zero a => cases hc; rfl
  | step h _ ih =>
    cases hc with
    | step h' hc =>
      cases hr _ _ _ h h'
      exact ih hc

/-- No path is longer than one that ends where nothing follows. -/
theorem Hops.le_of_end (hr : ∀ a b c, r a b → r a c → b = c) {n k : ℕ} {a b c : α}
    (hb : Hops r n a b) (hend : ∀ d, ¬ r b d) (hc : Hops r k a c) : k ≤ n := by
  induction hb generalizing k with
  | zero a =>
    cases hc with
    | zero => exact Nat.le_refl 0
    | step h _ => exact absurd h (hend _)
  | step h _ ih =>
    cases hc with
    | zero => exact Nat.zero_le _
    | step h' hc =>
      cases hr _ _ _ h h'
      exact Nat.succ_le_succ (ih hend hc)

end EtasFrontend.Lib
