import Mathlib.Data.List.Nodup

/-! Computations over variable cells, above any monad: the variables hold values, and what a scope
has bound is put back when the scope ends. -/
namespace EtasFrontend.Lib
variable {κ V α : Type} [DecidableEq κ] {n : Type → Type} [Monad n]

def read (x : κ) : StateT (κ → V) n V := fun σ => pure (σ x, σ)

def write (x : κ) (v : V) : StateT (κ → V) n Unit := fun σ => pure ((), Function.update σ x v)

/-- A value that depends on the cells alone. -/
def value (f : (κ → V) → α) : StateT (κ → V) n α := fun σ => pure (f σ, σ)

/-- A change of the cells. -/
def change (f : (κ → V) → κ → V) : StateT (κ → V) n Unit := fun σ => pure ((), f σ)

/-- The old values of the given cells, the new ones of the others. -/
def restore (xs : List κ) (old new : κ → V) (x : κ) : V := if x ∈ xs then old x else new x

/-- A scope that binds the given cells. -/
def inScope (xs : List κ) (m : StateT (κ → V) n α) : StateT (κ → V) n α := fun σ => do
  let (a, τ) ← m σ
  pure (a, restore xs σ τ)

section Laws
omit [DecidableEq κ]

theorem read_eq_value (x : κ) : (read x : StateT (κ → V) n V) = value fun σ => σ x := rfl

theorem write_eq_change [DecidableEq κ] (x : κ) (v : V) :
    (write x v : StateT (κ → V) n Unit) = change fun σ => Function.update σ x v := rfl

variable [LawfulMonad n] {β : Type}

theorem value_bind (f : (κ → V) → α) (k : α → StateT (κ → V) n β) :
    (value f >>= k) = fun σ => k (f σ) σ := by
  funext σ
  exact pure_bind (f σ, σ) fun p => k p.1 p.2

theorem change_bind (f : (κ → V) → κ → V) (k : Unit → StateT (κ → V) n β) :
    (change f >>= k) = fun σ => k () (f σ) := by
  funext σ
  exact pure_bind ((), f σ) fun p => k p.1 p.2

theorem change_bind_change (f g : (κ → V) → κ → V) :
    (change f >>= fun _ => change g : StateT (κ → V) n Unit) = change fun σ => g (f σ) := by
  rw [change_bind]
  rfl

theorem forM_change {ι : Type} (l : List ι) (f : ι → (κ → V) → κ → V) :
    (l.forM fun i => change (f i) : StateT (κ → V) n Unit) =
      change fun σ => l.foldl (fun σ i => f i σ) σ := by
  induction l with
  | nil => rfl
  | cons i l ih =>
    change (change (f i) >>= fun _ => l.forM fun i => change (f i)) = _
    rw [ih, change_bind_change]
    rfl

theorem inScope_change [DecidableEq κ] (xs : List κ) (f : (κ → V) → κ → V) :
    (inScope xs (change f) : StateT (κ → V) n Unit) = change fun σ => restore xs σ (f σ) := by
  funext σ
  exact pure_bind ((), f σ) fun p => pure (p.1, restore xs σ p.2)

end Laws

/-! Accumulators: cells that take up each element of a list in turn. -/

/-- Every accumulator takes up the element. -/
def accumulate (accs : List (κ × (V → V → V))) (v : V) (σ : κ → V) : κ → V :=
  accs.foldl (fun σ a => Function.update σ a.1 (a.2 (σ a.1) v)) σ

/-- The accumulators after the whole list. -/
def scan (accs : List (κ × (V → V → V))) (vs : List V) (σ : κ → V) : κ → V :=
  vs.foldl (fun σ v => accumulate accs v σ) σ

variable {accs accs' : List (κ × (V → V → V))} {x : κ} {σ : κ → V}

@[simp] theorem accumulate_cons (a : κ × (V → V → V)) (v : V) (σ : κ → V) :
    accumulate (a :: accs) v σ =
      accumulate accs v (Function.update σ a.1 (a.2 (σ a.1) v)) := rfl

@[simp] theorem scan_cons (v : V) (vs : List V) (σ : κ → V) :
    scan accs (v :: vs) σ = scan accs vs (accumulate accs v σ) := rfl

theorem accumulate_append (accs accs' : List (κ × (V → V → V))) (v : V) (σ : κ → V) :
    accumulate (accs ++ accs') v σ = accumulate accs' v (accumulate accs v σ) := List.foldl_append

/-- A cell that is no accumulator is neither read nor changed. -/
theorem accumulate_update (hx : ∀ a ∈ accs, a.1 ≠ x) (v w : V) (σ : κ → V) :
    accumulate accs v (Function.update σ x w) = Function.update (accumulate accs v σ) x w := by
  induction accs generalizing σ with
  | nil => rfl
  | cons a accs ih =>
    have hne : a.1 ≠ x := hx a List.mem_cons_self
    have hstep : Function.update (Function.update σ x w) a.1
          (a.2 (Function.update σ x w a.1) v) =
        Function.update (Function.update σ a.1 (a.2 (σ a.1) v)) x w := by
      rw [Function.update_of_ne hne, Function.update_comm hne.symm]
    rw [accumulate_cons, accumulate_cons, hstep, ih fun b hb => hx b (List.mem_cons_of_mem _ hb)]

theorem accumulate_apply (hx : ∀ a ∈ accs, a.1 ≠ x) (v : V) (σ : κ → V) :
    accumulate accs v σ x = σ x := by
  have h := congrFun (accumulate_update hx v (σ x) σ) x
  rwa [Function.update_eq_self, Function.update_self] at h

theorem scan_apply (hx : ∀ a ∈ accs, a.1 ≠ x) (vs : List V) (σ : κ → V) :
    scan accs vs σ x = σ x := by
  induction vs generalizing σ with
  | nil => rfl
  | cons v vs ih => exact (ih _).trans (accumulate_apply hx v σ)

section
variable (h : ∀ a ∈ accs, ∀ b ∈ accs', a.1 ≠ b.1)
include h

theorem accumulate_comm (v w : V) (σ : κ → V) :
    accumulate accs v (accumulate accs' w σ) = accumulate accs' w (accumulate accs v σ) := by
  induction accs' generalizing σ with
  | nil => rfl
  | cons b accs' ih =>
    have hb : ∀ a ∈ accs, a.1 ≠ b.1 := fun a ha => h a ha b List.mem_cons_self
    have hrest : ∀ a ∈ accs, ∀ c ∈ accs', a.1 ≠ c.1 :=
      fun a ha c hc => h a ha c (List.mem_cons_of_mem _ hc)
    rw [accumulate_cons, ih hrest, accumulate_update hb, accumulate_cons, accumulate_apply hb]

theorem scan_accumulate_comm (vs : List V) (w : V)
    (σ : κ → V) : scan accs vs (accumulate accs' w σ) = accumulate accs' w (scan accs vs σ) := by
  induction vs generalizing σ with
  | nil => rfl
  | cons v vs ih =>
    rw [scan_cons, scan_cons, accumulate_comm h, ih]

/-- Two scans of one list for different accumulators are one scan for all of them. -/
theorem scan_append (vs : List V) (σ : κ → V) :
    scan (accs ++ accs') vs σ = scan accs' vs (scan accs vs σ) := by
  induction vs generalizing σ with
  | nil => rfl
  | cons v vs ih =>
    rw [scan_cons, scan_cons, scan_cons, accumulate_append, ih, scan_accumulate_comm h]

end

/-- A loop that hands the elements over in a cell of its own. -/
theorem restore_foldl (hx : ∀ a ∈ accs, a.1 ≠ x) (vs : List V) (σ : κ → V) :
    restore [x] σ (vs.foldl (fun σ v => accumulate accs v (Function.update σ x v)) σ) =
      scan accs vs σ := by
  have hloop (w : V) (τ : κ → V) : ∃ w',
      vs.foldl (fun σ v => accumulate accs v (Function.update σ x v)) (Function.update τ x w) =
        Function.update (scan accs vs τ) x w' := by
    induction vs generalizing w τ with
    | nil => exact ⟨w, rfl⟩
    | cons v vs ih =>
      obtain ⟨w', h⟩ := ih v (accumulate accs v τ)
      refine ⟨w', ?_⟩
      rw [List.foldl_cons, Function.update_idem, accumulate_update hx]
      exact h
  obtain ⟨w', h⟩ := hloop (σ x) σ
  rw [Function.update_eq_self] at h
  rw [h]
  funext y
  by_cases hy : y = x
  · rw [hy, restore, if_pos (List.mem_singleton_self x), scan_apply hx]
  · rw [restore, if_neg (by simpa using hy), Function.update_of_ne hy]

/-- One accumulator. -/
theorem scan_single (t : κ) (f : V → V → V) (vs : List V) (σ : κ → V) :
    scan [(t, f)] vs σ = Function.update σ t (vs.foldl f (σ t)) := by
  induction vs generalizing σ with
  | nil => exact (Function.update_eq_self t σ).symm
  | cons v vs ih =>
    rw [scan_cons, ih]
    change Function.update (Function.update σ t (f (σ t) v)) t _ = _
    rw [Function.update_idem, List.foldl_cons]
    congr 2
    exact Function.update_self t _ σ

end EtasFrontend.Lib
