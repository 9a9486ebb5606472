import EtasFrontend.Analysis.Interpreter
import Mathlib.Order.Bounds.Basic
import Mathlib.Order.Fin.Basic

/-! The loops of the interpreter against the unrollings of a loop. A body is a function of its entry
state and of the iterations left in the budget of the traversal, of which nested bounded loops use
some. -/
namespace EtasFrontend.Analysis

/-! The order of the exits: the order of a join. -/

section
variable {D : Type} [AbstractDomain D]

/-- A missing state is below every other. -/
def SlotLe (a b : Option D) : Prop := joinSlot a b = b

theorem SlotLe.refl (a : Option D) : SlotLe a a := joinSlot_idem a

theorem SlotLe.trans {a b c : Option D} (h : SlotLe a b) (h' : SlotLe b c) : SlotLe a c := by
  unfold SlotLe at h h' ⊢
  rw [← h', ← joinSlot_assoc, h]

theorem SlotLe.left (a b : Option D) : SlotLe a (joinSlot a b) := by
  rw [SlotLe, ← joinSlot_assoc, joinSlot_idem]

theorem SlotLe.right (a b : Option D) : SlotLe b (joinSlot a b) := by
  rw [joinSlot_comm]
  exact SlotLe.left b a

theorem SlotLe.join {a b c : Option D} (h : SlotLe a c) (h' : SlotLe b c) :
    SlotLe (joinSlot a b) c := by
  unfold SlotLe at h h' ⊢
  rw [joinSlot_assoc, h', h]

theorem slotLe_some {a b : D} : SlotLe (some a) (some b) ↔ a ≤ b := by
  rw [SlotLe, joinSlot, Option.some.injEq, sup_eq_right]

theorem SlotLe.none (a : Option D) : SlotLe none a := by cases a <;> rfl

theorem SlotLe.exists_some {a : D} {b : Option D} (h : SlotLe (some a) b) :
    ∃ b', b = some b' ∧ a ≤ b' := by
  cases b with
  | none => cases h
  | some b' => exact ⟨b', rfl, slotLe_some.mp h⟩

namespace Control

instance : Max (Control D) := ⟨join⟩

instance : SemilatticeSup (Control D) := SemilatticeSup.mk' join_comm join_assoc join_idem

theorem sup_eq_join (a b : Control D) : a ⊔ b = a.join b := rfl

theorem le_iff {a b : Control D} : a ≤ b ↔ SlotLe a.normalState b.normalState ∧
    SlotLe a.returnState b.returnState ∧ SlotLe a.breakState b.breakState ∧
    SlotLe a.continueState b.continueState ∧ SlotLe a.resumeState b.resumeState ∧
    SlotLe a.finishState b.finishState ∧ SlotLe a.errorState b.errorState := by
  rw [← sup_eq_right, sup_eq_join, Control.ext_iff]
  rfl

theorem bottom_le (a : Control D) : bottom ≤ a := by
  rw [← sup_eq_right]
  exact bottom_join a

theorem normal_le {state : D} {a : Control D} :
    normal state ≤ a ↔ SlotLe (some state) a.normalState := by
  rw [le_iff]
  simp [normal, bottom, SlotLe.none]

theorem normal_mono {s t : D} (h : s ≤ t) : normal s ≤ normal t :=
  normal_le.mpr (slotLe_some.mpr h)

end Control

/-- Where an iteration goes back to the head. -/
def nextHead (body : Control D) : Option D := joinSlot body.normalState body.continueState

/-- The exits of an iteration from its loop; a break goes to the normal exit. -/
def loopExits (onBreak : D → D) (body : Control D) : Control D :=
  { body with
    normalState := body.breakState.map onBreak
    breakState := none
    continueState := none }

/-- The control of `n` iterations of a loop. -/
def unroll (f : D → Control D) (onBreak : D → D) : ℕ → D → Control D
  | 0, state => Control.normal state
  | n + 1, state => loopExits onBreak (f state) ⊔
      (nextHead (f state)).elim Control.bottom (unroll f onBreak n)

/-- The control of `n` iterations with a budget. Each takes one from it, and its body what it
uses. -/
def unrollWithin (f : D → ℕ → Control D × ℕ) (onBreak : D → D) : ℕ → D → ℕ → Control D
  | 0, state, _ => Control.normal state
  | n + 1, state, remaining => loopExits onBreak (f state (remaining - 1)).1 ⊔
      (nextHead (f state (remaining - 1)).1).elim Control.bottom fun next =>
        unrollWithin f onBreak n next (f state (remaining - 1)).2

/-- The state at the head after `n` iterations with a budget, and what is left of it. -/
def headWithin (f : D → ℕ → Control D × ℕ) : ℕ → D → ℕ → Option (D × ℕ)
  | 0, state, remaining => some (state, remaining)
  | _ + 1, _, 0 => none
  | n + 1, state, remaining + 1 => (nextHead (f state remaining).1).bind fun next =>
      headWithin f n next (f state remaining).2

/-- An iteration is left in the budget at each of the first `n` heads. -/
def Lasts (f : D → ℕ → Control D × ℕ) (n : ℕ) (state : D) (remaining : ℕ) : Prop :=
  ∀ k < n, ∀ head left, headWithin f k state remaining = some (head, left) → 0 < left

/-- The control of `n` iterations of a `while`, and a last test of its condition. -/
def unrollWhile (condition f : D → Control D) : ℕ → D → Control D
  | 0, state => condition state
  | n + 1, state => (condition state).withoutNormal ⊔
      (condition state).normalState.elim Control.bottom fun tested => loopExits id (f tested) ⊔
        (nextHead (f tested)).elim Control.bottom (unrollWhile condition f n)

theorem joinExits_eq (result body : Control D) (onBreak : D → D) :
    (result.joinNormal (body.breakState.map onBreak)).joinExits body =
      result ⊔ loopExits onBreak body := rfl

theorem joinExits_eq_id (result body : Control D) :
    (result.joinNormal body.breakState).joinExits body = result ⊔ loopExits id body := by
  rw [← joinExits_eq, Option.map_id, id]

theorem joinNormal_some (result : Control D) (state : D) :
    result.joinNormal (some state) = result ⊔ Control.normal state := rfl

variable {a b : Control D}

theorem loopExits_le {onBreak onBreak' : D → D} (h : ∀ s t, s ≤ t → onBreak s ≤ onBreak' t)
    (hab : a ≤ b) : loopExits onBreak a ≤ loopExits onBreak' b := by
  obtain ⟨-, hreturn, hbroken, -, hresume, hfinish, herror⟩ := Control.le_iff.mp hab
  refine Control.le_iff.mpr ⟨?_, hreturn, SlotLe.refl _, SlotLe.refl _, hresume, hfinish, herror⟩
  cases hslot : a.breakState with
  | none => simp [loopExits, hslot, SlotLe.none]
  | some s =>
    rw [hslot] at hbroken
    obtain ⟨t, ht, hst⟩ := hbroken.exists_some
    simp only [loopExits, hslot, ht, Option.map_some]
    exact slotLe_some.mpr (h s t hst)

theorem loopExits_mono {onBreak : D → D} (hbreak : ∀ s, onBreak s ≤ s)
    (h : a ≤ b) : loopExits onBreak a ≤ loopExits id b :=
  loopExits_le (fun s _ hst => (hbreak s).trans hst) h

theorem nextHead_mono (h : a ≤ b) : SlotLe (nextHead a) (nextHead b) := by
  obtain ⟨hnormal, -, -, hcontinue, -⟩ := Control.le_iff.mp h
  exact (hnormal.trans (SlotLe.left _ _)).join (hcontinue.trans (SlotLe.right _ _))

theorem joinState_mono {s t : D} {a b : Option D} (hst : s ≤ t) (hab : SlotLe a b) :
    joinState s a ≤ joinState t b := by
  cases a with
  | none =>
    cases b with
    | none => exact hst
    | some b => exact hst.trans le_sup_left
  | some a =>
    obtain ⟨b', rfl, hle⟩ := hab.exists_some
    exact sup_le_sup hst hle

theorem backEdge_mono (h : a ≤ b) : backEdge a ≤ backEdge b := by
  obtain ⟨hnormal, -, -, hcontinue, -⟩ := Control.le_iff.mp h
  exact joinState_mono (joinState_mono le_rfl hnormal) hcontinue

theorem slotLe_joinState (s : D) (a : Option D) : SlotLe a (some (joinState s a)) := by
  cases a with
  | none => rfl
  | some a => exact slotLe_some.mpr le_sup_right

theorem le_joinState (s : D) (a : Option D) : s ≤ joinState s a := by
  cases a with
  | none => exact le_rfl
  | some a => exact le_sup_left

theorem nextHead_le_backEdge (body : Control D) : SlotLe (nextHead body) (some (backEdge body)) := by
  apply SlotLe.join
  · exact (slotLe_joinState _ _).trans (slotLe_some.mpr (le_joinState _ _))
  · exact slotLe_joinState _ _

theorem nextHead_le {next fixed : D} (h : a ≤ b) (hnext : nextHead a = some next)
    (hedge : backEdge b ≤ fixed) : next ≤ fixed := by
  have hslot := (nextHead_mono h).trans (nextHead_le_backEdge b)
  rw [hnext, slotLe_some] at hslot
  exact hslot.trans hedge

theorem rest_le {rest : D → Control D} {out : Control D}
    (h : ∀ next, nextHead a = some next → rest next ≤ out) :
    (nextHead a).elim Control.bottom rest ≤ out := by
  cases hnext : nextHead a with
  | none => exact Control.bottom_le out
  | some next => exact h next hnext

/-- One more iteration, where its body is below `b`. -/
theorem unroll_succ_le {f : D → Control D} {onBreak : D → D} (hmono : Monotone onBreak) {s : D}
    {n : ℕ} {out : Control D} (hf : f s ≤ b) (hexits : loopExits onBreak b ≤ out)
    (hrest : ∀ next, nextHead b = some next → ∀ head ≤ next, unroll f onBreak n head ≤ out) :
    unroll f onBreak (n + 1) s ≤ out := by
  apply sup_le ((loopExits_le (fun s t hst => hmono hst) hf).trans hexits)
  refine rest_le fun head hhead => ?_
  have hslot := nextHead_mono hf
  rw [hhead] at hslot
  obtain ⟨next, hnext, hle⟩ := hslot.exists_some
  exact hrest next hnext head hle

/-! A settled head is above every unrolling. -/

/-- The result of a loop whose head is `fixed`. -/
def loopResult (f : D → Control D) (fixed : D) : Control D :=
  Control.normal fixed ⊔ loopExits id (f fixed)

section
variable {f : D → Control D} {onBreak : D → D} (hf : Monotone f) (hbreak : ∀ s, onBreak s ≤ s)
include hf hbreak

theorem unroll_le_loopResult {fixed : D} (hfixed : backEdge (f fixed) ≤ fixed) (n : ℕ) {state : D}
    (h : state ≤ fixed) : unroll f onBreak n state ≤ loopResult f fixed := by
  induction n generalizing state with
  | zero =>
    apply le_sup_of_le_left
    exact Control.normal_le.mpr (slotLe_some.mpr h)
  | succ n ih =>
    apply sup_le
    · exact le_sup_of_le_right (loopExits_mono hbreak (hf h))
    · exact rest_le fun next hnext => ih (nextHead_le (hf h) hnext hfixed)

end

theorem unrollWhile_le {condition f : D → Control D} (hcondition : Monotone condition)
    (hf : Monotone f) {fixed : D} {result : Control D} (hlast : condition fixed ≤ result)
    (hbody : ∀ tested, (condition fixed).normalState = some tested →
      loopExits id (f tested) ≤ result ∧ backEdge (f tested) ≤ fixed) (n : ℕ) {state : D}
    (h : state ≤ fixed) : unrollWhile condition f n state ≤ result := by
  induction n generalizing state with
  | zero => exact (hcondition h).trans hlast
  | succ n ih =>
    have hcond := (hcondition h).trans hlast
    apply sup_le
    · obtain ⟨-, hrest⟩ := Control.le_iff.mp hcond
      exact Control.le_iff.mpr ⟨SlotLe.none _, hrest⟩
    · cases htested : (condition state).normalState with
      | none => exact Control.bottom_le _
      | some tested =>
        have hslot := (Control.le_iff.mp (hcondition h)).1
        rw [htested] at hslot
        obtain ⟨last, hnormal, hle⟩ := hslot.exists_some
        obtain ⟨hexits, hedge⟩ := hbody last hnormal
        apply sup_le
        · exact (loopExits_mono (fun s => le_rfl) (hf hle)).trans hexits
        · exact rest_le fun next hnext => ih (nextHead_le (hf hle) hnext hedge)

/-! The join of the unrollings up to a number of iterations. -/

def walk (f : D → ℕ → Control D × ℕ) (onBreak : D → D) : ℕ → D → ℕ → Control D
  | 0, state, _ => Control.normal state
  | n + 1, state, remaining => Control.normal state ⊔
      loopExits onBreak (f state (remaining - 1)).1 ⊔
      (nextHead (f state (remaining - 1)).1).elim Control.bottom fun next =>
        walk f onBreak n next (f state (remaining - 1)).2

theorem normal_le_walk (f : D → ℕ → Control D × ℕ) (onBreak : D → D) (n : ℕ) (state : D)
    (remaining : ℕ) : Control.normal state ≤ walk f onBreak n state remaining := by
  cases n with
  | zero => exact le_rfl
  | succ n => exact le_sup_left.trans le_sup_left

theorem isLUB_walk (f : D → ℕ → Control D × ℕ) (onBreak : D → D) (n : ℕ) (state : D)
    (remaining : ℕ) : IsLUB {c | ∃ k ≤ n, c = unrollWithin f onBreak k state remaining}
      (walk f onBreak n state remaining) := by
  induction n generalizing state remaining with
  | zero =>
    constructor
    · rintro c ⟨k, hk, rfl⟩
      cases Nat.le_zero.mp hk
      exact le_rfl
    · intro c hc
      exact hc ⟨0, le_rfl, rfl⟩
  | succ n ih =>
    constructor
    · rintro c ⟨k, hk, rfl⟩
      cases k with
      | zero => exact normal_le_walk f onBreak (n + 1) state remaining
      | succ k =>
        apply sup_le
        · exact le_sup_right.trans le_sup_left
        · apply le_sup_of_le_right
          cases hnext : nextHead (f state (remaining - 1)).1 with
          | none => exact le_rfl
          | some next => exact (ih next _).1 ⟨k, Nat.le_of_succ_le_succ hk, rfl⟩
    · intro c hc
      have hunroll : ∀ k ≤ n + 1, unrollWithin f onBreak k state remaining ≤ c :=
        fun k hk => hc ⟨k, hk, rfl⟩
      apply sup_le
      · apply sup_le
        · exact hunroll 0 (Nat.zero_le _)
        · exact le_sup_left.trans (hunroll 1 (by omega))
      · refine rest_le fun next hnext => (ih next _).2 ?_
        rintro c' ⟨k, hk, rfl⟩
        have hsucc := hunroll (k + 1) (by omega)
        rw [unrollWithin, hnext] at hsucc
        exact le_sup_right.trans hsucc

/-- What a run of `f` from below `fixed`, with any budget, stays below. -/
structure Bounds (f : D → ℕ → Control D × ℕ) (fixed : D) (whole : Control D) : Prop where
  normal : Control.normal fixed ≤ whole
  exits : ∀ state ≤ fixed, ∀ remaining, loopExits id (f state remaining).1 ≤ whole
  edge : ∀ state ≤ fixed, ∀ remaining, backEdge (f state remaining).1 ≤ fixed

end

section
variable {m : Type → Type} [Monad m] {D : Type}

/-- What is promised of an engine: it repeats its step, and has converged where the step reports no
change. -/
def FixpointEngine.Repeats (engine : FixpointEngine m D) : Prop :=
  ∀ (step : D → ℕ → (D × Bool) × ℕ) (initial value : D) (remaining left : ℕ),
    (engine.trySolve initial fun state => (fun remaining => pure (step state remaining))).run
      remaining = pure ((value, .converged), left) →
    ∃ k last r, (fun p => ((step p.1 p.2).1.1, (step p.1 p.2).2))^[k] (initial, remaining) =
      (last, r) ∧ step last r = ((value, false), left)

/-- A body, or a condition, as the traversal runs it. -/
def budgeted (f : D → ℕ → Control D × ℕ) (state : D) : Traversal m (Control D) :=
  fun remaining => pure (f state remaining)

@[simp]
theorem run_budgeted (f : D → ℕ → Control D × ℕ) (state : D) (remaining : ℕ) :
    (budgeted f state : Traversal m (Control D)).run remaining = pure (f state remaining) := rfl

variable [AbstractDomain D]

/-- The step of a loop: its head is joined with its back edge, if there is one. -/
def stepWith (edge : D → ℕ → Option D × ℕ) (state : D) (remaining : ℕ) : (D × Bool) × ℕ :=
  match edge state remaining with
  | (none, left) => ((state, false), left)
  | (some back, left) => ((state ⊔ back, AbstractDomain.joinChanges state back), left)

theorem le_stepWith (edge : D → ℕ → Option D × ℕ) (state : D) (remaining : ℕ) :
    state ≤ (stepWith edge state remaining).1.1 := by
  unfold stepWith
  split
  · exact le_rfl
  · exact le_sup_left

variable {edge : D → ℕ → Option D × ℕ}

theorem stepWith_le {bound state : D} {remaining : ℕ}
    (hbound : ∀ back, (edge state remaining).1 = some back → back ≤ bound) (h : state ≤ bound) :
    (stepWith edge state remaining).1.1 ≤ bound := by
  unfold stepWith
  split
  · exact h
  · next heq => exact sup_le h (hbound _ (congrArg Prod.fst heq))

theorem stepWith_left (edge : D → ℕ → Option D × ℕ) (state : D) (remaining : ℕ) :
    (stepWith edge state remaining).2 = (edge state remaining).2 := by
  unfold stepWith
  split <;> next heq => rw [heq]

/-- Where the step reports no change, the back edge is below the head. -/
theorem stepWith_settled (hchanges : ∀ a b : D, AbstractDomain.joinChanges a b = false → a ⊔ b = a)
    {state value : D} {remaining left : ℕ}
    (h : stepWith edge state remaining = ((value, false), left)) :
    value = state ∧ ∀ back, (edge state remaining).1 = some back → back ≤ state := by
  unfold stepWith at h
  split at h
  next heq =>
    cases h
    refine ⟨rfl, fun back hback => ?_⟩
    rw [heq] at hback
    cases hback
  next found _ heq =>
    obtain ⟨hpair, -⟩ := Prod.mk.inj h
    obtain ⟨hvalue, hflag⟩ := Prod.mk.inj hpair
    have hsame := hchanges state found hflag
    refine ⟨hvalue ▸ hsame, fun back hback => ?_⟩
    rw [heq] at hback
    cases hback
    exact sup_eq_left.mp hsame

/-- A converged head is settled, and the least above its start. -/
theorem FixpointEngine.Repeats.settled {engine : FixpointEngine m D} (hengine : engine.Repeats)
    (hchanges : ∀ a b : D, AbstractDomain.joinChanges a b = false → a ⊔ b = a) {initial value : D}
    {remaining left : ℕ}
    (h : (engine.trySolve initial fun state =>
      (fun remaining => pure (stepWith edge state remaining))).run remaining =
        pure ((value, .converged), left)) :
    initial ≤ value ∧
      (∃ r, (∀ back, (edge value r).1 = some back → back ≤ value) ∧
        ((∀ state r, (edge state r).2 ≤ r) → r ≤ remaining ∧ left ≤ remaining)) ∧
      ∀ bound, initial ≤ bound →
        (∀ state ≤ bound, ∀ r back, (edge state r).1 = some back → back ≤ bound) →
          value ≤ bound := by
  obtain ⟨k, last, r, hlast, hstep⟩ := hengine _ initial value remaining left h
  obtain ⟨rfl, hsettled⟩ := stepWith_settled hchanges hstep
  have keeps (p : D × ℕ → Prop) (hstart : p (initial, remaining))
      (hp : ∀ s r, p (s, r) → p ((stepWith edge s r).1.1, (stepWith edge s r).2)) :
      p (value, r) := by
    have hlastp := Function.Iterate.rec p hstart (fun a ha => hp a.1 a.2 ha) k
    rwa [hlast] at hlastp
  refine ⟨?_, ⟨r, hsettled, fun hleft => ?_⟩, fun bound hinitial hbound => ?_⟩
  · exact keeps (initial ≤ ·.1) le_rfl fun s r hs => hs.trans (le_stepWith edge s r)
  · have hstepLeft (s : D) (r : ℕ) : (stepWith edge s r).2 ≤ r := by
      rw [stepWith_left]
      exact hleft s r
    have hr : r ≤ remaining := keeps (·.2 ≤ remaining) le_rfl fun s r hs => (hstepLeft s r).trans hs
    have hlast := hstepLeft value r
    rw [hstep] at hlast
    exact ⟨hr, hlast.trans hr⟩
  · exact keeps (·.1 ≤ bound) hinitial fun s r hs => stepWith_le (hbound s hs r) hs

/-! The loops of the interpreter. -/

open Control (le_iff normal_mono bottom_le normal_le)

namespace HirAbstractInterpreter
variable [LawfulMonad m] (self : HirAbstractInterpreter m D)

omit [LawfulMonad m] in
/-- The engine converges on the loop of `f` from a state. -/
def LoopConverges (f : D → ℕ → Control D × ℕ) (initial : D) (remaining : ℕ) : Prop :=
  ∃ value left, (self.engine.trySolve initial (loopStep (budgeted f))).run remaining =
    pure ((value, .converged), left)

/-- The engine converges on the `while` of `condition` and `f` from a state. -/
def WhileConverges (condition f : D → ℕ → Control D × ℕ) (initial : D) (remaining : ℕ) : Prop :=
  ∃ value left, (self.engine.trySolve initial
    (whileStep (budgeted condition) (budgeted f))).run remaining = pure ((value, .converged), left)

theorem loopStep_budgeted (f : D → ℕ → Control D × ℕ) :
    (loopStep (budgeted f) : D → Traversal m (D × Bool)) = fun state => (fun remaining =>
      pure (stepWith (fun state r => (some (backEdge (f state r).1), (f state r).2))
        state remaining)) := by
  funext state remaining
  change (loopStep (budgeted f) state).run remaining = _
  simp [loopStep, stepWith]

theorem whileStep_budgeted (condition f : D → ℕ → Control D × ℕ) :
    (whileStep (budgeted condition) (budgeted f) : D → Traversal m (D × Bool)) = fun state =>
      (fun remaining => pure (stepWith (fun state r =>
        match (condition state r).1.normalState with
        | none => (none, (condition state r).2)
        | some tested => (some (backEdge (f tested (condition state r).2).1),
            (f tested (condition state r).2).2)) state remaining)) := by
  funext state remaining
  change (whileStep (budgeted condition) (budgeted f) state).run remaining = _
  cases h : (condition state remaining).1.normalState <;> simp [whileStep, stepWith, h]

variable (hengine : self.engine.Repeats)
  (hchanges : ∀ a b : D, AbstractDomain.joinChanges a b = false → a ⊔ b = a)

include hengine hchanges in
/-- What a converged loop returns. -/
theorem loopBlockControl_converged
    {f : D → ℕ → Control D × ℕ} (body : HirBlockId) {initial : D} {remaining : ℕ}
    (h : self.LoopConverges f initial remaining) :
    ∃ fixed r left left', (self.loopBlockControl (budgeted f) body initial).run remaining =
        pure (Control.normal fixed ⊔ loopExits id (f fixed left).1, left') ∧
      initial ≤ fixed ∧ backEdge (f fixed r).1 ≤ fixed ∧
      ((∀ state r, (f state r).2 ≤ r) → r ≤ remaining ∧ left ≤ remaining) ∧
      ∀ bound, initial ≤ bound → (∀ state ≤ bound, ∀ r, backEdge (f state r).1 ≤ bound) →
        fixed ≤ bound := by
  obtain ⟨fixed, left, hsolve⟩ := h
  have hsettled := hsolve
  rw [loopStep_budgeted] at hsettled
  obtain ⟨hinitial, ⟨r, hfixed, hr⟩, hleast⟩ := hengine.settled hchanges hsettled
  refine ⟨fixed, r, left, (f fixed left).2, ?_, hinitial, hfixed _ rfl, hr,
    fun bound hb hbound => hleast bound hb ?_⟩
  · simp [loopBlockControl, hsolve, fixedState, joinExits_eq_id]
  · rintro state hstate r back ⟨⟩
    exact hbound state hstate r

variable {condition f : D → ℕ → Control D × ℕ}

include hengine hchanges in
theorem whileLoopControl_above {test g : D → Control D} (htest : Monotone test)
    (hg : Monotone g) (hcondition : ∀ state r, test state ≤ (condition state r).1)
    (hf : ∀ state r, g state ≤ (f state r).1) (body : HirBlockId) {initial : D} {remaining : ℕ}
    (h : self.WhileConverges condition f initial (condition initial remaining).2) :
    ∃ result left, (self.whileLoopControl (budgeted condition) (budgeted f) body initial).run
        remaining = pure (result, left) ∧ ∀ n, unrollWhile test g n initial ≤ result := by
  obtain ⟨fixed, left, hsolve⟩ := h
  have hsettled := hsolve
  rw [whileStep_budgeted] at hsettled
  obtain ⟨hinitial, ⟨r, hfixed, -⟩, -⟩ := hengine.settled hchanges hsettled
  -- the transfer's test at the fixed head is below both tests that are made there
  have hstep : ∀ tested, (test fixed).normalState = some tested → backEdge (g tested) ≤ fixed := by
    intro tested htested
    have hslot := (le_iff.mp (hcondition fixed r)).1
    rw [htested] at hslot
    obtain ⟨found, hfound, hle⟩ := hslot.exists_some
    have hedge := hfixed (backEdge (f found (condition fixed r).2).1) (by simp [hfound])
    exact (backEdge_mono ((hg hle).trans (hf found _))).trans hedge
  have hlast : test fixed ≤ (condition initial remaining).1.join (condition fixed left).1 :=
    le_sup_of_le_right (hcondition fixed left)
  cases htested : ((condition initial remaining).1.join (condition fixed left).1).normalState with
  | none =>
    refine ⟨(condition initial remaining).1.join (condition fixed left).1, (condition fixed left).2,
      ?_, fun n => ?_⟩
    · simp [whileLoopControl, hsolve, fixedState, htested]
    · refine unrollWhile_le htest hg hlast (fun tested h => ?_) n hinitial
      have hslot := (le_iff.mp hlast).1
      rw [h, htested] at hslot
      cases hslot
  | some tested =>
    refine ⟨(condition initial remaining).1.join (condition fixed left).1 ⊔
      loopExits id (f tested (condition fixed left).2).1, (f tested (condition fixed left).2).2,
      ?_, fun n => ?_⟩
    · simp [whileLoopControl, hsolve, fixedState, htested, joinExits_eq_id]
    · refine unrollWhile_le htest hg (hlast.trans le_sup_left) (fun other h => ?_) n hinitial
      have hslot := (le_iff.mp hlast).1
      rw [h, htested, slotLe_some] at hslot
      have hexits := loopExits_mono (fun s => le_rfl) ((hg hslot).trans (hf tested
        (condition fixed left).2))
      exact ⟨hexits.trans le_sup_right, hstep other h⟩

omit [LawfulMonad m] in
theorem boundedForLoop_none (block : D → Traversal m (Control D)) (stmt : HirStmtId)
    (body : HirBlockId) (n : ℕ) (result : Control D) :
    self.boundedForLoop block stmt body n result none = pure (result, true) := by
  cases n <;> rfl

section
variable {stmt : HirStmtId} {onBreak : D → D}
  (hhook : ∀ state, self.semantics.boundedForBreak stmt state = pure (onBreak state))
include hhook

/-- One iteration, while there are iterations left in the budget. -/
theorem boundedForLoop_succ (f : D → ℕ → Control D × ℕ) (body : HirBlockId) (n : ℕ)
    (result : Control D) (state : D) (remaining : ℕ) :
    (self.boundedForLoop (budgeted f) stmt body (n + 1) result (some state)).run
        (remaining + 1) =
      (self.boundedForLoop (budgeted f) stmt body n
        ((result ⊔ loopExits onBreak (f state remaining).1).joinNormal
          (nextHead (f state remaining).1))
        (nextHead (f state remaining).1)).run (f state remaining).2 := by
  have hmap : ((f state remaining).1.breakState.mapM fun state =>
      self.semantics.boundedForBreak stmt state : Traversal m (Option D)) =
      pure ((f state remaining).1.breakState.map onBreak) := by
    cases (f state remaining).1.breakState with
    | none => rfl
    | some s =>
      change some <$> (liftM (self.semantics.boundedForBreak stmt s) : Traversal m D) = _
      rw [hhook, liftM_pure, map_pure]
      rfl
  rw [boundedForLoop]
  simp [hmap, joinExits_eq, nextHead]

/-- While the budget lasts, a bounded loop adds what it has to walk. -/
theorem boundedForLoop_eq (f : D → ℕ → Control D × ℕ) (body : HirBlockId) (n : ℕ)
    {result : Control D} {state : D} (hresult : Control.normal state ≤ result) {remaining : ℕ}
    (h : Lasts f n state remaining) :
    ∃ left, (self.boundedForLoop (budgeted f) stmt body n result (some state)).run remaining =
      pure ((result ⊔ walk f onBreak n state remaining, true), left) := by
  induction n generalizing result state remaining with
  | zero =>
    refine ⟨remaining, ?_⟩
    rw [boundedForLoop, walk, sup_eq_left.mpr hresult]
    rfl
  | succ n ih =>
    have hleft : 0 < remaining := h 0 n.succ_pos state remaining rfl
    obtain ⟨remaining, rfl⟩ := Nat.exists_eq_add_of_le' hleft
    rw [self.boundedForLoop_succ hhook, walk, Nat.add_sub_cancel]
    cases hnext : nextHead (f state remaining).1 with
    | none =>
      refine ⟨(f state remaining).2, ?_⟩
      rw [boundedForLoop_none, Option.elim_none, ← sup_assoc, ← sup_assoc, sup_eq_left.mpr hresult]
      simp [Control.joinNormal, joinSlot, sup_eq_left.mpr (bottom_le _)]
    | some next =>
      rw [joinNormal_some]
      have hnormal : Control.normal next ≤ result ⊔ loopExits onBreak (f state remaining).1 ⊔
        Control.normal next := le_sup_right
      have hlasts : Lasts f n next (f state remaining).2 := fun k hk head left hhead =>
        h (k + 1) (Nat.succ_lt_succ hk) head left (by rw [headWithin, hnext]; exact hhead)
      obtain ⟨left, hrun⟩ := ih hnormal hlasts
      refine ⟨left, hrun.trans ?_⟩
      have hwalk := normal_le_walk f onBreak n next (f state remaining).2
      rw [sup_assoc, sup_eq_right.mpr hwalk, Option.elim_some, ← sup_assoc, ← sup_assoc,
        sup_eq_left.mpr hresult]

include hengine hchanges in
/-- With any budget a bounded loop is above the unrollings of what its body is above, and below
what bounds the runs of its body. -/
theorem boundedForLoop_between {f : D → ℕ → Control D × ℕ} {g : D → Control D} (hg : Monotone g)
    (hf : ∀ state r, g state ≤ (f state r).1) (hmono : Monotone onBreak)
    (hbreak : ∀ s, onBreak s ≤ s) (body : HirBlockId) (n : ℕ) {result : Control D} {state : D}
    (hresult : Control.normal state ≤ result) (remaining : ℕ)
    (hconverges : ∀ k head, headWithin f k state remaining = some (head, 0) →
      self.LoopConverges f head 0) :
    ∃ out complete left, (self.boundedForLoop (budgeted f) stmt body n result (some state)).run
        remaining = pure ((out, complete), left) ∧ result ≤ out ∧
      (∀ s ≤ state, ∀ k ≤ n, unroll g onBreak k s ≤ out) ∧
      ∀ fixed whole, Bounds f fixed whole → state ≤ fixed → out ≤ result ⊔ whole := by
  induction n generalizing result state remaining with
  | zero =>
    refine ⟨result, true, remaining, rfl, le_rfl, fun s hs k hk => ?_, fun _ _ _ _ => le_sup_left⟩
    cases Nat.le_zero.mp hk
    exact (normal_mono hs).trans hresult
  | succ n ih =>
    cases remaining with
    | zero =>
      -- the rest is the whole loop from here, with no iteration left
      obtain ⟨rest, r, left, left', hrest, hinitial, hsettled, -, hleast⟩ :=
        self.loopBlockControl_converged hengine hchanges body (hconverges 0 state rfl)
      refine ⟨result ⊔ (Control.normal rest ⊔ loopExits id (f rest left).1), false, left', ?_,
        le_sup_left, fun s hs k _ => ?_, fun fixed whole hbounds hstate => ?_⟩
      · rw [boundedForLoop]
        simp [hrest]
        rfl
      · have hedge : backEdge (g rest) ≤ rest := (backEdge_mono (hf rest r)).trans hsettled
        have hunroll := unroll_le_loopResult hg hbreak hedge k (hs.trans hinitial)
        have hexits := loopExits_mono (fun s => le_rfl) (hf rest left)
        exact (hunroll.trans (sup_le_sup_left hexits _)).trans le_sup_right
      · have hrest : rest ≤ fixed := hleast fixed hstate hbounds.edge
        apply sup_le_sup_left
        exact sup_le ((normal_mono hrest).trans hbounds.normal)
          (hbounds.exits rest hrest left)
    | succ remaining =>
      have hbelow (s : D) (hs : s ≤ state) : g s ≤ (f state remaining).1 :=
        (hg hs).trans (hf state remaining)
      have hupper {fixed : D} {whole : Control D} (hbounds : Bounds f fixed whole)
          (hstate : state ≤ fixed) : loopExits onBreak (f state remaining).1 ≤ whole :=
        (loopExits_mono hbreak le_rfl).trans (hbounds.exits state hstate remaining)
      rw [self.boundedForLoop_succ hhook]
      cases hnext : nextHead (f state remaining).1 with
      | none =>
        refine ⟨result ⊔ loopExits onBreak (f state remaining).1, true, (f state remaining).2, ?_,
          le_sup_left, fun s hs k hk => ?_, fun fixed whole hbounds hstate => ?_⟩
        · rw [boundedForLoop_none]
          rfl
        · cases k with
          | zero => exact (normal_mono hs).trans (hresult.trans le_sup_left)
          | succ k =>
            apply unroll_succ_le hmono (hbelow s hs) le_sup_right
            rw [hnext]
            exact nofun
        · exact sup_le_sup_left (hupper hbounds hstate) result
      | some next =>
        rw [joinNormal_some]
        obtain ⟨out, complete, left, hrun, hresult', hlower, hupper'⟩ := ih
          (le_sup_right : _ ≤ result ⊔ loopExits onBreak (f state remaining).1 ⊔
            Control.normal next) (f state remaining).2
          (fun k head h => hconverges (k + 1) head (by rw [headWithin, hnext]; exact h))
        have hout := le_sup_left.trans hresult'
        refine ⟨out, complete, left, hrun, le_sup_left.trans hout, fun s hs k hk => ?_,
          fun fixed whole hbounds hstate => ?_⟩
        · cases k with
          | zero => exact (normal_mono hs).trans (hresult.trans (le_sup_left.trans hout))
          | succ k =>
            apply unroll_succ_le hmono (hbelow s hs) (le_sup_right.trans hout)
            intro next' hnext' head hhead
            cases hnext.symm.trans hnext'
            exact hlower head hhead k (Nat.le_of_succ_le_succ hk)
        · have hedge := nextHead_le le_rfl hnext (hbounds.edge state hstate remaining)
          apply (hupper' fixed whole hbounds hedge).trans
          apply sup_le _ le_sup_right
          apply sup_le (sup_le_sup_left (hupper hbounds hstate) result)
          exact le_sup_of_le_right ((normal_mono hedge).trans hbounds.normal)

end

include hengine hchanges in
/-- The loops against their unrollings. The body, and the condition of a `while`, may use up the
budget of the traversal; `g` and `test` are monotone transfers that they are above with whatever is
left. A converged loop, or `while`, is above every unrolling of them. A bounded `for`, with the hook
for breaks, is the join of the unrollings of its own body up to its bound while the budget lasts.
Whatever the budget, if the hook is monotone and adds nothing, it is above the unrollings of the
transfer, and below the whole loop with a budget with which the body returns no less than with any
other. -/
theorem loops_above_unrollings {test g : D → Control D} (htest : Monotone test)
    (hg : Monotone g) (hcondition : ∀ state r, test state ≤ (condition state r).1)
    (hf : ∀ state r, g state ≤ (f state r).1) {stmt : HirStmtId} {onBreak : D → D}
    (hhook : ∀ state, self.semantics.boundedForBreak stmt state = pure (onBreak state))
    (body : HirBlockId) (initial : D) (remaining : ℕ) :
    (self.LoopConverges f initial remaining → ∃ result left,
      (self.loopBlockControl (budgeted f) body initial).run remaining = pure (result, left) ∧
        ∀ n, unroll g id n initial ≤ result) ∧
    (self.WhileConverges condition f initial (condition initial remaining).2 → ∃ result left,
      (self.whileLoopControl (budgeted condition) (budgeted f) body initial).run remaining =
        pure (result, left) ∧ ∀ n, unrollWhile test g n initial ≤ result) ∧
    (∀ n, Lasts f n initial remaining → ∃ result left,
      (self.boundedForControl (budgeted f) stmt body initial n).run remaining =
        pure ((result, true), left) ∧
      IsLUB {c | ∃ k ≤ n, c = unrollWithin f onBreak k initial remaining} result) ∧
    (Monotone onBreak → (∀ state, onBreak state ≤ state) →
      (∀ k head, headWithin f k initial remaining = some (head, 0) →
        self.LoopConverges f head 0) →
      ∀ n, ∃ result complete left,
        (self.boundedForControl (budgeted f) stmt body initial n).run remaining =
          pure ((result, complete), left) ∧
        (∀ k ≤ n, unroll g onBreak k initial ≤ result) ∧
        ∀ budget, (∀ s t r r', s ≤ t → r' ≤ budget → (f s r).1 ≤ (f t r').1) →
          (∀ state r, (f state r).2 ≤ r) → self.LoopConverges f initial budget →
          ∃ whole left', (self.loopBlockControl (budgeted f) body initial).run budget =
            pure (whole, left') ∧ result ≤ whole) := by
  refine ⟨?_, ?_, ?_, ?_⟩
  · intro h
    obtain ⟨fixed, r, left, left', hrun, hinitial, hfixed, -⟩ :=
      self.loopBlockControl_converged hengine hchanges body h
    refine ⟨_, left', hrun, fun n => ?_⟩
    have hedge : backEdge (g fixed) ≤ fixed := (backEdge_mono (hf fixed r)).trans hfixed
    have hunroll : unroll g id n initial ≤ loopResult g fixed :=
      unroll_le_loopResult hg (fun s => le_rfl) hedge n hinitial
    exact hunroll.trans (sup_le_sup_left (loopExits_mono (fun s => le_rfl) (hf fixed left)) _)
  · exact self.whileLoopControl_above hengine hchanges htest hg hcondition hf body
  · intro n h
    obtain ⟨left, hrun⟩ := self.boundedForLoop_eq hhook f body n le_rfl h
    rw [sup_eq_right.mpr (normal_le_walk f onBreak n initial remaining)] at hrun
    exact ⟨_, left, hrun, isLUB_walk f onBreak n initial remaining⟩
  · intro hmono hbreak hconverges n
    obtain ⟨out, complete, left, hrun, -, hlower, hupper⟩ := self.boundedForLoop_between
      hengine hchanges hhook hg hf hmono hbreak body n le_rfl remaining hconverges
    refine ⟨out, complete, left, hrun, hlower initial le_rfl, fun budget hleast hleft h => ?_⟩
    obtain ⟨fixed, r, last, left', hwhole, hinitial, hfixed, hr, -⟩ :=
      self.loopBlockControl_converged hengine hchanges body h
    obtain ⟨hr, hlast⟩ := hr hleft
    have hbounds : Bounds f fixed (Control.normal fixed ⊔ loopExits id (f fixed last).1) := by
      refine ⟨le_sup_left, fun s hs r' => ?_, fun s hs r' => ?_⟩
      · have hexits := loopExits_mono (fun s => le_rfl) (hleast s fixed r' last hs hlast)
        exact le_sup_of_le_right hexits
      · exact (backEdge_mono (hleast s fixed r' r hs hr)).trans hfixed
    refine ⟨_, left', hwhole, (hupper fixed _ hbounds hinitial).trans ?_⟩
    exact sup_le ((normal_mono hinitial).trans le_sup_left) le_rfl

end HirAbstractInterpreter
end

/-! A counter up to two, and a loop that counts in a loop. -/

theorem withLimit_repeats (D : Type) (limit : ℕ) :
    (FixpointEngine.withLimit limit : FixpointEngine Id D).Repeats := by
  intro step initial value remaining left h
  change FixpointEngine.solveLoop _ limit initial remaining = _ at h
  induction limit generalizing initial remaining with
  | zero => cases h
  | succ limit ih =>
    change (if (step initial remaining).1.2 = true then FixpointEngine.solveLoop
      (fun state => (fun r => pure (step state r))) limit (step initial remaining).1.1
      else pure ((step initial remaining).1.1, .converged)) (step initial remaining).2 = _ at h
    split_ifs at h with hchanged
    · obtain ⟨k, last, r, hlast, hstep⟩ := ih _ _ h
      exact ⟨k + 1, last, r, hlast, hstep⟩
    · cases h
      refine ⟨0, initial, remaining, rfl, ?_⟩
      rw [← Bool.eq_false_iff.mpr hchanged]

instance : AbstractDomain (Fin 3) where
  bottom := 0
  joinChanges a b := decide (a < b)

def countUp : Fin 3 → Control (Fin 3)
  | 0 => Control.normal 1
  | 1 => Control.normal 2
  | 2 => Control.normal 2

theorem le_of_join {a b : Control (Fin 3)} (h : a.join b = b) : a ≤ b := sup_eq_right.mp h

theorem countUp_monotone : Monotone countUp := by
  intro a b h
  apply le_of_join
  revert a b
  decide

def leafProgram : HirProgram where
  exprs := fun _ => .literal
  stmts := fun _ => .break
  blocks := fun _ => ⟨[], none⟩
  handlerArms := fun _ => ⟨0⟩
  acyclic := ⟨fun _ => 0, fun node child h => by cases node <;> cases h⟩
  elseIf := nofun

def countInterpreter : HirAbstractInterpreter Id (Fin 3) :=
  ⟨leafProgram, HirAnalysisSemantics.idle, FixpointEngine.withLimit 100⟩

/-- A body that is itself a loop, bounded by one iteration. -/
def nestedCount (state : Fin 3) (remaining : ℕ) : Control (Fin 3) × ℕ :=
  let inner := (countInterpreter.boundedForControl (budgeted fun state r => (countUp state, r)) 1 1
    state 1).run remaining
  (inner.1.1, inner.2)

/-- A test that always succeeds. -/
def alwaysTest (state : Fin 3) (remaining : ℕ) : Control (Fin 3) × ℕ :=
  (Control.normal state, remaining)

theorem normal_le_alwaysTest (state : Fin 3) (remaining : ℕ) :
    Control.normal state ≤ (alwaysTest state remaining).1 := le_rfl

theorem nestedCount_zero (state : Fin 3) : nestedCount state 0 = (Control.normal 2, 0) := by
  revert state
  decide

theorem nestedCount_succ (state : Fin 3) (remaining : ℕ) :
    nestedCount state (remaining + 1) = (countUp state, remaining) := by
  match state with
  | 0 => rfl
  | 1 => rfl
  | 2 => rfl

theorem countUp_le_nestedCount (state : Fin 3) (remaining : ℕ) :
    countUp state ≤ (nestedCount state remaining).1 := by
  cases remaining with
  | zero =>
    apply le_of_join
    rw [nestedCount_zero]
    revert state
    decide
  | succ remaining => rw [nestedCount_succ]

theorem nestedCount_le (s t : Fin 3) (r r' : ℕ) (hr : r' ≤ 0) :
    (nestedCount s r).1 ≤ (nestedCount t r').1 := by
  cases Nat.le_zero.mp hr
  rw [nestedCount_zero]
  cases r with
  | zero => rw [nestedCount_zero]
  | succ r =>
    rw [nestedCount_succ]
    apply le_of_join
    change (countUp s).join (Control.normal 2) = Control.normal 2
    revert s
    decide

theorem nestedCount_left (state : Fin 3) (remaining : ℕ) :
    (nestedCount state remaining).2 ≤ remaining := by
  cases remaining with
  | zero => rw [nestedCount_zero]
  | succ remaining =>
    rw [nestedCount_succ]
    exact Nat.le_succ remaining

namespace HirAbstractInterpreter

theorem nestedCount_converges (head : Fin 3) : countInterpreter.LoopConverges nestedCount head 0 :=
  match head with
  | 0 => ⟨2, 0, rfl⟩
  | 1 => ⟨2, 0, rfl⟩
  | 2 => ⟨2, 0, rfl⟩

theorem nestedCount_lasts : Lasts nestedCount 2 0 3 := by
  intro k hk head left hhead
  match k with
  | 0 =>
    cases hhead
    decide
  | 1 =>
    cases hhead
    decide

/-- A loop in a loop: with a budget of three two outer iterations are walked, the second with none
left for the inner loop; with two the engine takes over after one. -/
theorem loops_above_unrollings_count :
    (∃ result left, (countInterpreter.loopBlockControl (budgeted nestedCount) 0 0).run 3 =
      pure (result, left) ∧ ∀ n, unroll countUp id n 0 ≤ result) ∧
    (∃ result left, (countInterpreter.whileLoopControl
        (budgeted alwaysTest) (budgeted nestedCount) 0 0).run 3 =
      pure (result, left) ∧ ∀ n, unrollWhile Control.normal countUp n 0 ≤ result) ∧
    (∃ result left, (countInterpreter.boundedForControl (budgeted nestedCount) 0 0 0 2).run 3 =
        pure ((result, true), left) ∧
      IsLUB {c | ∃ k ≤ 2, c = unrollWithin nestedCount id k 0 3} result) ∧
    ∃ result complete left whole left',
      (countInterpreter.boundedForControl (budgeted nestedCount) 0 0 0 2).run 2 =
        pure ((result, complete), left) ∧ (∀ k ≤ 2, unroll countUp id k 0 ≤ result) ∧
      (countInterpreter.loopBlockControl (budgeted nestedCount) 0 0).run 0 = pure (whole, left') ∧
      result ≤ whole := by
  have hchanges : ∀ a b : Fin 3, AbstractDomain.joinChanges a b = false → a ⊔ b = a := by decide
  have hhook : ∀ state, countInterpreter.semantics.boundedForBreak 0 state = pure (id state) :=
    fun state => rfl
  have hnormal : Monotone (Control.normal : Fin 3 → Control (Fin 3)) :=
    fun s t h => Control.normal_mono h
  have h := countInterpreter.loops_above_unrollings (withLimit_repeats _ _) hchanges hnormal
    countUp_monotone normal_le_alwaysTest countUp_le_nestedCount hhook 0 0
  refine ⟨(h 3).1 ⟨2, 0, rfl⟩, (h 3).2.1 ⟨2, 0, rfl⟩, (h 3).2.2.1 2 nestedCount_lasts, ?_⟩
  obtain ⟨result, complete, left, hrun, hlower, hupper⟩ := (h 2).2.2.2 monotone_id
    (fun state => le_rfl) (fun k head _ => nestedCount_converges head) 2
  obtain ⟨whole, left', hwhole, hle⟩ := hupper 0 (fun s t r r' _ hr => nestedCount_le s t r r' hr)
    nestedCount_left (nestedCount_converges 0)
  exact ⟨result, complete, left, whole, left', hrun, hlower, hwhole, hle⟩

/-- The counting loop in a loop, and then a reset below two. -/
def nestedReset (state : Fin 3) (remaining : ℕ) : Control (Fin 3) × ℕ :=
  match nestedCount state remaining with
  | (control, left) => ({ control with normalState := control.normalState.map fun state =>
      if state = 2 then 2 else 0 }, left)

theorem nestedReset_monotone (remaining : ℕ) :
    Monotone fun state => (nestedReset state remaining).1 := by
  intro s t h
  apply le_of_join
  cases remaining with
  | zero =>
    simp only [nestedReset, nestedCount_zero]
    rfl
  | succ remaining =>
    simp only [nestedReset, nestedCount_succ]
    revert s t
    decide

/-- With no iteration left in the budget, a loop bounded by one iteration returns more than the
join of the unrollings up to one; and with one left that its body misses, it returns more than the
whole loop. -/
theorem boundedForControl_not_isLUB :
    (∃ result left, (countInterpreter.boundedForControl
        (budgeted fun state r => (countUp state, r)) 0 0 0 1).run 0 =
          pure ((result, false), left) ∧
      countInterpreter.LoopConverges (fun state r => (countUp state, r)) 0 0 ∧
      ¬ IsLUB {c | ∃ k ≤ 1, c = unroll countUp id k 0} result) ∧
    ∃ result whole left left', (countInterpreter.boundedForControl (budgeted nestedReset) 0 0 0
        1).run 1 = pure ((result, true), left) ∧
      (∀ r, Monotone fun state => (nestedReset state r).1) ∧
      countInterpreter.LoopConverges nestedReset 0 1 ∧
      (countInterpreter.loopBlockControl (budgeted nestedReset) 0 0).run 1 =
        pure (whole, left') ∧ ¬ result ≤ whole := by
  refine ⟨⟨Control.normal 2, 0, rfl, ⟨2, 0, rfl⟩, fun h => ?_⟩,
    Control.normal 2, Control.normal 0, 0, 0, rfl, nestedReset_monotone,
    ⟨0, 0, rfl⟩, rfl, fun h => ?_⟩
  · have hupper : Control.normal 1 ∈ upperBounds {c | ∃ k ≤ 1, c = unroll countUp id k 0} := by
      rintro c ⟨k, hk, rfl⟩
      apply le_of_join
      rcases Nat.le_one_iff_eq_zero_or_eq_one.mp hk with rfl | rfl <;> rfl
    have hle := Control.normal_le.mp (h.2 hupper)
    exact absurd (slotLe_some.mp hle) (by decide)
  · exact absurd (slotLe_some.mp (Control.normal_le.mp h)) (by decide)

end HirAbstractInterpreter
end EtasFrontend.Analysis
