import EtasFrontend.Analysis.Interprocedural
import EtasFrontend.Analysis.InterpreterCorrect

/-! A traversal of the summary pass next to one of the pass that collects calls: whatever the first
reads of the summaries, the second has noted as a call. -/
namespace EtasFrontend.Analysis
open Lib

namespace Control
variable {D : Type}

/-- Where control goes on after the one, it goes on after the other. -/
structure Within (control other : Control D) : Prop where
  normal : control.normalState.isSome → other.normalState.isSome
  breaks : control.breakState.isSome → other.breakState.isSome
  continues : control.continueState.isSome → other.continueState.isSome

theorem Within.refl (control : Control D) : control.Within control := ⟨id, id, id⟩

theorem Within.trans {a b c : Control D} (h : a.Within b) (h' : b.Within c) : a.Within c :=
  ⟨h'.normal ∘ h.normal, h'.breaks ∘ h.breaks, h'.continues ∘ h.continues⟩

theorem within_normal (state state' : D) : (normal state).Within (normal state') :=
  ⟨fun _ => rfl, nofun, nofun⟩

theorem within_breaking (state state' : D) : (breaking state).Within (breaking state') :=
  ⟨nofun, fun _ => rfl, nofun⟩

theorem within_continuing (state state' : D) : (continuing state).Within (continuing state') :=
  ⟨nofun, nofun, fun _ => rfl⟩

theorem within_of_left {control : Control D} (hnormal : control.normalState = none)
    (hbreak : control.breakState = none) (hcontinue : control.continueState = none)
    (other : Control D) : control.Within other := by
  constructor
  · rw [hnormal]
    exact nofun
  · rw [hbreak]
    exact nofun
  · rw [hcontinue]
    exact nofun

theorem bottom_within (control : Control D) : bottom.Within control :=
  within_of_left rfl rfl rfl control

variable [AbstractDomain D]

theorem isSome_joinSlot (a b : Option D) : (joinSlot a b).isSome ↔ a.isSome ∨ b.isSome := by
  cases a <;> cases b <;> simp [joinSlot]

theorem Within.join {a a' b b' : Control D} (h : a.Within b) (h' : a'.Within b') :
    (a.join a').Within (b.join b') := by
  constructor
  · dsimp only [Control.join]
    rw [isSome_joinSlot, isSome_joinSlot]
    exact Or.imp h.normal h'.normal
  · dsimp only [Control.join]
    rw [isSome_joinSlot, isSome_joinSlot]
    exact Or.imp h.breaks h'.breaks
  · dsimp only [Control.join]
    rw [isSome_joinSlot, isSome_joinSlot]
    exact Or.imp h.continues h'.continues

theorem within_join_left (a b : Control D) : a.Within (a.join b) := by
  have h := (Within.refl a).join (bottom_within b)
  rwa [join_bottom] at h

omit [AbstractDomain D] in
theorem Within.withoutNormal {a b : Control D} (h : a.Within b) :
    a.withoutNormal.Within b.withoutNormal :=
  ⟨nofun, h.breaks, h.continues⟩

omit [AbstractDomain D] in
theorem mapStates_pure {m : Type → Type} [Monad m] [LawfulMonad m] (f : D → D)
    (control : Control D) : control.mapStates (fun state => (pure (f state) : m D)) =
      pure ⟨control.normalState.map f, control.returnState.map f, control.breakState.map f,
        control.continueState.map f, control.resumeState.map f, control.finishState.map f,
        control.errorState.map f⟩ := by
  have hslot : ∀ slot : Option D, slot.mapM (fun state => (pure (f state) : m D)) =
      pure (slot.map f) := by
    intro slot
    cases slot with
    | none => rfl
    | some state => exact map_pure _ _
  unfold mapStates
  simp only [hslot, pure_bind]

end Control

variable {U D S : Type} [LinearOrder U] {α β : Type}

/-- The value, the iterations that are left, and the graph. -/
def collected (run : Traversal (CollectM U) α) (remaining : ℕ) (graph : CallGraph U) :
    (α × ℕ) × CallGraph U :=
  run remaining graph

/-- The value and the iterations that are left, and the diagnostics. -/
def applied (run : Traversal (SummaryM U S) α) (remaining : ℕ) (summaries : SummaryStore U S)
    (diagnostics : List (InterproceduralDiagnostic U)) :
    (α × ℕ) × List (InterproceduralDiagnostic U) :=
  run remaining summaries diagnostics

/-- What a traversal returns depends on the summaries of these units only. -/
def ReadsOnly (units : List U) (run : Traversal (SummaryM U S) α) : Prop :=
  ∀ remaining summaries summaries' diagnostics diagnostics',
    (∀ unit ∈ units, summaries.get unit = summaries'.get unit) →
    (applied run remaining summaries diagnostics).1 =
      (applied run remaining summaries' diagnostics').1

variable {run : Traversal (SummaryM U S) α}

theorem ReadsOnly.mono {units units' : List U}
    (h : ReadsOnly units run) (hsub : ∀ unit ∈ units, unit ∈ units') : ReadsOnly units' run :=
  fun remaining summaries summaries' diagnostics diagnostics' hget =>
    h remaining summaries summaries' diagnostics diagnostics' fun unit hu =>
      hget unit (hsub unit hu)

theorem readsOnly_pure (units : List U) (value : α) :
    ReadsOnly units (pure value : Traversal (SummaryM U S) α) :=
  fun _ _ _ _ _ _ => rfl

variable {units : List U} {next : α → Traversal (SummaryM U S) β}

theorem ReadsOnly.bind_of (h : ReadsOnly units run) (hnext : ∀ remaining summaries diagnostics,
      ReadsOnly units (next (applied run remaining summaries diagnostics).1.1)) :
    ReadsOnly units (run >>= next) := by
  intro remaining summaries summaries' diagnostics diagnostics' hget
  change (applied (next (applied run remaining summaries diagnostics).1.1)
      (applied run remaining summaries diagnostics).1.2 summaries _).1 =
    (applied (next (applied run remaining summaries' diagnostics').1.1)
      (applied run remaining summaries' diagnostics').1.2 summaries' _).1
  rw [← h remaining summaries summaries' diagnostics diagnostics' hget]
  exact hnext remaining summaries diagnostics _ _ _ _ _ hget

theorem ReadsOnly.bind (h : ReadsOnly units run)
    (hnext : ∀ value, ReadsOnly units (next value)) : ReadsOnly units (run >>= next) :=
  h.bind_of fun _ _ _ => hnext _

theorem ReadsOnly.solveLoop {step : D → Traversal (SummaryM U S) (D × Bool)}
    (h : ∀ state, ReadsOnly units (step state)) (limit : ℕ) (state : D) :
    ReadsOnly units (FixpointEngine.solveLoop step limit state) := by
  induction limit generalizing state with
  | zero => exact readsOnly_pure units _
  | succ limit ih =>
    apply (h state).bind
    intro outcome
    dsimp only
    split
    · exact ih outcome.1
    · exact readsOnly_pure units _

/-! The pass that collects only adds to the graph. -/

def Grows (run : Traversal (CollectM U) α) : Prop :=
  ∀ remaining graph, CallGraph.Le graph (collected run remaining graph).2

theorem grows_pure (value : α) : Grows (pure value : Traversal (CollectM U) α) :=
  fun _ graph => CallGraph.Le.refl graph

theorem Grows.bind {run : Traversal (CollectM U) α} {next : α → Traversal (CollectM U) β}
    (h : Grows run) (hnext : ∀ value, Grows (next value)) : Grows (run >>= next) := by
  intro remaining graph
  have hfirst := h remaining graph
  exact hfirst.trans (hnext (collected run remaining graph).1.1
    (collected run remaining graph).1.2 (collected run remaining graph).2)

theorem Grows.solveLoop {step : D → Traversal (CollectM U) (D × Bool)}
    (h : ∀ state, Grows (step state)) (limit : ℕ) (state : D) :
    Grows (FixpointEngine.solveLoop step limit state) := by
  induction limit generalizing state with
  | zero => exact grows_pure _
  | succ limit ih =>
    apply (h state).bind
    intro outcome
    dsimp only
    split
    · exact ih outcome.1
    · exact grows_pure _

variable (unit : U)

/-- The calls that the one traversal has noted for the unit are all that the other reads, and the
values of the two are related, from any states on both sides. -/
def Covered (related : α → β → Prop) (left : Traversal (CollectM U) α)
    (right : Traversal (SummaryM U S) β) : Prop :=
  ∀ remaining graph, graph.Le (collected left remaining graph).2 ∧
    ReadsOnly ((collected left remaining graph).2.dependencies unit) right ∧
    ∀ remaining' summaries diagnostics, related (collected left remaining graph).1.1
      (applied right remaining' summaries diagnostics).1.1

variable {unit} {related : α → β → Prop} {left : Traversal (CollectM U) α}
  {right : Traversal (SummaryM U S) β}

theorem Covered.grows (h : Covered unit related left right) : Grows left :=
  fun remaining graph => (h remaining graph).1

theorem Covered.mono {related' : α → β → Prop} (h : Covered unit related left right)
    (himp : ∀ a b, related a b → related' a b) : Covered unit related' left right :=
  fun remaining graph =>
    ⟨(h remaining graph).1, (h remaining graph).2.1,
      fun remaining' summaries diagnostics =>
        himp _ _ ((h remaining graph).2.2 remaining' summaries diagnostics)⟩

theorem covered_pure {a : α} {b : β} (h : related a b) :
    Covered unit related (pure a) (pure b : Traversal (SummaryM U S) β) :=
  fun _ graph => ⟨CallGraph.Le.refl graph, readsOnly_pure _ b, fun _ _ _ => h⟩

theorem Covered.bind {γ δ : Type} {related' : γ → δ → Prop} {next : α → Traversal (CollectM U) γ}
    {next' : β → Traversal (SummaryM U S) δ} (h : Covered unit related left right)
    (hnext : ∀ a b, related a b → Covered unit related' (next a) (next' b)) :
    Covered unit related' (left >>= next) (right >>= next') := by
  intro remaining graph
  obtain ⟨hle, hreads, hvalues⟩ := h remaining graph
  have hafter : ∀ remaining' summaries diagnostics, _ := fun remaining' summaries diagnostics =>
    hnext _ _ (hvalues remaining' summaries diagnostics) (collected left remaining graph).1.2
      (collected left remaining graph).2
  have hgrow := (hafter 0 ∅ []).1
  refine ⟨hle.trans hgrow, ?_, ?_⟩
  · apply (hreads.mono (hgrow.2 unit)).bind_of
    intro remaining' summaries diagnostics
    exact (hafter remaining' summaries diagnostics).2.1
  · intro remaining' summaries diagnostics
    exact (hafter remaining' summaries diagnostics).2.2 _ summaries _

theorem Covered.after {γ : Type} {first : Traversal (CollectM U) γ}
    {next : γ → Traversal (CollectM U) α} (hfirst : Grows first)
    (h : ∀ value, Covered unit related (next value) right) :
    Covered unit related (first >>= next) right := by
  intro remaining graph
  have hgrow := hfirst remaining graph
  have hnext := h (collected first remaining graph).1.1 (collected first remaining graph).1.2
    (collected first remaining graph).2
  exact ⟨hgrow.trans hnext.1, hnext.2⟩

theorem covered_right_pure {b : β} (hgrows : Grows left)
    (h : ∀ remaining graph, related (collected left remaining graph).1.1 b) :
    Covered unit related left (pure b : Traversal (SummaryM U S) β) :=
  fun remaining graph => ⟨hgrows remaining graph, readsOnly_pure _ b, fun _ _ _ => h remaining graph⟩

end EtasFrontend.Analysis
