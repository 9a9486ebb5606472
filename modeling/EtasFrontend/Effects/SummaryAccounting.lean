import EtasFrontend.Effects.SummaryJoin

/-! The escaping row is kept twice, flat and by cause. Every sequence of operations keeps the two
in step, and handling an effect removes it from both. -/
namespace EtasFrontend.Effects
open Lib

variable {D : SummaryData}

theorem openVar_foldl_unionAssign (row : EffectRow) (rows : List EffectRow) :
    (rows.foldl (fun row r => (row.unionAssign r).1) row).openVar =
      (row :: rows).findSome? EffectRow.openVar := by
  induction rows generalizing row with
  | nil => cases h : row.openVar <;> simp [h]
  | cons r rows ih =>
    rw [List.foldl_cons, ih, List.findSome?_cons, EffectRow.unionAssign_openVar]
    cases h : row.openVar with
    | none => simp [h, List.findSome?_cons]
    | some v => simp [h]

theorem DefaultHandlerEffects.openVar_escaping (effects : DefaultHandlerEffects) :
    effects.escaping.openVar = effects.rows.findSome? EffectRow.openVar := by
  rw [DefaultHandlerEffects.rows, ← openVar_foldl_unionAssign, List.foldl_map]
  rfl

namespace EffectSummary

/-- What the operations on summaries build: joins, sequencing, direct effects, effects of default
handlers and handling. What happens to the other fields in between is left free. -/
inductive Composed : EffectSummary D → Prop
  | start {s : EffectSummary D} (h : s.defaultHandlerEffects = none) : Composed s
  | rest {s s' : EffectSummary D} (h : Composed s)
      (hd : s'.defaultHandlerEffects = s.defaultHandlerEffects)
      (he : s'.escapingEffects = s.escapingEffects) : Composed s'
  | joinBranch {s s' : EffectSummary D} (h : Composed s) (h' : Composed s') :
      Composed (s.joinBranch s').1
  | joinSummary {s s' : EffectSummary D} (h : Composed s) (h' : Composed s') :
      Composed (s.joinAssign s').1
  | seqAssign {s s' : EffectSummary D} (h : Composed s) (h' : Composed s') :
      Composed (s.seqAssign s').1
  | recordEscapingEffectRow {s : EffectSummary D} (h : Composed s) (row : EffectRow) :
      Composed (s.recordEscapingEffectRow row)
  | recordDefaultHandlerEffects {s s' : EffectSummary D} {action : Effect} {produced : EffectRow}
      (h : Composed s) (hr : s.recordDefaultHandlerEffects action produced = .ok s') : Composed s'
  | subtractHandledEffects {s : EffectSummary D} (h : Composed s) (coverage : EffectCoverage)
      (handled : EffectRow) : Composed (s.subtractHandledEffects coverage handled)

/-- The flat row is the union of the rows kept by cause. -/
def InStep (s : EffectSummary D) : Prop :=
  ∀ effects, s.defaultHandlerEffects = some effects → s.escapingEffects = effects.escaping

theorem inStep_of_none {s : EffectSummary D} (h : s.defaultHandlerEffects = none) : s.InStep := by
  intro effects he
  rw [h] at he
  cases he

theorem inStep_refresh (s : EffectSummary D) : s.refreshEscapingEffects.InStep := by
  intro effects he
  unfold refreshEscapingEffects at he ⊢
  split at he
  · next effects' hd =>
    rw [hd] at he
    cases he
    rfl
  · next hd =>
    rw [hd] at he
    cases he

theorem inStep_joinEscapingEffects {s s' : EffectSummary D} :
    (s.joinEscapingEffects s').1.InStep := by
  unfold joinEscapingEffects
  split
  · next hn =>
    exact inStep_of_none (by simpa using (Bool.and_eq_true_iff.1 hn).1)
  · exact inStep_refresh _

theorem Composed.inStep {s : EffectSummary D} (h : Composed s) : s.InStep := by
  induction h with
  | start h => exact inStep_of_none h
  | rest _ hd he ih =>
    intro effects heq
    rw [he]
    exact ih effects (hd ▸ heq)
  | @joinBranch s s' _ _ _ _ => exact @inStep_joinEscapingEffects D s s'
  | @joinSummary s s' _ _ ih ih' =>
    unfold joinAssign
    split_ifs
    · exact ih'
    · exact ih
    · exact @inStep_joinEscapingEffects D s s'
  | @seqAssign s s' _ _ _ _ => exact @inStep_joinEscapingEffects D s s'
  | recordEscapingEffectRow _ row ih =>
    unfold EffectSummary.recordEscapingEffectRow
    split
    · exact inStep_refresh _
    · next hd => exact inStep_of_none hd
  | recordDefaultHandlerEffects _ hr ih =>
    unfold EffectSummary.recordDefaultHandlerEffects at hr
    split at hr
    · cases hr
    · cases hr
      exact inStep_refresh _
  | subtractHandledEffects _ coverage handled ih =>
    unfold EffectSummary.subtractHandledEffects
    dsimp only
    split
    · split
      · exact inStep_of_none rfl
      · exact inStep_refresh _
    · next hd => exact inStep_of_none hd

end EffectSummary

section Handling
variable (coverage : EffectCoverage) (handled : EffectRow)

/-- The handled row covers the effect. -/
def EffectCoverage.Handles (effect : Effect) : Prop :=
  ∃ candidate ∈ handled.effects, coverage.covers candidate effect = true

theorem mem_subtractHandled {row : EffectRow} {effect : Effect} :
    effect ∈ (coverage.subtractHandled row handled).effects ↔
      effect ∈ row.effects ∧ ¬ coverage.Handles handled effect := by
  simp [EffectCoverage.subtractHandled, EffectCoverage.Handles]

theorem subtractHandled_idem (row : EffectRow) :
    coverage.subtractHandled (coverage.subtractHandled row handled) handled =
      coverage.subtractHandled row handled := by
  simp [EffectCoverage.subtractHandled, Finset.filter_filter]

namespace DefaultHandlerEffects

/-- Handling, cause by cause: a cause whose action is handled goes with all it produces. -/
def subtractHandled (effects : DefaultHandlerEffects) : DefaultHandlerEffects where
  direct := coverage.subtractHandled effects.direct handled
  handlers := (effects.handlers.filter fun handler =>
    !(coverage.subtractHandled (.closed {handler.action}) handled).isEmpty).map fun handler =>
      { handler with produced := coverage.subtractHandled handler.produced handled }

theorem subtractHandled_subtractHandled (effects : DefaultHandlerEffects) :
    (effects.subtractHandled coverage handled).subtractHandled coverage handled =
      effects.subtractHandled coverage handled := by
  simp only [subtractHandled, subtractHandled_idem, List.filter_map, List.map_map,
    Function.comp_def, List.filter_filter, Bool.and_self]

theorem mem_escaping {effects : DefaultHandlerEffects} {e : Effect} :
    e ∈ effects.escaping.effects ↔
      e ∈ effects.direct.effects ∨ ∃ h ∈ effects.handlers, e ∈ h.produced.effects := by
  rw [effects.summarizes_escaping.members]
  simp [rows]

end DefaultHandlerEffects

namespace EffectSummary

/-- The accounting is dropped with its last cause. -/
def accounting (effects : DefaultHandlerEffects) : Option DefaultHandlerEffects :=
  if effects.handlers.isEmpty then none else some effects

theorem subtractHandledEffects_eq (s : EffectSummary D) :
    s.subtractHandledEffects coverage handled =
      { s with
        handlerRequests := s.handlerRequests.subtractHandled coverage handled
        escapingEffects := (s.causes.subtractHandled coverage handled).escaping
        defaultHandlerEffects := accounting (s.causes.subtractHandled coverage handled) } := by
  unfold subtractHandledEffects
  dsimp only
  split
  · next effects hd =>
    have hcauses : s.causes = effects := by simp [causes, hd]
    rw [hcauses]
    split
    · next hempty =>
      have hnil : (effects.subtractHandled coverage handled).handlers = [] :=
        List.isEmpty_iff.mp hempty
      have hacc : accounting (effects.subtractHandled coverage handled) = none := if_pos hempty
      have hescaping : (effects.subtractHandled coverage handled).escaping =
          coverage.subtractHandled effects.direct handled := by
        rw [DefaultHandlerEffects.escaping, hnil]
        rfl
      rw [hacc, hescaping]
    · next hne =>
      have hacc : accounting (effects.subtractHandled coverage handled) =
          some (effects.subtractHandled coverage handled) := if_neg hne
      rw [hacc]
      rfl
  · next hd =>
    have hcauses : s.causes = ⟨s.escapingEffects, []⟩ := by simp [causes, hd]
    rw [hcauses, hd]
    rfl

theorem causes_subtractHandledEffects (s : EffectSummary D) :
    (s.subtractHandledEffects coverage handled).causes =
      s.causes.subtractHandled coverage handled := by
  rw [subtractHandledEffects_eq]
  generalize hx : s.causes.subtractHandled coverage handled = x
  unfold causes accounting
  dsimp only
  split_ifs with hempty
  · obtain ⟨direct, handlers⟩ := x
    obtain rfl : handlers = [] := by simpa using hempty
    rfl
  · rfl

theorem subtractHandled_requests_idem (requests : RequestInstantiationSummary D) :
    (requests.subtractHandled coverage handled).subtractHandled coverage handled =
      requests.subtractHandled coverage handled := by
  cases requests with
  | unavailable => rfl
  | available actions parameters =>
    simp only [RequestInstantiationSummary.subtractHandled, Finset.filter_filter, and_self,
      Finset.image_image, Function.comp_def, Finset.union_assoc, Finset.union_self]

/-- The two records of what escapes agree along every sequence of operations; handling leaves
nothing covered, keeps what it does not cover, and handling again changes nothing. -/
theorem composed_accounting {s : EffectSummary D} (h : Composed s) :
    (∀ effects, s.defaultHandlerEffects = some effects →
      (∀ e, e ∈ s.escapingEffects.effects ↔
        e ∈ effects.direct.effects ∨ ∃ c ∈ effects.handlers, e ∈ c.produced.effects) ∧
      s.escapingEffects.openVar = effects.rows.findSome? EffectRow.openVar) ∧
    ∀ (coverage : EffectCoverage) (handled : EffectRow),
      (∀ e ∈ (s.subtractHandledEffects coverage handled).escapingEffects.effects,
        ¬ coverage.Handles handled e) ∧
      (∀ e ∈ s.directEscapingEffects.effects, ¬ coverage.Handles handled e →
        e ∈ (s.subtractHandledEffects coverage handled).directEscapingEffects.effects ∧
          e ∈ (s.subtractHandledEffects coverage handled).escapingEffects.effects) ∧
      (s.subtractHandledEffects coverage handled).subtractHandledEffects coverage handled =
        s.subtractHandledEffects coverage handled := by
  refine ⟨fun effects he => ?_, fun coverage handled => ⟨fun e he => ?_, fun e he hn => ?_, ?_⟩⟩
  · rw [h.inStep effects he]
    exact ⟨fun e => DefaultHandlerEffects.mem_escaping, effects.openVar_escaping⟩
  · rw [subtractHandledEffects_eq] at he
    rcases DefaultHandlerEffects.mem_escaping.mp he with hd | ⟨c, hc, hp⟩
    · exact ((mem_subtractHandled coverage handled).mp hd).2
    · obtain ⟨c', -, rfl⟩ := List.mem_map.mp hc
      exact ((mem_subtractHandled coverage handled).mp hp).2
  · have hdirect : e ∈ (s.causes.subtractHandled coverage handled).direct.effects :=
      (mem_subtractHandled coverage handled).mpr ⟨directEscapingEffects_eq s ▸ he, hn⟩
    refine ⟨?_, ?_⟩
    · rw [directEscapingEffects_eq, causes_subtractHandledEffects]
      exact hdirect
    · rw [subtractHandledEffects_eq]
      exact DefaultHandlerEffects.mem_escaping.mpr (Or.inl hdirect)
  · rw [subtractHandledEffects_eq coverage handled (s.subtractHandledEffects coverage handled),
      causes_subtractHandledEffects, DefaultHandlerEffects.subtractHandled_subtractHandled,
      subtractHandledEffects_eq]
    simp only [subtractHandled_requests_idem]

/-- A default handler of the action `1024.0` that may raise an error. -/
theorem composed_accounting_default_handler :
    ∃ s : EffectSummary sampleData, Composed s ∧ s.defaultHandlerEffects.isSome ∧
      ∀ coverage handled,
        (s.subtractHandledEffects coverage handled).subtractHandledEffects coverage handled =
          s.subtractHandledEffects coverage handled := by
  obtain ⟨s, hs⟩ : ∃ s, (default : EffectSummary sampleData).recordDefaultHandlerEffects
    (.action ⟨1024, 0⟩) (.closed {.error 0}) = .ok s := ⟨_, rfl⟩
  have hcomposed := Composed.recordDefaultHandlerEffects (.start rfl) hs
  refine ⟨s, hcomposed, ?_,
    fun coverage handled => ((composed_accounting hcomposed).2 coverage handled).2.2⟩
  cases hs
  rfl

end EffectSummary
end Handling
end EtasFrontend.Effects
