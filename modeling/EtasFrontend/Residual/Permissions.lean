import EtasFrontend.Effects.Instances
import EtasFrontend.Residual.Dispositions

/-! What the disposition of the permissions of an alternative says about the ground actions. -/
namespace EtasFrontend.Residual
open Effects EtasFrontend.Types

namespace TraceSpecAnalysisInput
variable {input : TraceSpecAnalysisInput}

/-! The scans. -/

variable {patterns : List TraceSpecPattern}

theorem any_of_scanPatterns {test : TraceSpecPattern → Bool} {remaining remaining' : ℕ}
    {found : Bool} (h : scanPatterns test remaining patterns = some (found, remaining')) :
    found = patterns.any test := by
  induction patterns generalizing remaining with
  | nil =>
    rw [scanPatterns] at h
    cases h
    rfl
  | cons pattern rest ih =>
    cases remaining with
    | zero => cases h
    | succ remaining =>
      rw [scanPatterns] at h
      rw [List.any_cons]
      cases htest : test pattern with
      | true =>
        rw [htest, if_pos rfl] at h
        cases h
        rfl
      | false =>
        rw [htest, if_neg Bool.false_ne_true] at h
        rw [ih h, Bool.false_or]

/-- Whether one of the patterns matches an action, and whether one of them may. -/
def matched (input : TraceSpecAnalysisInput) (patterns : List TraceSpecPattern) (action : Effect) :
    Bool :=
  patterns.any fun pattern => pattern.matchesEffect input.coverage input.satisfiesSpec action

def mayMatch (input : TraceSpecAnalysisInput) (patterns : List TraceSpecPattern)
    (action : Effect) : Bool :=
  patterns.any fun pattern => pattern.mayMatchEffect input.coverage action

variable {state state' : ℕ × List (Effect × Bool)}

theorem uncoveredStep_eq_some {action : Effect}
    (h : input.uncoveredStep patterns state action = some state') :
    state'.2 = state.2 ++ if input.matched patterns action then []
      else [(action, input.mayMatch patterns action)] := by
  unfold uncoveredStep at h
  obtain ⟨⟨covered, remaining⟩, hscan, h⟩ := Option.bind_eq_some_iff.mp h
  have hcovered := any_of_scanPatterns hscan
  change covered = input.matched patterns action at hcovered
  rw [← hcovered]
  dsimp only at h
  cases covered with
  | true =>
    cases h
    simp
  | false =>
    rw [if_neg Bool.false_ne_true] at h ⊢
    obtain ⟨⟨uncertain, remaining'⟩, hscan', h⟩ := Option.bind_eq_some_iff.mp h
    cases h
    have huncertain := any_of_scanPatterns hscan'
    change uncertain = input.mayMatch patterns action at huncertain
    rw [huncertain]

theorem mem_uncovered_run {actions : List Effect}
    (h : actions.foldlM (input.uncoveredStep patterns) state = some state')
    (entry : Effect × Bool) :
    entry ∈ state'.2 ↔ entry ∈ state.2 ∨ entry.1 ∈ actions ∧
      input.matched patterns entry.1 = false ∧ entry.2 = input.mayMatch patterns entry.1 := by
  induction actions generalizing state with
  | nil =>
    cases h
    simp
  | cons action actions ih =>
    rw [List.foldlM_cons] at h
    obtain ⟨next, hstep, hrest⟩ := Option.bind_eq_some_iff.mp h
    rw [ih hrest, uncoveredStep_eq_some hstep, List.mem_append, List.mem_cons, or_assoc]
    refine or_congr_right ?_
    obtain ⟨other, uncertain⟩ := entry
    by_cases heq : other = action
    · subst heq
      cases input.matched patterns other <;> simp
    · cases input.matched patterns action <;> simp [heq]

variable {unresolvedCalls : Bool} {requested : EffectRow}

variable {permissions : List (TraceSpecPattern × ℕ)}

/-- The actions an outcome records, and when it is unresolved. -/
theorem analyzePermissions_eq_some {clauses : List TraceSpecClause} {outcome : PermissionOutcome}
    (hallow : permissions ≠ [])
    (h : input.analyzePermissions clauses permissions requested unresolvedCalls = some outcome) :
    outcome.unresolved = (requested.openVar.isSome || unresolvedCalls) ∧
      ∀ entry, entry ∈ outcome.uncovered ↔ entry.1 ∈ input.effectList requested.effects ∧
        input.matched (permissions.map Prod.fst) entry.1 = false ∧
          entry.2 = input.mayMatch (permissions.map Prod.fst) entry.1 := by
  unfold analyzePermissions at h
  obtain ⟨uncovered, huncovered, h⟩ := Option.bind_eq_some_iff.mp h
  obtain ⟨checked, -, h⟩ := Option.bind_eq_some_iff.mp h
  cases h
  constructor
  · simp [hallow]
  · intro entry
    rw [uncoveredActions, if_neg (by simpa using hallow)] at huncovered
    obtain ⟨state, hrun, rfl⟩ := Option.map_eq_some_iff.mp huncovered
    rw [mem_uncovered_run hrun entry]
    simp

/-- What the disposition says, without the order in which patterns and actions are visited. -/
def verdict (input : TraceSpecAnalysisInput) (patterns : List TraceSpecPattern)
    (requested : EffectRow) (unresolvedCalls : Bool) : CheckedTracePermissionDisposition :=
  if ∃ action ∈ requested.effects, input.matched patterns action = false ∧
      input.mayMatch patterns action = false then .violated
  else if requested.openVar.isSome = true ∨ unresolvedCalls = true ∨
      ∃ action ∈ requested.effects, input.matched patterns action = false then .unsupported
  else .proven

theorem disposition_eq_verdict {clauses : List TraceSpecClause} {outcome : PermissionOutcome}
    (hallow : permissions ≠ [])
    (hlist : ∀ action, action ∈ input.effectList requested.effects ↔ action ∈ requested.effects)
    (h : input.analyzePermissions clauses permissions requested unresolvedCalls = some outcome) :
    outcome.disposition =
      input.verdict (permissions.map Prod.fst) requested unresolvedCalls := by
  obtain ⟨hunresolved, huncovered⟩ := analyzePermissions_eq_some hallow h
  simp only [hlist] at huncovered
  have hviolated : (outcome.uncovered.any fun entry => !entry.2) = true ↔
      ∃ action ∈ requested.effects, input.matched (permissions.map Prod.fst) action = false ∧
        input.mayMatch (permissions.map Prod.fst) action = false := by
    simp only [List.any_eq_true, huncovered, Bool.not_eq_true', Prod.exists]
    constructor
    · rintro ⟨action, uncertain, ⟨hmem, hmatched, rfl⟩, hmay⟩
      exact ⟨action, hmem, hmatched, hmay⟩
    · rintro ⟨action, hmem, hmatched, hmay⟩
      exact ⟨action, _, ⟨hmem, hmatched, rfl⟩, hmay⟩
  have hopen : (outcome.unresolved || !outcome.uncovered.isEmpty) = true ↔
      requested.openVar.isSome = true ∨ unresolvedCalls = true ∨
        ∃ action ∈ requested.effects, input.matched (permissions.map Prod.fst) action = false := by
    rw [hunresolved, Bool.or_eq_true, Bool.or_eq_true, or_assoc]
    refine or_congr_right (or_congr_right ?_)
    rw [Bool.not_eq_true', List.isEmpty_eq_false_iff_exists_mem]
    simp only [huncovered, Prod.exists]
    constructor
    · rintro ⟨action, uncertain, hmem, hmatched, -⟩
      exact ⟨action, hmem, hmatched⟩
    · rintro ⟨action, hmem, hmatched⟩
      exact ⟨action, _, hmem, hmatched, rfl⟩
  unfold PermissionOutcome.disposition verdict
  simp only [hviolated, hopen]

theorem verdict_eq_violated (h : input.verdict patterns requested unresolvedCalls = .violated) :
    ∃ action ∈ requested.effects, input.mayMatch patterns action = false := by
  unfold verdict at h
  split_ifs at h with hviolated
  obtain ⟨action, hmem, -, hmay⟩ := hviolated
  exact ⟨action, hmem, hmay⟩

theorem verdict_eq_proven (h : input.verdict patterns requested unresolvedCalls = .proven) :
    requested.openVar = none ∧ unresolvedCalls = false ∧
      ∀ action ∈ requested.effects, input.matched patterns action = true := by
  unfold verdict at h
  split_ifs at h with hviolated hunsupported
  simpa using hunsupported

theorem verdict_perm {patterns patterns' : List TraceSpecPattern} (hperm : patterns'.Perm patterns)
    (requested : EffectRow) (unresolvedCalls : Bool) :
    input.verdict patterns' requested unresolvedCalls =
      input.verdict patterns requested unresolvedCalls := by
  have hmatched : ∀ action, input.matched patterns' action = input.matched patterns action :=
    fun action => hperm.any_eq
  have hmay : ∀ action, input.mayMatch patterns' action = input.mayMatch patterns action :=
    fun action => hperm.any_eq
  simp only [verdict, hmatched, hmay]

end TraceSpecAnalysisInput

/-- A permission that is proven closes the requested row, and matches every requested action. Where
the types of actions and patterns are settled it matches their ground instances too. A permission
that is violated matches no ground instance of some requested action. The order of patterns and
actions does not matter. -/
theorem analyzePermissions_sound (input : TraceSpecAnalysisInput) {clauses : List TraceSpecClause}
    {permissions : List (TraceSpecPattern × ℕ)} {requested : EffectRow} {trace : ActionTraceDomain}
    {outcome : PermissionOutcome} (hallow : permissions ≠ [])
    (hactions : ∀ action ∈ requested.effects, action.isAction = true)
    (hlist : ∀ action, action ∈ input.effectList requested.effects ↔ action ∈ requested.effects)
    (h : input.analyzePermissions clauses permissions requested trace.hasParameterCalls =
      some outcome) :
    (outcome.disposition = .proven →
      requested.openVar = none ∧ trace.hasParameterCalls = false ∧
      ∀ action ∈ requested.effects,
        (∃ entry ∈ permissions,
          entry.1.matchesEffect input.coverage input.satisfiesSpec action = true) ∧
        ∀ ground, input.coverage.covers action ground = true →
          TraceSpecPattern.Ground input.coverage ground → input.coverage.SettledAction ground →
          input.coverage.SettledAction action →
          (∀ entry ∈ permissions,
            (∀ allowed ∈ entry.1.row.effects, input.coverage.SettledAction allowed) ∧
              entry.1.StableBounds input.coverage input.satisfiesSpec) →
          ∃ entry ∈ permissions,
            entry.1.matchesEffect input.coverage input.satisfiesSpec ground = true) ∧
    (outcome.disposition = .violated →
      ∃ action ∈ requested.effects, ∀ ground, input.coverage.covers action ground = true →
        TraceSpecPattern.Ground input.coverage ground → ∀ entry ∈ permissions,
          entry.1.matchesEffect input.coverage input.satisfiesSpec ground = false) ∧
    ∀ (effectList : EffectSet → List Effect) (clauses' : List TraceSpecClause)
      (permissions' : List (TraceSpecPattern × ℕ)) (outcome' : PermissionOutcome),
      (permissions'.map Prod.fst).Perm (permissions.map Prod.fst) →
      (∀ action, action ∈ effectList requested.effects ↔ action ∈ requested.effects) →
      { input with effectList }.analyzePermissions clauses' permissions' requested
        trace.hasParameterCalls = some outcome' →
      outcome'.disposition = outcome.disposition := by
  have hverdict := TraceSpecAnalysisInput.disposition_eq_verdict hallow hlist h
  refine ⟨fun hproven => ?_, fun hviolated => ?_, ?_⟩
  · obtain ⟨hopen, hcalls, hall⟩ :=
      TraceSpecAnalysisInput.verdict_eq_proven (hverdict.symm.trans hproven)
    refine ⟨hopen, hcalls, fun action haction => ?_⟩
    obtain ⟨entry, hentry, hmatches⟩ : ∃ entry ∈ permissions,
        entry.1.matchesEffect input.coverage input.satisfiesSpec action = true := by
      simpa [TraceSpecAnalysisInput.matched] using hall action haction
    refine ⟨⟨entry, hentry, hmatches⟩, fun ground hcov hground hgs has hpatterns => ?_⟩
    obtain ⟨hpattern, hstable⟩ := hpatterns entry hentry
    exact ⟨entry, hentry, TraceSpecPattern.matchesEffect_ground hstable hpattern has hgs
      (hactions action haction) hground hcov hmatches⟩
  · obtain ⟨action, haction, hmay⟩ :=
      TraceSpecAnalysisInput.verdict_eq_violated (hverdict.symm.trans hviolated)
    refine ⟨action, haction, fun ground hcov hground entry hentry => ?_⟩
    by_contra hmatches
    rw [Bool.not_eq_false] at hmatches
    obtain ⟨allowed, hallowed, hcovers, -⟩ := of_decide_eq_true hmatches
    have hcandidate := TraceSpecPattern.mayMatchCandidate_of_common (hactions action haction) hground
      hcovers hcov
    have hentrymay : entry.1.mayMatchEffect input.coverage action = true := by
      unfold TraceSpecPattern.mayMatchEffect
      split_ifs
      · rfl
      · exact decide_eq_true ⟨allowed, hallowed, hcandidate⟩
    have hsome : input.mayMatch (permissions.map Prod.fst) action = true :=
      List.any_eq_true.mpr ⟨entry.1, List.mem_map_of_mem hentry, hentrymay⟩
    rw [hmay] at hsome
    cases hsome
  · intro effectList clauses' permissions' outcome' hperm hlist' h'
    have hallow' : permissions' ≠ [] := by
      rintro rfl
      exact hallow (List.map_eq_nil_iff.mp hperm.nil_eq.symm)
    rw [TraceSpecAnalysisInput.disposition_eq_verdict hallow' hlist' h', hverdict]
    exact TraceSpecAnalysisInput.verdict_perm hperm requested trace.hasParameterCalls

/-- An analysis of one requested action, with the types `U8`, `I32`, that of a literal, and a place
of the memory. -/
def permissionInput (action : Effect) : TraceSpecAnalysisInput where
  limits := ⟨8, 100, by decide, by decide⟩
  coverage :=
    { registry := (((EffectRegistry.empty.registerTag 1024 "Mail").registerAction 7
        ⟨1024, 1024, "send", [.type]⟩).registerAction 8
        ⟨1025, 1024, "recall", [.memoryPlace]⟩).registerMemoryPlaces [(3, .memoryPlace ⟨["notes"]⟩)]
      types := { TypeStore.new with
        types := [.primitive .u8, .primitive .i32, .integerLiteral "5", .memoryPlace ⟨["notes"]⟩] }
      depth := 1 }
  satisfiesSpec _ _ _ := true
  requireBefore _ _ _ := .unknown
  normalizeAlternative _ := none
  effectList _ := [action]
  models := ⟨∅, ∅, ∅⟩
  conformanceFacts := []
  recorded := ∅
  summary _ := none
  defaultActions _ := none
  fingerprint _ := 0

def sendEffect (arg : EffectArgRef) : Effect := .appliedAction ⟨⟨1024, 1024⟩, [arg]⟩

def recallEffect (arg : EffectArgRef) : Effect := .appliedAction ⟨⟨1024, 1025⟩, [arg]⟩

def allowClause (pattern : TraceSpecPattern) : TraceSpecClause :=
  .allow pattern ⟨0, 0, 4⟩ (some []) (some 7)

/-- The type of a literal is covered by `U8` and covers `I32`; a bound on a place of the memory,
met by the type of the place, says nothing of its path. -/
theorem analyzePermissions_not_ground :
    (∃ (input : TraceSpecAnalysisInput) (pattern : TraceSpecPattern) (action ground : Effect)
      (outcome : PermissionOutcome), pattern.argBounds = [] ∧ action.isAction = true ∧
      input.effectList {action} = [action] ∧
      input.analyzePermissions [allowClause pattern] [(pattern, 0)] (.closed {action})
        ActionTraceDomain.empty.hasParameterCalls = some outcome ∧
      outcome.disposition = .proven ∧ TraceSpecPattern.Ground input.coverage ground ∧
      input.coverage.covers action ground = true ∧
      pattern.matchesEffect input.coverage input.satisfiesSpec ground = false) ∧
    ∃ (input : TraceSpecAnalysisInput) (pattern : TraceSpecPattern) (action ground : Effect)
      (outcome : PermissionOutcome), (∀ ty symbol args, input.satisfiesSpec ty symbol args = true) ∧
      input.coverage.SettledAction action ∧ input.coverage.SettledAction ground ∧
      (∀ allowed ∈ pattern.row.effects, input.coverage.SettledAction allowed) ∧
      action.isAction = true ∧ input.effectList {action} = [action] ∧
      input.analyzePermissions [allowClause pattern] [(pattern, 0)] (.closed {action})
        ActionTraceDomain.empty.hasParameterCalls = some outcome ∧
      outcome.disposition = .proven ∧ TraceSpecPattern.Ground input.coverage ground ∧
      input.coverage.covers action ground = true ∧
      pattern.matchesEffect input.coverage input.satisfiesSpec ground = false := by
  constructor
  · refine ⟨permissionInput (sendEffect (.type 2)), ⟨.closed {sendEffect (.type 0)}, "Mail.send", []⟩,
      sendEffect (.type 2), sendEffect (.type 1), _, rfl, rfl, rfl, rfl, by decide, ?_, by decide,
      by decide⟩
    intro arg harg
    cases List.mem_singleton.mp harg
    trivial
  · refine ⟨permissionInput (recallEffect (.type 3)), ⟨.closed {recallEffect .wildcard},
      "Mail.recall", [⟨.action ⟨1024, 1025⟩, 0, 9, []⟩]⟩, recallEffect (.type 3),
      recallEffect (.path ["notes"]), _, fun _ _ _ => rfl, ?_, ?_, ?_, rfl, rfl, rfl, by decide, ?_,
      by decide, by decide⟩
    · intro ty hty
      cases List.mem_singleton.mp hty
      exact Settled.of_leaf rfl rfl trivial
    · intro ty hty
      cases List.mem_singleton.mp hty
    · intro allowed hallowed
      cases Finset.mem_singleton.mp hallowed
      intro ty hty
      cases List.mem_singleton.mp hty
    · intro arg harg
      cases List.mem_singleton.mp harg
      trivial

/-- Sending numbers of one type is allowed and requested. -/
theorem analyzePermissions_sound_send :
    let send := sendEffect (.type 1)
    let input := permissionInput send
    let pattern : TraceSpecPattern := ⟨.closed {send}, "Mail.send", []⟩
    ∃ outcome, input.analyzePermissions [allowClause pattern] [(pattern, 0)] (.closed {send})
        ActionTraceDomain.empty.hasParameterCalls = some outcome ∧
      outcome.disposition = .proven ∧
      ∃ entry ∈ [(pattern, 0)],
        entry.1.matchesEffect input.coverage input.satisfiesSpec send = true := by
  intro send input pattern
  obtain ⟨outcome, h, hproven⟩ : ∃ outcome, input.analyzePermissions [allowClause pattern]
      [(pattern, 0)] (.closed {send}) ActionTraceDomain.empty.hasParameterCalls = some outcome ∧
        outcome.disposition = .proven := ⟨_, rfl, by decide⟩
  have hsettled : input.coverage.SettledAction send := by
    intro ty hty
    cases List.mem_singleton.mp hty
    exact Settled.of_leaf rfl rfl trivial
  have hlist : ∀ action, action ∈ input.effectList (EffectRow.closed {send}).effects ↔
      action ∈ (EffectRow.closed {send}).effects := by
    intro action
    rw [show (EffectRow.closed {send}).effects = {send} from rfl, Finset.mem_singleton]
    exact List.mem_singleton
  have hsound := analyzePermissions_sound input (List.cons_ne_nil _ _) (by decide) hlist h
  obtain ⟨-, -, hall⟩ := hsound.1 hproven
  refine ⟨outcome, h, hproven, (hall send (Finset.mem_singleton_self _)).2 send (by decide) ?_
    hsettled hsettled ?_⟩
  · intro arg harg
    cases List.mem_singleton.mp harg
    trivial
  · intro entry hentry
    cases List.mem_singleton.mp hentry
    refine ⟨fun allowed hallowed => ?_, ⟨?_, ?_⟩⟩
    · cases Finset.mem_singleton.mp hallowed
      exact hsettled
    · intro bound hbound
      cases hbound
    · intro bound hbound
      cases hbound

end EtasFrontend.Residual
