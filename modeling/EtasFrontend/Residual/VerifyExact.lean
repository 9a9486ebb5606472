import EtasFrontend.Residual.Verify

/-! A verification that returns accounts for every conformance, and its plans refer to the
obligations of their clauses, each once. -/
namespace EtasFrontend.Residual
open Lib Effects

namespace ResidualPlanInput
variable {input : ResidualPlanInput}

/-- The obligation derived from a clause of a requirement. -/
def Rederived (input : ResidualPlanInput) (requirement : TraceResidualRequirement)
    (clause : TraceResidualClause) (id : ObligationId) : Prop :=
  ∃ identity, input.identity requirement clause input.contract = .ok identity ∧ identity.id = id

/-- The references of a plan, in the order of the clauses they are for. -/
structure ExactReferences (input : ResidualPlanInput) (requirement : TraceResidualRequirement)
    (references : List ResidualObligationRef) : Prop where
  derived : List.Forall₂ (fun reference clause =>
    input.Rederived requirement clause reference.obligation) references requirement.clauses
  distinct : (references.map ResidualObligationRef.obligation).Nodup

variable {requirement : TraceResidualRequirement} {lowered : LoweredTracePlan}

theorem verifyReference_ok {references references' : List ResidualObligationRef}
    {entry : ResidualObligationRef × TraceResidualClause}
    (h : input.verifyReference requirement input.contract lowered references entry =
      .ok references') :
    references' = references ++ [entry.1] ∧
      input.Rederived requirement entry.2 entry.1.obligation := by
  unfold verifyReference at h
  obtain ⟨identity, hidentity, h⟩ := bind_eq_ok.mp h
  dsimp only at h
  split at h
  · cases h
  · next hid =>
    split at h
    · cases h
    · split at h
      · split at h
        · cases h
        · split at h
          · cases h
          · cases h
            exact ⟨rfl, identity, hidentity, (not_ne_iff.mp hid).symm⟩
      · cases h

variable {references : List ResidualObligationRef}

theorem verifyReferences_ok
    (h : lowered.references.foldlM (input.verifyReference requirement input.contract lowered) [] =
      .ok references) :
    references = lowered.references.map Prod.fst ∧
      ∀ entry ∈ lowered.references, input.Rederived requirement entry.2 entry.1.obligation := by
  refine foldlM_ok_complete (p := fun done (references : List ResidualObligationRef) =>
    references = done.map Prod.fst ∧
      ∀ entry ∈ done, input.Rederived requirement entry.2 entry.1.obligation) ?_
    (show ([] : List ResidualObligationRef) =
      ([] : List (ResidualObligationRef × TraceResidualClause)).map Prod.fst ∧ _ from
      ⟨rfl, nofun⟩) h
  intro done s entry s' hs hstep
  obtain ⟨rfl, hderived⟩ := verifyReference_ok hstep
  refine ⟨by rw [hs.1, List.map_append]; rfl, ?_⟩
  intro other hother
  obtain hother | hother := List.mem_append.mp hother
  · exact hs.2 other hother
  · rw [List.mem_singleton.mp hother]
    exact hderived

/-- As many references as obligations, and every obligation is referred to: no obligation is
referred to twice. -/
theorem references_nodup (plan : SemanticResidualPlan)
    (hlength : references.length = plan.obligations.length)
    (hcovers : ∀ obligation ∈ plan.obligations,
      ∃ reference ∈ references, reference.obligation = obligation.id) :
    (references.map ResidualObligationRef.obligation).Nodup := by
  have hsubset : plan.obligations.map ResidualObligation.id ⊆
      references.map ResidualObligationRef.obligation := by
    intro id hid
    obtain ⟨obligation, hobligation, rfl⟩ := List.mem_map.mp hid
    obtain ⟨reference, hreference, heq⟩ := hcovers obligation hobligation
    exact List.mem_map.mpr ⟨reference, hreference, heq⟩
  have hperm : (plan.obligations.map ResidualObligation.id).Perm
      (references.map ResidualObligationRef.obligation) := by
    apply (plan.distinct.subperm hsubset).perm_of_length_le
    rw [List.length_map, List.length_map, hlength]
  exact hperm.nodup_iff.mp plan.distinct

theorem map_snd_eq_of_zip {refs : List (ResidualObligationRef × TraceResidualClause)}
    {clauses : List TraceResidualClause} (hlength : refs.length = clauses.length)
    (h : ∀ entry ∈ refs.zip clauses, entry.1.2 = entry.2) : refs.map Prod.snd = clauses := by
  induction refs generalizing clauses with
  | nil => exact (List.length_eq_zero_iff.mp hlength.symm).symm
  | cons ref refs ih =>
    cases clauses with
    | nil => cases hlength
    | cons clause clauses =>
      rw [List.zip_cons_cons] at h
      have hhead : ref.2 = clause := h (ref, clause) List.mem_cons_self
      have htail := ih (Nat.succ.inj hlength) fun entry hentry =>
        h entry (List.mem_cons_of_mem _ hentry)
      rw [List.map_cons, hhead, htail]

theorem runVerifyPlan_ok {verified : VerifiedTracePlan}
    (h : input.runVerifyPlan requirement lowered = .ok verified) :
    verified.requirement = requirement ∧
      input.ExactReferences requirement verified.references := by
  unfold runVerifyPlan at h
  dsimp only at h
  split at h
  · cases h
  · next hrequirement =>
    obtain ⟨monitor, -, h⟩ := bind_eq_ok.mp h
    split at h
    · cases h
    · split at h
      · cases h
      · next hclauses =>
        obtain ⟨references, hreferences, h⟩ := bind_eq_ok.mp h
        obtain ⟨hmap, hderived⟩ := verifyReferences_ok hreferences
        rw [not_or, not_or, not_ne_iff, not_ne_iff, Bool.not_eq_true, List.any_eq_false] at hclauses
        obtain ⟨hlength, hobligations, hzip⟩ := hclauses
        have hsnd : lowered.references.map Prod.snd = requirement.clauses := by
          apply map_snd_eq_of_zip hlength
          intro entry hentry
          simpa using hzip entry hentry
        split at h
        · cases h
        · cases h
        · next hsources =>
          cases h
          rw [not_or, not_ne_iff] at hrequirement
          refine ⟨hrequirement.1, ?_, ?_⟩
          · rw [hmap, ← hsnd, List.forall₂_map_left_iff, List.forall₂_map_right_iff,
              List.forall₂_same]
            exact hderived
          · apply references_nodup lowered.plan
            · rw [hmap, List.length_map, hlength, hobligations]
            · intro obligation hobligation
              obtain ⟨binding, hbinding, hid⟩ :=
                validateTracePlanSources_covers hsources obligation hobligation
              obtain ⟨entry, hentry, rfl⟩ := List.mem_map.mp hbinding
              rw [hmap]
              exact ⟨entry.1, List.mem_map_of_mem hentry, hid⟩

theorem verifyPlan_ok {verified : VerifiedTracePlan}
    (h : input.verifyPlan requirement lowered = .ok (.ok verified)) :
    verified.requirement = requirement ∧
      input.ExactReferences requirement verified.references := by
  unfold verifyPlan at h
  split at h
  · next hrun =>
    cases h
    exact runVerifyPlan_ok hrun
  · cases h
  · cases h

/-- What is written for a conformance. -/
structure Recorded (input : ResidualPlanInput) (index : ℕ) (actual : TraceResidualEligibility)
    (output output' : VerifiedResidualPlans) : Prop where
  needed : ∀ requirement, actual = .needsConcrete requirement →
    (∃ verified, verified.requirement = requirement ∧
      input.ExactReferences requirement verified.references ∧
      output'.plans = output.plans.insert index verified ∧ output'.failures = output.failures) ∨
    ∃ failure, output'.plans = output.plans ∧
      output'.failures = output.failures.insert index failure
  other : (∀ requirement, actual ≠ .needsConcrete requirement) →
    output'.plans = output.plans ∧ output'.failures = output.failures

variable {output output' : VerifiedResidualPlans} {actual : TraceResidualEligibility}

theorem recordOutcome_ok {index : ℕ} {entry : Option (Except ResidualPlanFailure LoweredTracePlan)}
    (h : input.recordOutcome index actual entry output = .ok output') :
    input.Recorded index actual output output' := by
  unfold recordOutcome at h
  split at h
  · next requirement lowered =>
    refine ⟨?_, fun hother => absurd rfl (hother requirement)⟩
    intro requirement' heq
    cases heq
    split at h
    · cases h
    · next verified hverified =>
      cases h
      obtain ⟨hrequirement, hreferences⟩ := verifyPlan_ok hverified
      exact .inl ⟨verified, hrequirement, hreferences, rfl, rfl⟩
    · next failure _ =>
      cases h
      exact .inr ⟨failure, rfl, rfl⟩
  · next requirement failure =>
    cases h
    exact ⟨fun _ _ => .inr ⟨failure, rfl, rfl⟩, fun hother => absurd rfl (hother requirement)⟩
  · cases h
  · cases h
  · next hnone =>
    cases h
    refine ⟨?_, fun _ => ⟨rfl, rfl⟩⟩
    intro requirement heq
    exact absurd heq (hnone requirement)

variable {eligibility : Map ℕ TraceResidualEligibility} {entry : ℕ × HirItemId}
variable {state state' : VerifyState}

theorem verifyConformance_ok (h : input.verifyConformance eligibility state entry = .ok state') :
    ∃ actual, input.classify entry.1 entry.2 = .ok actual ∧
      input.Recorded entry.1 actual state.output state'.output := by
  unfold verifyConformance at h
  split at h
  · cases h
  · obtain ⟨actual, hactual, h⟩ := bind_eq_ok.mp h
    dsimp only at h
    split at h
    · cases h
    · obtain ⟨output, houtput, h⟩ := bind_eq_ok.mp h
      cases h
      have hrecorded := recordOutcome_ok houtput
      exact ⟨actual, hactual, hrecorded.needed, hrecorded.other⟩

theorem classify_typeFactIndex {index : ℕ} {item : HirItemId}
    (h : input.classify index item = .ok (.needsConcrete requirement)) :
    requirement.typeFactIndex = index := by
  unfold classify at h
  split at h
  · cases h
  · obtain ⟨_, _, _, _, _, rfl⟩ := classifyTraceResidual_needsConcrete h
    rfl

/-- A conformance that has been looked at. -/
structure Settled (input : ResidualPlanInput) (output : VerifiedResidualPlans)
    (entry : ℕ × HirItemId) : Prop where
  needed : ∀ requirement, input.classify entry.1 entry.2 = .ok (.needsConcrete requirement) →
    Xor (output.plans.get entry.1).isSome (output.failures.get entry.1).isSome ∧
      ∀ plan, output.plans.get entry.1 = some plan → plan.requirement = requirement ∧
        input.ExactReferences requirement plan.references
  other : (∀ requirement, input.classify entry.1 entry.2 ≠ .ok (.needsConcrete requirement)) →
    output.plans.get entry.1 = none ∧ output.failures.get entry.1 = none

def Absent (output : VerifiedResidualPlans) (index : ℕ) : Prop :=
  output.plans.get index = none ∧ output.failures.get index = none

theorem Recorded.get_ne {index index' : ℕ} (h : input.Recorded index actual output output')
    (hne : index' ≠ index) :
    output'.plans.get index' = output.plans.get index' ∧
      output'.failures.get index' = output.failures.get index' := by
  by_cases hneeded : ∃ requirement, actual = .needsConcrete requirement
  · obtain ⟨requirement, heq⟩ := hneeded
    obtain ⟨verified, -, -, hplans, hfailures⟩ | ⟨failure, hplans, hfailures⟩ :=
      h.needed requirement heq
    · rw [hplans, hfailures]
      exact ⟨Map.get_insert_ne _ hne _, rfl⟩
    · rw [hplans, hfailures]
      exact ⟨rfl, Map.get_insert_ne _ hne _⟩
  · obtain ⟨hplans, hfailures⟩ := h.other fun requirement heq => hneeded ⟨requirement, heq⟩
    rw [hplans, hfailures]
    exact ⟨rfl, rfl⟩

theorem Recorded.settled (h : input.Recorded entry.1 actual output output')
    (hactual : input.classify entry.1 entry.2 = .ok actual) (habsent : Absent output entry.1) :
    input.Settled output' entry := by
  obtain ⟨hplans, hfailures⟩ := habsent
  constructor
  · intro requirement hneeded
    rw [hactual] at hneeded
    obtain ⟨verified, hrequirement, hreferences, hplans', hfailures'⟩ |
      ⟨failure, hplans', hfailures'⟩ := h.needed requirement (Except.ok.inj hneeded)
    · rw [hplans', hfailures', Map.get_insert_self, hfailures]
      refine ⟨.inl ⟨rfl, Bool.false_ne_true⟩, ?_⟩
      intro plan hplan
      cases hplan
      exact ⟨hrequirement, hreferences⟩
    · rw [hplans', hfailures', Map.get_insert_self, hplans]
      exact ⟨.inr ⟨rfl, Bool.false_ne_true⟩, nofun⟩
  · intro hother
    obtain ⟨hplans', hfailures'⟩ := h.other fun requirement heq =>
      hother requirement (heq ▸ hactual)
    rw [hplans', hfailures']
    exact ⟨hplans, hfailures⟩

theorem Settled.of_get (h : input.Settled output entry)
    (hplans : output'.plans.get entry.1 = output.plans.get entry.1)
    (hfailures : output'.failures.get entry.1 = output.failures.get entry.1) :
    input.Settled output' entry := by
  constructor
  · rw [hplans, hfailures]
    exact h.needed
  · rw [hplans, hfailures]
    exact h.other

/-- The loop so far: the conformances taken are settled, the others absent. -/
structure LoopSettled (input : ResidualPlanInput) (done : List (ℕ × HirItemId))
    (output : VerifiedResidualPlans) : Prop where
  settled : ∀ entry ∈ done, input.Settled output entry
  absent : ∀ index, index ∉ done.map Prod.fst → Absent output index

theorem LoopSettled.step {done : List (ℕ × HirItemId)} (h : input.LoopSettled done state.output)
    (hnew : entry.1 ∉ done.map Prod.fst)
    (hstep : input.verifyConformance eligibility state entry = .ok state') :
    input.LoopSettled (done ++ [entry]) state'.output := by
  obtain ⟨actual, hactual, hrecorded⟩ := verifyConformance_ok hstep
  constructor
  · intro other hother
    obtain hother | hother := List.mem_append.mp hother
    · have hne : other.1 ≠ entry.1 := fun heq => hnew (heq ▸ List.mem_map_of_mem hother)
      obtain ⟨hplans, hfailures⟩ := hrecorded.get_ne hne
      exact (h.settled other hother).of_get hplans hfailures
    · rw [List.mem_singleton.mp hother]
      exact hrecorded.settled hactual (h.absent entry.1 hnew)
  · intro index hindex
    rw [List.map_append, List.mem_append, not_or, List.map_singleton, List.mem_singleton] at hindex
    obtain ⟨hplans, hfailures⟩ := hrecorded.get_ne hindex.2
    obtain ⟨hplans', hfailures'⟩ := h.absent index hindex.1
    exact ⟨hplans.trans hplans', hfailures.trans hfailures'⟩

theorem verifyConformances_settled {expected : List (ℕ × HirItemId)}
    (hnodup : (expected.map Prod.fst).Nodup) (hstate : ∀ index, Absent state.output index)
    (h : expected.foldlM (input.verifyConformance eligibility) state = .ok state') :
    input.LoopSettled expected state'.output := by
  have hnil : (([] : List (ℕ × HirItemId)).map Prod.fst).Nodup →
      input.LoopSettled [] state.output := fun _ => ⟨nofun, fun index _ => hstate index⟩
  refine foldlM_ok_complete (p := fun done (state : VerifyState) =>
    (done.map Prod.fst).Nodup → input.LoopSettled done state.output) ?_ hnil h hnodup
  intro done s entry s' hs hstep hdone
  rw [List.map_append, List.nodup_append] at hdone
  apply (hs hdone.1).step _ hstep
  intro hmem
  exact hdone.2.2 _ hmem _ (List.mem_singleton.mpr rfl) rfl

theorem indices_nodup (dispositions : TraceStaticDispositions) : dispositions.indices.Nodup := by
  unfold TraceStaticDispositions.indices
  rw [(List.perm_insertionSort _ _).nodup_iff]
  have hkeys : dispositions.entries.keys.Nodup := dispositions.nodupKeys
  simpa [Map.toList, List.keys, Function.comp_def] using hkeys

theorem conformances_ok {expected : List (ℕ × HirItemId)} (h : input.conformances = .ok expected) :
    expected.map Prod.fst = input.dispositions.indices ∧
      ∀ entry ∈ expected, ∃ source, input.analysis.sourceConformance entry.1 = some source ∧
        source.item = entry.2 := by
  unfold conformances at h
  dsimp only at h
  split at h
  · cases h
  · generalize input.dispositions.indices = indices at h ⊢
    induction indices generalizing expected with
    | nil =>
      cases h
      exact ⟨rfl, nofun⟩
    | cons index indices ih =>
      rw [List.mapM_cons] at h
      obtain ⟨entry, hentry, h⟩ := bind_eq_ok.mp h
      obtain ⟨rest, hrest, h⟩ := bind_eq_ok.mp h
      cases h
      split at hentry
      · next source hsource =>
        cases hentry
        obtain ⟨hmap, hsources⟩ := ih hrest
        refine ⟨by rw [List.map_cons, hmap], ?_⟩
        intro other hother
        obtain rfl | hother := List.mem_cons.mp hother
        · exact ⟨source, hsource, rfl⟩
        · exact hsources other hother
      · cases hentry

end ResidualPlanInput

open ResidualPlanInput

/-- The conformance needs concrete evidence, for the clauses of the requirement. -/
def NeedsConcrete (input : ResidualPlanInput) (index : ℕ) (requirement : TraceResidualRequirement) :
    Prop :=
  index ∈ input.dispositions.indices ∧ ∃ source, input.analysis.sourceConformance index = some source ∧
    input.classify index source.item = .ok (.needsConcrete requirement)

/-- Every conformance that needs concrete evidence is in the plans or in the failures and not in
both, no other is in either, and the references of a plan are the obligations of its clauses. -/
theorem verifyResidualPlans_accounts (input : ResidualPlanInput) (lowered : ResidualMonitorPlans)
    (output : VerifiedResidualPlans) (h : verifyResidualPlans input lowered = .ok output)
    (index : ℕ) :
    (∀ requirement, NeedsConcrete input index requirement →
      Xor (output.plans.get index).isSome (output.failures.get index).isSome) ∧
    ((∀ requirement, ¬NeedsConcrete input index requirement) →
      output.plans.get index = none ∧ output.failures.get index = none) ∧
    ∀ plan, output.plans.get index = some plan →
      NeedsConcrete input index plan.requirement ∧ plan.requirement.typeFactIndex = index ∧
        input.ExactReferences plan.requirement plan.references := by
  unfold verifyResidualPlans at h
  obtain ⟨expected, hexpected, h⟩ := bind_eq_ok.mp h
  dsimp only at h
  split at h
  · cases h
  · obtain ⟨state, hstate, h⟩ := bind_eq_ok.mp h
    cases h
    obtain ⟨hindices, hsources⟩ := conformances_ok hexpected
    have hnodup : (expected.map Prod.fst).Nodup := hindices ▸ indices_nodup _
    have hloop := verifyConformances_settled hnodup (fun _ => ⟨rfl, rfl⟩) hstate
    by_cases hmem : index ∈ expected.map Prod.fst
    · obtain ⟨entry, hentry, rfl⟩ := List.mem_map.mp hmem
      obtain ⟨source, hsource, hitem⟩ := hsources entry hentry
      have hsettled := hloop.settled entry hentry
      have hneeds : ∀ requirement, NeedsConcrete input entry.1 requirement ↔
          input.classify entry.1 entry.2 = .ok (.needsConcrete requirement) := by
        intro requirement
        constructor
        · rintro ⟨-, source', hsource', hclassify⟩
          rw [hsource] at hsource'
          cases hsource'
          rwa [← hitem]
        · intro hclassify
          exact ⟨hindices ▸ hmem, source, hsource, hitem.symm ▸ hclassify⟩
      refine ⟨?_, ?_, ?_⟩
      · intro requirement hneed
        exact (hsettled.needed requirement ((hneeds requirement).mp hneed)).1
      · intro hnone
        exact hsettled.other fun requirement hclassify =>
          hnone requirement ((hneeds requirement).mpr hclassify)
      · intro plan hplan
        by_cases hneeded : ∃ requirement,
            input.classify entry.1 entry.2 = .ok (.needsConcrete requirement)
        · obtain ⟨requirement, hclassify⟩ := hneeded
          obtain ⟨rfl, hreferences⟩ := (hsettled.needed requirement hclassify).2 plan hplan
          exact ⟨(hneeds plan.requirement).mpr hclassify, classify_typeFactIndex hclassify,
            hreferences⟩
        · obtain ⟨hplans, -⟩ := hsettled.other fun requirement hclassify =>
            hneeded ⟨requirement, hclassify⟩
          rw [hplans] at hplan
          cases hplan
    · obtain ⟨hplans, hfailures⟩ := hloop.absent index hmem
      refine ⟨?_, fun _ => ⟨hplans, hfailures⟩, ?_⟩
      · rintro requirement ⟨hindex, -⟩
        exact absurd (hindices ▸ hindex) hmem
      · intro plan hplan
        rw [hplans] at hplan
        cases hplan

/-! One conformance with one clause that waits for the outcome of its guard. -/

def waitingSource : CheckedTraceSourceConformance :=
  ⟨7, some 1, some ⟨2, [], []⟩, [[some 5]], 0, 0⟩

def waitingFact : CheckedTraceClauseFact := ⟨some 5, .unsupported .outcomeEvidence⟩

def coveredPermission : CheckedTraceStaticPermission := ⟨.proven, .empty, false, false, []⟩

def waitingClause : TraceResidualClause := ⟨0, 0, 5, .outcomeEvidence⟩

def waitingRequirement : TraceResidualRequirement := ⟨0, 7, [waitingClause]⟩

def waitingIdentity : TraceObligationIdentity where
  id := 11
  inputs := ⟨0, 1, .sourceConstraint, 2, 5, ⟨.traceContract, 3⟩, 0, 0, []⟩

def waitingObligation : ResidualObligation := ⟨11, waitingIdentity.inputs, .traceContract 4⟩

def waitingPlan : SemanticResidualPlan where
  obligations := [waitingObligation]
  distinct := List.nodup_singleton _
  componentFor := fun id => if id = 11 then some (.trace waitingObligation) else none

def waitingInput : ResidualPlanInput where
  analysis :=
    { sourceConformance := fun index => if index = 0 then some waitingSource else none
      checkedPermissionFact := fun _ _ => .ok coveredPermission
      checkedClauseFact := fun _ _ _ => .ok waitingFact
      checkedConformanceDisposition := fun _ => .ok .unsupported
      summary := fun _ => some ⟨false, .empty, .empty⟩
      clauseOutcome := fun _ _ _ _ => some .temporal }
  dispositions := (∅ : Map ℕ _).insert 0
    (.ok ⟨waitingSource, [⟨coveredPermission, [waitingFact]⟩], .unsupported⟩)
  sources :=
    { snapshots := .ok ()
      clauseSites := [(5, [])]
      identity := fun _ remaining => .ok (waitingIdentity, remaining)
      validateSourceLink := fun _ _ => .ok () }
  projector := some ⟨.sourceConstraint, fun _ _ => .ok 4⟩
  limits := ⟨10, 10, 100, 10, 10⟩
  identityText := fun _ => ""
  sourceText := fun _ => ""

def waitingLowered : ResidualMonitorPlans where
  eligibility := (∅ : Map ℕ _).insert 0 (.needsConcrete waitingRequirement)
  lowered := (∅ : Map ℕ _).insert 0
    (.ok ⟨waitingRequirement, .sourceConstraint, 4, waitingPlan, [(⟨11, []⟩, waitingClause)]⟩)

def waitingOutput : VerifiedResidualPlans where
  plans := (∅ : Map ℕ _).insert 0 ⟨waitingRequirement, .sourceConstraint, 4, waitingPlan, [⟨11, []⟩]⟩
  failures := ∅
  eligibility := (∅ : Map ℕ _).insert 0 (.needsConcrete waitingRequirement)

theorem verifyResidualPlans_accounts_waiting :
    verifyResidualPlans waitingInput waitingLowered = .ok waitingOutput ∧
      NeedsConcrete waitingInput 0 waitingRequirement ∧
      Xor (waitingOutput.plans.get 0).isSome (waitingOutput.failures.get 0).isSome ∧
      waitingInput.ExactReferences waitingRequirement [⟨11, []⟩] := by
  have hverify : verifyResidualPlans waitingInput waitingLowered = .ok waitingOutput := rfl
  have hneeds : NeedsConcrete waitingInput 0 waitingRequirement :=
    ⟨List.mem_singleton.mpr rfl, waitingSource, rfl, rfl⟩
  obtain ⟨hneeded, -, hplans⟩ :=
    verifyResidualPlans_accounts waitingInput waitingLowered waitingOutput hverify 0
  exact ⟨hverify, hneeds, hneeded _ hneeds, (hplans _ rfl).2.2⟩

end EtasFrontend.Residual
