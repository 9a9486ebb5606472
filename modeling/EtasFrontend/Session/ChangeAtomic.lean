import EtasFrontend.Session.ChangeGrowth

/-! When a change set that fails leaves the project as it was. -/
namespace EtasFrontend.Session
open Lib FrontendProjectState

variable {D : SessionData}

/-! The condition, in terms of the state before the call and the changes. -/

/-- The source set was made from the environment of the input. -/
structure FrontendProjectState.InSync (X : Services D) (s : FrontendProjectState D) : Prop where
  keys : s.sources.stableSourceKeys = s.input.environment.stableSourceKeys
  environment : s.sources.environmentFingerprint = X.environmentFingerprint s.input.environment
  externalModules :
    s.sources.externalModulesFingerprint = X.externalModulesFingerprint s.input.environment

/-- A check fails before the text of the source is another one. -/
def TextRefused (s : FrontendProjectState D) (source : SourceId) (version : SourceVersion)
    (text : List Char → List Char × Option FrontendSessionError) : Prop :=
  (s.validateSourceVersion source version).isSome ∨ s.sourceIndex source = none ∨
    ∃ index, s.sourceIndex source = some index ∧ (text (s.textAt index)).1 = s.textAt index ∧
      ((text (s.textAt index)).2.isSome ∨ s.sourceFileIndex source = none)

def SourceChange.Refused (s : FrontendProjectState D) : SourceChange → Prop
  | .add source => source.id ∈ s.sourceIds
  | .remove source => s.sourceIndex source = none
  | .replace source version text => TextRefused s source version fun _ => (text, none)
  | .edit source version edits =>
    TextRefused s source version fun text => applyTextEdits source text edits

def ProjectChangeSet.optionsKept (X : Services D) (s : FrontendProjectState D)
    (changes : ProjectChangeSet D) : Prop :=
  changes.optionChanges = [] ∨
    X.changedOptionsHash s.optionsHash changes.revision changes.optionChanges = s.optionsHash

def ProjectChangeSet.environmentKept (s : FrontendProjectState D) (changes : ProjectChangeSet D) :
    Prop :=
  ∀ environment, changes.environmentChange = some (.replace environment) →
    environment = s.input.environment

/-- The bodies to reuse: those of the cache, unless the change is project-wide. -/
def readBodies (X : Services D) (s : FrontendProjectState D) (broad : Bool) :
    Except FrontendSessionError D.BodyArtifactReuse :=
  if broad then .ok D.noBodyReuse else X.cachedBodyArtifacts s .disabled

/-- Without changes of sources the session reads the cache: the manifest or the bodies cannot be
read, or those read are the ones pending. -/
def CacheRefused (X : Services D) (s : FrontendProjectState D) (changes : ProjectChangeSet D) :
    Prop :=
  (changes.environmentChange = none ∨ s.InSync X) ∧
    ∀ cache, X.restoreManifest s .disabled = .ok cache →
      ∀ reuse, readBodies X { s with cache := cache }
          (changes.replacesEnvironment || !changes.optionChanges.isEmpty) = .ok reuse →
        reuse = s.pendingBodyArtifactReuse

/-- The first check that fails comes before anything is changed. -/
def NothingApplied (X : Services D) (s : FrontendProjectState D) (changes : ProjectChangeSet D) :
    Prop :=
  changes.revision ≤ s.revision ∨ (checkOverlayKeys s changes).isSome ∨
    changes.optionsKept X s ∧ changes.environmentKept s ∧
      match changes.sourceChanges, changes.dependencyOverlayChanges with
      | change :: _, _ => change.Refused s
      | [], overlay :: _ => (validateOverlay s overlay).isSome
      | [], [] => CacheRefused X s changes

variable {changes : ProjectChangeSet D} {s : FrontendProjectState D} {X : Services D}

theorem startChanges_state_eq (hoptions : changes.optionsKept X s)
    (henvironment : changes.environmentKept s) : (startChanges X s changes).state = s := by
  have hhash : (startChanges X s changes).state.optionsHash = s.optionsHash := by
    unfold startChanges
    obtain hnil | hsame := hoptions
    · rw [hnil]
      rfl
    · dsimp only
      split_ifs
      · rfl
      · exact hsame
  have henv : (startChanges X s changes).state.input.environment = s.input.environment := by
    unfold startChanges
    dsimp only
    split
    · next environment heq => exact henvironment environment heq
    · rfl
  unfold startChanges at hhash henv ⊢
  dsimp only at hhash henv ⊢
  rw [hhash, henv]

theorem optionsKept_of_hash (h : (startChanges X s changes).state.optionsHash = s.optionsHash) :
    changes.optionsKept X s := by
  unfold startChanges at h
  dsimp only at h
  split_ifs at h with hnil
  · exact .inl (List.isEmpty_iff.mp hnil)
  · exact .inr h

theorem startChanges_environment {environment : EnvironmentInput D}
    (h : changes.environmentChange = some (.replace environment)) :
    (startChanges X s changes).state.input.environment = environment := by
  unfold startChanges
  dsimp only
  rw [h]

theorem overlayKeys_of_replace {environment : EnvironmentInput D}
    (h : changes.environmentChange = some (.replace environment)) : changes.overlayKeys = [] := by
  unfold ProjectChangeSet.overlayKeys
  rw [h]

theorem overlayKeys_eq_nil (hoverlays : changes.dependencyOverlayChanges = [])
    (h : checkOverlayKeys s changes = none) :
    changes.overlayKeys = [] := by
  unfold checkOverlayKeys at h
  rw [hoverlays] at h
  cases hkeys : changes.overlayKeys with
  | nil => rfl
  | cons entry keys =>
    rw [hkeys] at h
    cases h

/-! The source changes and the overlays. -/

variable {source : SourceId}

theorem setText_textAt {index : ℕ} (h : s.sourceIndex source = some index) :
    s.setText index (s.textAt index) = s := by
  obtain ⟨input, hinput, -⟩ := sourceIndex_eq_some h
  have hsources : s.input.sources.modify index
      (fun source => { source with text := s.textAt index }) = s.input.sources := by
    apply List.ext_getElem?
    intro i
    rw [List.getElem?_modify]
    split_ifs with hi
    · subst hi
      rw [hinput]
      simp [textAt, hinput]
    · simp
  unfold setText
  rw [hsources]

theorem textAt_setText {index : ℕ} (h : s.sourceIndex source = some index) (text : List Char) :
    (s.setText index text).textAt index = text := by
  obtain ⟨input, hinput, -⟩ := sourceIndex_eq_some h
  simp [textAt, setText, hinput]

variable {error : FrontendSessionError} {run : ChangeRun D}

namespace ChangeRun

variable {text : List Char → List Char × Option FrontendSessionError}

theorem changeText_refused {version : SourceVersion}
    (h : TextRefused run.state source version text) :
    ∃ error, run.changeText source version text = (run, some error) := by
  obtain ⟨-, herror⟩ | ⟨index, hvalid, hindex, hcases⟩ := run.changeText_cases source version text
  · exact herror
  · obtain hversion | hnone | ⟨index', hindex', hkept, hfails⟩ := h
    · rw [hvalid] at hversion
      cases hversion
    · rw [hindex] at hnone
      cases hnone
    · rw [hindex] at hindex'
      cases hindex'
      obtain ⟨-, error, hrun⟩ | ⟨hok, fileIndex, file, hfile, -⟩ := hcases
      · rw [hkept, setText_textAt hindex] at hrun
        exact ⟨error, hrun⟩
      · rw [hok, hfile] at hfails
        obtain hfails | hfails := hfails <;> cases hfails

theorem changeText_refused_of_same {version : SourceVersion}
    (herror : (run.changeText source version text).2 = some error)
    (hsame : (run.changeText source version text).1.state.input = run.state.input) :
    TextRefused run.state source version text := by
  obtain ⟨hversion | hnone, -⟩ | ⟨index, hvalid, hindex, hcases⟩ :=
    run.changeText_cases source version text
  · exact .inl hversion
  · exact .inr (.inl hnone)
  · obtain ⟨hfails, error', hrun⟩ | ⟨-, fileIndex, input, -, -, hrun⟩ := hcases
    · rw [hrun] at hsame
      have htext := textAt_setText hindex (text (run.state.textAt index)).1
      have hkept : run.state.textAt index = (text (run.state.textAt index)).1 := by
        calc run.state.textAt index
            = (run.state.setText index (text (run.state.textAt index)).1).textAt index :=
              congrArg (fun input : ProjectInput D =>
                (input.sources[index]?.map SourceInput.text).getD []) hsame.symm
          _ = (text (run.state.textAt index)).1 := htext
      exact .inr (.inr ⟨index, hindex, hkept.symm, hfails⟩)
    · rw [hrun] at herror
      cases herror

theorem applySourceChange_refused {change : SourceChange} (h : change.Refused run.state) :
    ∃ run' error, run.applySourceChange change = (run', some error) ∧ run'.state = run.state := by
  cases change with
  | add source =>
    have hmem := (run.state.any_id_eq source.id).mpr h
    exact ⟨run, _, if_pos hmem, rfl⟩
  | remove source =>
    have hnone : run.state.sourceIndex source = none := h
    have hrun : run.removeSource source =
        ({ run with sourceMembershipChange := true }, some (.missingSource source)) := by
      unfold removeSource
      dsimp only
      rw [hnone]
    exact ⟨_, _, hrun, rfl⟩
  | replace source version text =>
    have hrefused : TextRefused run.state source version fun _ => (text, none) := h
    obtain ⟨error, hrun⟩ := changeText_refused hrefused
    exact ⟨run, error, hrun, rfl⟩
  | edit source version edits =>
    have hrefused : TextRefused run.state source version
        fun text => applyTextEdits source text edits := h
    obtain ⟨error, hrun⟩ := changeText_refused hrefused
    exact ⟨run, error, hrun, rfl⟩

theorem applySourceChange_refused_of_same {change : SourceChange}
    (hremove : change.isRemove = false) (herror : (run.applySourceChange change).2 = some error)
    (hsame : (run.applySourceChange change).1.state.input = run.state.input) :
    change.Refused run.state := by
  cases change with
  | add source =>
    change (run.addSource source).2 = some error at herror
    unfold addSource at herror
    split at herror
    · next hmem => exact (run.state.any_id_eq source.id).mp hmem
    · cases herror
  | remove source => cases hremove
  | replace source version text => exact changeText_refused_of_same herror hsame
  | edit source version edits => exact changeText_refused_of_same herror hsame

end ChangeRun

theorem runSourceChanges_grows (run : ChangeRun D) {l : List SourceChange}
    (h : ∀ change ∈ l, change.isRemove = false) :
    run.state.Grows (runSteps ChangeRun.applySourceChange run l).1.state :=
  runSteps_keeps (p := fun r : ChangeRun D => run.state.Grows r.state)
    (fun r change hchange hr => hr.trans (r.applySourceChange_grows (h change hchange))) (.refl _)

theorem runOverlays_grows (run : ChangeRun D) (l : List DependencyOverlayChange) :
    run.state.Grows (runSteps ChangeRun.applyDependencyOverlayChange run l).1.state :=
  runSteps_keeps (p := fun r : ChangeRun D => run.state.Grows r.state)
    (fun r change _ hr => hr.trans (r.applyDependencyOverlayChange_grows change)) (.refl _)

theorem finishChanges_error (h : (finishChanges X changes run).2 = .error error) :
    (∃ cause, X.restoreManifest (refreshEnvironment X changes run) .disabled = .error cause ∧
      (finishChanges X changes run).1 = refreshEnvironment X changes run) ∨
    ∃ cache, X.restoreManifest (refreshEnvironment X changes run) .disabled = .ok cache ∧
      ((∃ cause, readBodies X { refreshEnvironment X changes run with cache := cache }
          (changes.replacesEnvironment || !changes.optionChanges.isEmpty ||
            run.sourceMembershipChange) = .error cause ∧
        (finishChanges X changes run).1 =
          { refreshEnvironment X changes run with cache := cache }) ∨
      ∃ reuse, readBodies X { refreshEnvironment X changes run with cache := cache }
          (changes.replacesEnvironment || !changes.optionChanges.isEmpty ||
            run.sourceMembershipChange) = .ok reuse ∧
        (finishChanges X changes run).1 = { refreshEnvironment X changes run with
          cache := cache
          pendingBodyArtifactReuse := reuse }) := by
  unfold finishChanges at h ⊢
  dsimp only at h ⊢
  split at h
  · next cause hrestore =>
    rw [hrestore]
    exact .inl ⟨cause, rfl, rfl⟩
  · next cache hrestore =>
    rw [hrestore]
    apply Or.inr
    refine ⟨cache, rfl, ?_⟩
    unfold readBodies
    split at h
    · next cause hreuse =>
      exact .inl ⟨cause, hreuse, rfl⟩
    · next reuse hreuse =>
      split at h
      · exact .inr ⟨reuse, hreuse, rfl⟩
      · cases h

theorem refreshEnvironment_input (X : Services D) (changes : ProjectChangeSet D)
    (run : ChangeRun D) : (refreshEnvironment X changes run).input =
      { run.state.input with environment := { run.state.input.environment with
        stableSourceKeys := run.state.input.environment.stableSourceKeys ++ changes.overlayKeys } } :=
  rfl

theorem finishChanges_error_keeps (h : (finishChanges X changes run).2 = .error error) :
    (finishChanges X changes run).1.input = (refreshEnvironment X changes run).input ∧
      (finishChanges X changes run).1.sourceVersions = run.state.sourceVersions ∧
      (finishChanges X changes run).1.optionsHash = run.state.optionsHash := by
  obtain ⟨cause, -, hstate⟩ | ⟨cache, -, ⟨cause, -, hstate⟩ | ⟨reuse, -, hstate⟩⟩ :=
    finishChanges_error h
  all_goals
    rw [hstate]
    exact ⟨rfl, rfl, rfl⟩

/-- Where a call stops. -/
theorem applyChanges_cases (X : Services D) (s : FrontendProjectState D)
    (changes : ProjectChangeSet D) :
    ((changes.revision ≤ s.revision ∨ (checkOverlayKeys s changes).isSome) ∧
      ∃ error, applyChanges X s changes = (s, .error error)) ∨
    (¬changes.revision ≤ s.revision ∧ checkOverlayKeys s changes = none ∧
      ∃ run failed,
        runSteps ChangeRun.applySourceChange (startChanges X s changes) changes.sourceChanges =
          (run, failed) ∧
        (failed.isSome ∧ (∃ error, applyChanges X s changes = (run.state, .error error)) ∨
          failed = none ∧ ∃ run' failed',
            runSteps ChangeRun.applyDependencyOverlayChange run
              changes.dependencyOverlayChanges = (run', failed') ∧
            (failed'.isSome ∧ (∃ error, applyChanges X s changes = (run'.state, .error error)) ∨
              failed' = none ∧ applyChanges X s changes = finishChanges X changes run'))) := by
  by_cases hrevision : changes.revision ≤ s.revision
  · refine .inl ⟨.inl hrevision, .nonIncreasingProjectRevision s.revision changes.revision, ?_⟩
    unfold applyChanges
    rw [if_pos hrevision]
  · cases hkeys : checkOverlayKeys s changes with
    | some cause =>
      refine .inl ⟨.inr rfl, cause, ?_⟩
      unfold applyChanges
      rw [if_neg hrevision, hkeys]
    | none =>
      refine .inr ⟨hrevision, rfl, ?_⟩
      unfold applyChanges
      rw [if_neg hrevision, hkeys]
      dsimp only
      cases hsources : runSteps ChangeRun.applySourceChange (startChanges X s changes)
        changes.sourceChanges with
      | mk run failed =>
        refine ⟨run, failed, rfl, ?_⟩
        cases failed with
        | some cause => exact .inl ⟨rfl, cause, rfl⟩
        | none =>
          refine .inr ⟨rfl, ?_⟩
          dsimp only
          cases hoverlays : runSteps ChangeRun.applyDependencyOverlayChange run
            changes.dependencyOverlayChanges with
          | mk run' failed' =>
            refine ⟨run', failed', rfl, ?_⟩
            cases failed' with
            | some cause => exact .inl ⟨rfl, cause, rfl⟩
            | none => exact .inr ⟨rfl, rfl⟩

/-- The state at the end, as far as the sources, the options and a replaced environment go. -/
structure EndsAt (changes : ProjectChangeSet D) (s s' : FrontendProjectState D) : Prop where
  hash : s'.optionsHash = s.optionsHash
  sources : s'.input.sources = s.input.sources
  versions : s'.sourceVersions = s.sourceVersions
  environment : changes.overlayKeys = [] → s'.input.environment = s.input.environment

theorem EndsAt.refl (changes : ProjectChangeSet D) (s : FrontendProjectState D) :
    EndsAt changes s s := ⟨rfl, rfl, rfl, fun _ => rfl⟩

theorem finishChanges_endsAt (h : (finishChanges X changes run).2 = .error error) :
    EndsAt changes run.state (finishChanges X changes run).1 := by
  obtain ⟨hinput, hversions, hhash⟩ := finishChanges_error_keeps h
  have hrefresh := refreshEnvironment_input X changes run
  refine ⟨hhash, ?_, hversions, ?_⟩
  · rw [hinput, hrefresh]
  · intro hkeys
    rw [hinput, hrefresh, hkeys, List.append_nil]

section Unchanged
variable {X : Services D} {s s₁ s' : FrontendProjectState D} {changes : ProjectChangeSet D}

section
variable (h : s.Unchanged s')
include h

theorem FrontendProjectState.Unchanged.eq : { s' with cache := s.cache } = s := h

theorem FrontendProjectState.Unchanged.input : s'.input = s.input :=
  (congrArg FrontendProjectState.input h.eq :)

theorem FrontendProjectState.Unchanged.sources : s'.sources = s.sources :=
  (congrArg FrontendProjectState.sources h.eq :)

theorem FrontendProjectState.Unchanged.bodies :
    s'.pendingBodyArtifactReuse = s.pendingBodyArtifactReuse :=
  (congrArg FrontendProjectState.pendingBodyArtifactReuse h.eq :)

theorem FrontendProjectState.Unchanged.hash : s'.optionsHash = s.optionsHash :=
  (congrArg FrontendProjectState.optionsHash h.eq :)

theorem FrontendProjectState.Unchanged.versions : s'.sourceVersions = s.sourceVersions :=
  (congrArg FrontendProjectState.sourceVersions h.eq :)

end

/-- A run that only adds and ends with what was there at first has not changed the options or the
environment at its start. -/
theorem kept_of_unchanged (hgrows : (startChanges X s changes).state.Grows s₁)
    (hends : EndsAt changes s₁ s') (h : s.Unchanged s') :
    changes.optionsKept X s ∧ changes.environmentKept s := by
  constructor
  · exact optionsKept_of_hash (hgrows.hash.symm.trans (hends.hash.symm.trans h.hash))
  · intro environment hreplace
    calc environment
        = (startChanges X s changes).state.input.environment :=
          (startChanges_environment hreplace).symm
      _ = s₁.input.environment := hgrows.environment.symm
      _ = s'.input.environment := (hends.environment (overlayKeys_of_replace hreplace)).symm
      _ = s.input.environment := congrArg ProjectInput.environment h.input

theorem not_outgrows_of_unchanged (hends : EndsAt changes s₁ s') (h : s.Unchanged s') :
    ¬s.Outgrows s₁ := fun houtgrows =>
  houtgrows.ne (hends.sources.symm.trans (congrArg ProjectInput.sources h.input))
    (hends.versions.symm.trans h.versions)

end Unchanged

theorem refreshEnvironment_eq (hstart : (startChanges X s changes).state = s)
    (hkeys : changes.overlayKeys = []) (hsync : changes.environmentChange = none ∨ s.InSync X) :
    refreshEnvironment X changes (startChanges X s changes) = s := by
  unfold refreshEnvironment
  rw [hkeys, List.append_nil, hstart]
  dsimp only
  obtain hnone | hsync := hsync
  · have hchanged : (startChanges X s changes).environmentChanged = false := by
      unfold startChanges
      rw [hnone]
      rfl
    rw [hchanged]
    rfl
  · split_ifs
    · change { s with sources := { s.sources with
          stableSourceKeys := s.input.environment.stableSourceKeys
          environmentFingerprint := X.environmentFingerprint s.input.environment
          externalModulesFingerprint := X.externalModulesFingerprint s.input.environment } } = s
      rw [← hsync.keys, ← hsync.environment, ← hsync.externalModules]
    · rfl

theorem inSync_of_refreshEnvironment (hstart : (startChanges X s changes).state = s)
    (hkeys : changes.overlayKeys = [])
    (h : (refreshEnvironment X changes (startChanges X s changes)).sources = s.sources) :
    changes.environmentChange = none ∨ s.InSync X := by
  cases hchange : changes.environmentChange with
  | none => exact .inl rfl
  | some change =>
    have hchanged : (startChanges X s changes).environmentChanged = true := by
      unfold startChanges
      rw [hchange]
      rfl
    unfold refreshEnvironment at h
    dsimp only at h
    rw [hchanged, if_pos rfl, hstart, hkeys, List.append_nil] at h
    refine .inr ⟨?_, ?_, ?_⟩
    · exact congrArg SourceSet.stableSourceKeys h.symm
    · exact congrArg SourceSet.environmentFingerprint h.symm
    · exact congrArg SourceSet.externalModulesFingerprint h.symm

section Directions
variable {X : Services D} {s : FrontendProjectState D} {changes : ProjectChangeSet D}
  {error : FrontendSessionError}

theorem finishChanges_unchanged (hstart : (startChanges X s changes).state = s)
    (hkeys : changes.overlayKeys = []) (h : CacheRefused X s changes)
    (herror : (finishChanges X changes (startChanges X s changes)).2 = .error error) :
    s.Unchanged (finishChanges X changes (startChanges X s changes)).1 := by
  have hrefresh := refreshEnvironment_eq hstart hkeys h.1
  obtain ⟨cause, -, hstate⟩ | ⟨cache, hrestore, ⟨cause, -, hstate⟩ | ⟨reuse, hreuse, hstate⟩⟩ :=
    finishChanges_error herror
  · rw [hstate, hrefresh]
    rfl
  · rw [hstate, hrefresh]
    rfl
  · have hsame : reuse = s.pendingBodyArtifactReuse := by
      rw [hrefresh] at hrestore hreuse
      have hmembership : (startChanges X s changes).sourceMembershipChange = false := rfl
      rw [hmembership, Bool.or_false] at hreuse
      exact h.2 cache hrestore reuse hreuse
    rw [hstate, hrefresh, hsame]
    rfl

theorem cacheRefused_of_unchanged (hstart : (startChanges X s changes).state = s)
    (hkeys : changes.overlayKeys = [])
    (herror : (finishChanges X changes (startChanges X s changes)).2 = .error error)
    (h : s.Unchanged (finishChanges X changes (startChanges X s changes)).1) :
    CacheRefused X s changes := by
  have hsources : (refreshEnvironment X changes (startChanges X s changes)).sources = s.sources := by
    rw [← h.sources]
    obtain ⟨cause, -, hstate⟩ | ⟨cache, -, ⟨cause, -, hstate⟩ | ⟨reuse, -, hstate⟩⟩ :=
      finishChanges_error herror
    all_goals rw [hstate]
  have hsync := inSync_of_refreshEnvironment hstart hkeys hsources
  have hrefresh := refreshEnvironment_eq hstart hkeys hsync
  refine ⟨hsync, ?_⟩
  intro cache hcache reuse hreuse
  have hmembership : (startChanges X s changes).sourceMembershipChange = false := rfl
  obtain ⟨cause, hrestore, -⟩ | ⟨cache', hrestore, hrest⟩ := finishChanges_error herror
  · rw [hrefresh, hcache] at hrestore
    cases hrestore
  · rw [hrefresh, hcache] at hrestore
    cases hrestore
    rw [hrefresh, hmembership, Bool.or_false] at hrest
    obtain ⟨cause, hreuse', -⟩ | ⟨reuse', hreuse', hstate⟩ := hrest
    · rw [hreuse] at hreuse'
      cases hreuse'
    · rw [hreuse] at hreuse'
      cases hreuse'
      have hbodies := h.bodies
      rw [hstate] at hbodies
      exact hbodies

theorem unchanged_of_nothingApplied (h : NothingApplied X s changes)
    (herror : (applyChanges X s changes).2 = .error error) :
    s.Unchanged (applyChanges X s changes).1 := by
  obtain ⟨-, cause, hsame⟩ | ⟨hrevision, hkeys, run, failed, hsources, hcases⟩ :=
    applyChanges_cases X s changes
  · rw [hsame]
    rfl
  · obtain hle | hkeys' | ⟨hoptions, henvironment, hfirst⟩ := h
    · exact absurd hle hrevision
    · rw [hkeys] at hkeys'
      cases hkeys'
    · have hstart := startChanges_state_eq hoptions henvironment
      cases hlist : changes.sourceChanges with
      | cons change rest =>
        rw [hlist] at hfirst hsources
        have hrefused : change.Refused (startChanges X s changes).state := by
          rw [hstart]
          exact hfirst
        obtain ⟨run', cause, hstep, hstate⟩ := ChangeRun.applySourceChange_refused hrefused
        rw [runSteps_cons_error (congrArg Prod.snd hstep), hstep] at hsources
        cases hsources
        obtain ⟨-, _, hresult⟩ | ⟨hnone, -⟩ := hcases
        · rw [hresult, hstate, hstart]
          rfl
        · cases hnone
      | nil =>
        rw [hlist] at hsources
        cases hsources
        obtain ⟨hsome, -⟩ | ⟨-, run', failed', hoverlays, hcases⟩ := hcases
        · cases hsome
        · cases hlist' : changes.dependencyOverlayChanges with
          | cons overlay rest =>
            rw [hlist, hlist'] at hfirst
            rw [hlist'] at hoverlays
            have hrefused : (validateOverlay (startChanges X s changes).state overlay).isSome := by
              rw [hstart]
              exact hfirst
            obtain ⟨cause, hvalid, hstep⟩ | ⟨hvalid, -⟩ :=
              (startChanges X s changes).applyDependencyOverlayChange_cases overlay
            · rw [runSteps_cons_error (congrArg Prod.snd hstep), hstep] at hoverlays
              cases hoverlays
              obtain ⟨-, _, hresult⟩ | ⟨hnone, -⟩ := hcases
              · rw [hresult, hstart]
                rfl
              · cases hnone
            · rw [hvalid] at hrefused
              cases hrefused
          | nil =>
            rw [hlist, hlist'] at hfirst
            rw [hlist'] at hoverlays
            cases hoverlays
            obtain ⟨hsome, -⟩ | ⟨-, hresult⟩ := hcases
            · cases hsome
            · rw [hresult] at herror ⊢
              exact finishChanges_unchanged hstart (overlayKeys_eq_nil hlist' hkeys) hfirst herror

theorem nothingApplied_of_unchanged
    (hremove : ∀ change ∈ changes.sourceChanges, change.isRemove = false)
    (herror : (applyChanges X s changes).2 = .error error)
    (h : s.Unchanged (applyChanges X s changes).1) : NothingApplied X s changes := by
  obtain ⟨hrefused, -⟩ | ⟨hrevision, hkeys, run, failed, hsources, hcases⟩ :=
    applyChanges_cases X s changes
  · obtain hrevision | hkeys := hrefused
    · exact .inl hrevision
    · exact .inr (.inl hkeys)
  · have hrun : (startChanges X s changes).state.Grows run.state := by
      have hgrows := runSourceChanges_grows (startChanges X s changes) hremove
      rwa [hsources] at hgrows
    -- the last run, and the state it ends in
    have hlast : ∃ last : ChangeRun D, run.state.Grows last.state ∧
        EndsAt changes last.state (applyChanges X s changes).1 ∧
        (failed = none → last = (runSteps ChangeRun.applyDependencyOverlayChange run
          changes.dependencyOverlayChanges).1) := by
      obtain ⟨hsome, _, hresult⟩ | ⟨-, run', failed', hoverlays, hcases⟩ := hcases
      · refine ⟨run, .refl _, hresult ▸ .refl _ _, ?_⟩
        intro hnone
        rw [hnone] at hsome
        cases hsome
      · have hgrows := runOverlays_grows run changes.dependencyOverlayChanges
        rw [hoverlays] at hgrows ⊢
        obtain ⟨-, _, hresult⟩ | ⟨-, hresult⟩ := hcases
        · exact ⟨run', hgrows, hresult ▸ .refl _ _, fun _ => rfl⟩
        · rw [hresult] at herror ⊢
          exact ⟨run', hgrows, finishChanges_endsAt herror, fun _ => rfl⟩
    obtain ⟨last, hgrows, hends, hoverlaid⟩ := hlast
    obtain ⟨hoptions, henvironment⟩ := kept_of_unchanged (hrun.trans hgrows) hends h
    have hstart := startChanges_state_eq hoptions henvironment
    refine .inr (.inr ⟨hoptions, henvironment, ?_⟩)
    cases hlist : changes.sourceChanges with
    | cons change rest =>
      rw [hlist] at hsources hremove
      have hchange := hremove change List.mem_cons_self
      cases hstep : ((startChanges X s changes).applySourceChange change).2 with
      | none =>
        rw [runSteps_cons_ok hstep] at hsources
        have hout := ChangeRun.applySourceChange_outgrows hchange hstep
        have hrest := runSourceChanges_grows
          ((startChanges X s changes).applySourceChange change).1
          fun other hother => hremove other (List.mem_cons_of_mem _ hother)
        rw [hsources] at hrest
        rw [hstart] at hout
        exact absurd (hout.trans_grows (hrest.trans hgrows)) (not_outgrows_of_unchanged hends h)
      | some cause =>
        rw [runSteps_cons_error hstep] at hsources
        cases hsources
        obtain ⟨-, _, hresult⟩ | ⟨hnone, -⟩ := hcases
        · have hinput := h.input
          rw [hresult] at hinput
          have hrefused := ChangeRun.applySourceChange_refused_of_same hchange hstep
            (hinput.trans (congrArg FrontendProjectState.input hstart.symm))
          rwa [hstart] at hrefused
        · cases hnone
    | nil =>
      rw [hlist] at hsources
      cases hsources
      obtain ⟨hsome, -⟩ | ⟨-, run', failed', hoverlays, hcases⟩ := hcases
      · cases hsome
      · cases hlist' : changes.dependencyOverlayChanges with
        | cons overlay rest =>
          rw [hlist'] at hoverlays
          obtain ⟨cause, hvalid, -⟩ | ⟨hvalid, hstep⟩ :=
            (startChanges X s changes).applyDependencyOverlayChange_cases overlay
          · rw [hstart] at hvalid
            dsimp only
            rw [hvalid]
            rfl
          · have hok := congrArg Prod.snd hstep
            have hout := ChangeRun.applyDependencyOverlayChange_outgrows hok
            have hrest := runOverlays_grows
              ((startChanges X s changes).applyDependencyOverlayChange overlay).1 rest
            have hend := hoverlaid rfl
            rw [hlist', runSteps_cons_ok hok] at hend
            rw [← hend] at hrest
            rw [hstart] at hout
            exact absurd (hout.trans_grows hrest) (not_outgrows_of_unchanged hends h)
        | nil =>
          rw [hlist'] at hoverlays
          cases hoverlays
          obtain ⟨hsome, -⟩ | ⟨-, hresult⟩ := hcases
          · cases hsome
          · rw [hresult] at herror h
            exact cacheRefused_of_unchanged hstart (overlayKeys_eq_nil hlist' hkeys) herror h

end Directions

/-- A call that fails before it changes anything leaves the project as it was; without removals
these are the only such calls. -/
theorem applyChanges_failed_unchanged_iff (X : Services D) (s : FrontendProjectState D)
    (changes : ProjectChangeSet D) (error : FrontendSessionError)
    (herror : (applyChanges X s changes).2 = .error error) :
    (NothingApplied X s changes → s.Unchanged (applyChanges X s changes).1) ∧
      ((∀ change ∈ changes.sourceChanges, change.isRemove = false) →
        s.Unchanged (applyChanges X s changes).1 → NothingApplied X s changes) :=
  ⟨fun h => unchanged_of_nothingApplied h herror,
    fun hremove h => nothingApplied_of_unchanged hremove herror h⟩

/-! A session without a cache. -/

@[reducible] def bareData : SessionData where
  EnvironmentRest := Unit
  CompileOptions := ℕ
  Cache := Unit
  InvalidationReport := Unit
  BodyArtifactReuse := Unit
  ParsedSource := Unit
  Output := Unit
  noInvalidation := ()
  noBodyReuse := ()
  bodyReuseIsEmpty := fun _ => true

def bareServices : Services bareData where
  environmentFingerprint := fun _ => ""
  externalModulesFingerprint := fun _ => ""
  optionsFingerprint := fun options => toString options
  changedOptionsHash := fun hash revision names => hash ++ toString revision ++ String.join names
  restoreManifest := fun _ _ => .ok ()
  cachedBodyArtifacts := fun _ _ => .ok ()
  cachedParsedSources := fun _ _ _ => .ok []
  invalidate := fun _ _ => .ok ((), ())
  recordManifest := fun _ _ => .ok ()
  storeArtifacts := fun _ _ _ _ => .ok ()

def bareProject (sources : List SourceInput) : FrontendProjectState bareData :=
  .new bareServices ⟨"", none, sources, ⟨[], [], ()⟩, 0⟩ ()

def bareChanges (revision : ProjectRevision) (changes : List SourceChange) :
    ProjectChangeSet bareData := ⟨revision, changes, [], none, []⟩

/-- The added source has the id of one that is there; the replacement is not reached. -/
def duplicateAdd : ProjectChangeSet bareData :=
  bareChanges 1 [.add ⟨1, none, ['x'], .sourceProjectFile⟩, .replace 2 1 ['y']]

def namedSources : FrontendProjectState bareData :=
  bareProject [⟨1, some "a", ['a'], .sourceProjectFile⟩, ⟨2, some "b", ['b'], .sourceProjectFile⟩]

theorem applyChanges_failed_unchanged_duplicate :
    (applyChanges bareServices namedSources duplicateAdd).2 = .error (.duplicateSource 1) ∧
      NothingApplied bareServices namedSources duplicateAdd ∧
      namedSources.Unchanged (applyChanges bareServices namedSources duplicateAdd).1 := by
  have herror : (applyChanges bareServices namedSources duplicateAdd).2 =
      .error (.duplicateSource 1) := rfl
  have h := applyChanges_failed_unchanged_iff bareServices _ _ _ herror
  have hunchanged := h.1 (.inr (.inr ⟨.inl rfl, nofun, List.mem_cons_self⟩))
  exact ⟨herror, h.2 (by decide) hunchanged, hunchanged⟩

/-- The source added before the failure stays. -/
theorem applyChanges_failed_keeps_added :
    (applyChanges bareServices (bareProject [])
        (bareChanges 1 [.add ⟨1, none, [], .sourceProjectFile⟩, .remove 2])).2 =
        .error (.missingSource 2) ∧
      (applyChanges bareServices (bareProject [])
        (bareChanges 1 [.add ⟨1, none, [], .sourceProjectFile⟩, .remove 2])).1.sourceIds = [1] ∧
      ¬(bareProject []).Unchanged (applyChanges bareServices (bareProject [])
        (bareChanges 1 [.add ⟨1, none, [], .sourceProjectFile⟩, .remove 2])).1 := by
  refine ⟨rfl, rfl, ?_⟩
  intro h
  have hlength := congrArg (fun input => List.length input.sources) h.input
  cases hlength

end EtasFrontend.Session
