import EtasFrontend.Session.ChangeAtomic
import EtasFrontend.Session.Check
import Mathlib.Data.List.Dedup

/-! What has changed since the last check that went through, and when the next check is told. -/
namespace EtasFrontend.Session
open Lib FrontendProjectState

variable {D : SessionData}

def SourceChange.source : SourceChange → SourceId
  | .add source => source.id
  | .remove source | .replace source _ _ | .edit source _ _ => source

def SourceChange.isMembershipChange : SourceChange → Bool
  | .add _ | .remove _ => true
  | .replace _ _ _ | .edit _ _ _ => false

namespace ProjectChangeSet

def namedSources (changes : ProjectChangeSet D) : List SourceId :=
  changes.sourceChanges.map SourceChange.source ++
    changes.dependencyOverlayChanges.flatMap fun change => change.addedSources.map SourceInput.id

def projectWide (changes : ProjectChangeSet D) : Bool :=
  changes.replacesEnvironment || !changes.optionChanges.isEmpty ||
    changes.sourceChanges.any SourceChange.isMembershipChange

end ProjectChangeSet

/-! The calls of a session. Each has its own outcomes of the cache. -/

inductive Call (D : SessionData) where
  | applyChanges (X : Services D) (changes : ProjectChangeSet D)
  | replaceCompileOptions (X : Services D) (revision : ProjectRevision) (options : D.CompileOptions)
  | check (X : Services D) (request : CheckRequest) (runPipeline : Pipeline D)

def Call.run (s : FrontendProjectState D) : Call D → FrontendProjectState D
  | .applyChanges X changes => (Session.applyChanges X s changes).1
  | .replaceCompileOptions X revision options =>
    (Session.replaceCompileOptions X s revision options).1
  | .check X request runPipeline => (s.checkWithPipeline X request runPipeline).state

/-- What has changed since the last check that went through. -/
structure Unchecked where
  sources : Set SourceId
  projectWide : Prop
  options : Prop

def Unchecked.nothing : Unchecked := ⟨∅, False, False⟩

/-- A call that fails counts if it has changed the project. -/
def Unchecked.after (s : FrontendProjectState D) (u : Unchecked) : Call D → Unchecked
  | .applyChanges X changes =>
    let applied := (∃ summary, (Session.applyChanges X s changes).2 = .ok summary) ∨
      ¬s.Unchanged (Session.applyChanges X s changes).1
    { u with
      sources := { id | id ∈ u.sources ∨ applied ∧ id ∈ changes.namedSources }
      projectWide := u.projectWide ∨ applied ∧ changes.projectWide }
  | .replaceCompileOptions X revision options =>
    { u with
      options := u.options ∨
        (Session.replaceCompileOptions X s revision options).1.input.options ≠ s.input.options }
  | .check X request runPipeline =>
    let succeeded := ∃ response, (s.checkWithPipeline X request runPipeline).result = .ok response
    { sources := { id | id ∈ u.sources ∧ ¬succeeded }
      projectWide := u.projectWide ∧ ¬succeeded
      options := u.options ∧ ¬succeeded }

structure Services.ReadsSucceed (X : Services D) : Prop where
  bodies : ∀ s access, ∃ reuse, X.cachedBodyArtifacts s access = .ok reuse
  parsed : ∀ s sources access, ∃ reuse, X.cachedParsedSources s sources access = .ok reuse

structure Services.StoresSucceed (X : Services D) : Prop where
  manifest : ∀ s output, ∃ cache, X.recordManifest s output = .ok cache
  artifacts : ∀ s output reuse access, ∃ cache, X.storeArtifacts s output reuse access = .ok cache

/-- The call neither overwrites what is pending nor drops it on its way to a failure. -/
def LosesNothing (s : FrontendProjectState D) : Call D → Prop
  | .applyChanges X changes =>
    (∀ error, (Session.applyChanges X s changes).2 = .error error → NothingApplied X s changes) ∧
      (∀ summary, (Session.applyChanges X s changes).2 = .ok summary →
        (∀ id ∈ s.pendingChangedSources, id ∈ changes.namedSources) ∧
          (s.pendingProjectWideChange → changes.projectWide))
  | .replaceCompileOptions _ revision options =>
    revision ≤ s.revision ∨ s.input.options = options ∨
      s.pendingChangedSources = [] ∧ s.pendingProjectWideChange = false
  | .check X request runPipeline =>
    (s.pendingProjectWideChange ∨ s.pendingPipelinePlanChange →
      request.incrementalEnabled ∧ X.ReadsSucceed ∧
        ∀ handed, ∃ output, runPipeline handed = .ok output) ∧
    (s.pendingProjectWideChange ∨ s.pendingPipelinePlanChange ∨ s.pendingChangedSources ≠ [] →
      X.StoresSucceed)

/-- The states of the runs in which no call loses anything, with what is unchecked there. -/
inductive LosslessRun : FrontendProjectState D → Unchecked → Prop
  | new (X : Services D) (input : ProjectInput D) (cache : D.Cache) :
    LosslessRun (.new X input cache) .nothing
  | call {s : FrontendProjectState D} {u : Unchecked} (call : Call D) (run : LosslessRun s u)
    (lossless : LosesNothing s call) : LosslessRun (call.run s) (u.after s call)

/-- The pipeline is told what is unchecked, and its failure leaves the pending fields. -/
structure CheckTold (s : FrontendProjectState D) (u : Unchecked) (X : Services D)
    (request : CheckRequest) (runPipeline : Pipeline D) (handed : FrontendPipelineRequest D) :
    Prop where
  sources : ∀ id ∈ u.sources, id ∈ handed.changedSources
  projectWide : u.projectWide → handed.projectWideChange = true
  options : u.options → handed.pipelinePlanChange = true
  failure : ∀ message, runPipeline handed = .error message →
    (s.checkWithPipeline X request runPipeline).state.pendingChangedSources =
        s.pendingChangedSources ∧
      (s.checkWithPipeline X request runPipeline).state.pendingProjectWideChange =
        s.pendingProjectWideChange ∧
      (s.checkWithPipeline X request runPipeline).state.pendingPipelinePlanChange =
        s.pendingPipelinePlanChange

/-! What is pending covers what is unchecked. -/

structure PendingCovers (s : FrontendProjectState D) (u : Unchecked) : Prop where
  sources : ∀ id ∈ u.sources, id ∈ s.pendingChangedSources
  projectWide : u.projectWide → s.pendingProjectWideChange = true
  options : u.options → s.pendingPipelinePlanChange = true

/-- The fields that say what is pending. -/
structure SamePending (s s' : FrontendProjectState D) : Prop where
  sources : s'.pendingChangedSources = s.pendingChangedSources
  projectWide : s'.pendingProjectWideChange = s.pendingProjectWideChange
  options : s'.pendingPipelinePlanChange = s.pendingPipelinePlanChange

theorem SamePending.refl (s : FrontendProjectState D) : SamePending s s := ⟨rfl, rfl, rfl⟩

theorem SamePending.trans {s s' s'' : FrontendProjectState D} (h : SamePending s s')
    (h' : SamePending s' s'') : SamePending s s'' :=
  ⟨h'.sources.trans h.sources, h'.projectWide.trans h.projectWide, h'.options.trans h.options⟩

variable {u : Unchecked}

theorem PendingCovers.of_same {s s' : FrontendProjectState D} (h : PendingCovers s u)
    (hsame : SamePending s s') : PendingCovers s' u where
  sources id hid := hsame.sources.symm ▸ h.sources id hid
  projectWide hu := hsame.projectWide.trans (h.projectWide hu)
  options hu := hsame.options.trans (h.options hu)

/-! Changes. A run of changes notes the sources it is about and whether sources come or go. -/

/-- What the run has noted of the changes made so far. -/
structure Noted (before : ChangeRun D) (done : List SourceChange) (run : ChangeRun D) : Prop where
  pending : SamePending before.state run.state
  sources : ∀ change ∈ done, change.source ∈ run.changedSources
  membership : run.sourceMembershipChange =
    (before.sourceMembershipChange || done.any SourceChange.isMembershipChange)

variable {run : ChangeRun D}

namespace ChangeRun

/-- A change that is made is noted. -/
structure NotedStep (run : ChangeRun D) (change : SourceChange) (run' : ChangeRun D) : Prop where
  pending : SamePending run.state run'.state
  sources : run'.changedSources = run.changedSources ++ [change.source]
  membership : run'.sourceMembershipChange =
    (run.sourceMembershipChange || change.isMembershipChange)

theorem addSource_noted {source : SourceInput} (h : (run.addSource source).2 = none) :
    run.NotedStep (.add source) (run.addSource source).1 := by
  unfold addSource at h ⊢
  split at h
  · cases h
  · next hnew =>
    rw [if_neg hnew]
    exact ⟨⟨rfl, rfl, rfl⟩, rfl, (Bool.or_true _).symm⟩

theorem removeSource_noted {source : SourceId} (h : (run.removeSource source).2 = none) :
    run.NotedStep (.remove source) (run.removeSource source).1 := by
  unfold removeSource at h ⊢
  dsimp only at h ⊢
  split at h
  · cases h
  · split at h
    · cases h
    · exact ⟨⟨rfl, rfl, rfl⟩, rfl, (Bool.or_true _).symm⟩

theorem changeText_noted {source : SourceId} {version : SourceVersion}
    {text : List Char → List Char × Option FrontendSessionError}
    (h : (run.changeText source version text).2 = none) :
    SamePending run.state (run.changeText source version text).1.state ∧
      (run.changeText source version text).1.changedSources = run.changedSources ++ [source] ∧
      (run.changeText source version text).1.sourceMembershipChange =
        run.sourceMembershipChange := by
  obtain ⟨-, error, hrun⟩ | ⟨index, -, -, ⟨-, error, hrun⟩ | ⟨-, fileIndex, input, -, -, hrun⟩⟩ :=
    run.changeText_cases source version text
  · rw [hrun] at h
    cases h
  · rw [hrun] at h
    cases h
  · rw [hrun]
    exact ⟨⟨rfl, rfl, rfl⟩, rfl, rfl⟩

theorem applySourceChange_noted {change : SourceChange}
    (h : (run.applySourceChange change).2 = none) :
    run.NotedStep change (run.applySourceChange change).1 := by
  cases change with
  | add source => exact addSource_noted h
  | remove source => exact removeSource_noted h
  | replace source version text =>
    obtain ⟨hpending, hsources, hmembership⟩ := changeText_noted h
    exact ⟨hpending, hsources, hmembership.trans (Bool.or_false _).symm⟩
  | edit source version edits =>
    obtain ⟨hpending, hsources, hmembership⟩ := changeText_noted h
    exact ⟨hpending, hsources, hmembership.trans (Bool.or_false _).symm⟩

end ChangeRun

theorem Noted.step {before run run' : ChangeRun D} {done : List SourceChange} {change : SourceChange}
    (h : Noted before done run) (hstep : run.NotedStep change run') :
    Noted before (done ++ [change]) run' where
  pending := h.pending.trans hstep.pending
  sources other hother := by
    rw [hstep.sources]
    obtain hother | hother := List.mem_append.mp hother
    · exact List.mem_append_left _ (h.sources other hother)
    · rw [List.mem_singleton.mp hother]
      exact List.mem_append_right _ (List.mem_singleton.mpr rfl)
  membership := by
    rw [hstep.membership, h.membership, List.any_append, Bool.or_assoc]
    simp

theorem runSourceChanges_noted {l : List SourceChange}
    (h : (runSteps ChangeRun.applySourceChange run l).2 = none) :
    Noted run l (runSteps ChangeRun.applySourceChange run l).1 := by
  have hnil : Noted run [] run := ⟨.refl _, nofun, (Bool.or_false _).symm⟩
  exact runSteps_complete (p := Noted run)
    (fun _ _ _ hnoted hok => hnoted.step (ChangeRun.applySourceChange_noted hok)) hnil h

/-- The same for overlays, which come after the source changes. -/
structure OverlaysNoted (before : ChangeRun D) (done : List DependencyOverlayChange)
    (run : ChangeRun D) : Prop where
  pending : SamePending before.state run.state
  kept : ∀ id ∈ before.changedSources, id ∈ run.changedSources
  sources : ∀ change ∈ done, ∀ source ∈ change.addedSources, source.id ∈ run.changedSources
  membership : run.sourceMembershipChange = before.sourceMembershipChange

theorem pushOverlaySources_noted (run : ChangeRun D) (sources : List SourceInput) :
    SamePending run.state (sources.foldl ChangeRun.pushOverlaySource run).state ∧
      (sources.foldl ChangeRun.pushOverlaySource run).changedSources =
        run.changedSources ++ sources.map SourceInput.id ∧
      (sources.foldl ChangeRun.pushOverlaySource run).sourceMembershipChange =
        run.sourceMembershipChange := by
  induction sources generalizing run with
  | nil => exact ⟨.refl _, (List.append_nil _).symm, rfl⟩
  | cons source sources ih =>
    obtain ⟨hpending, hsources, hmembership⟩ := ih (run.pushOverlaySource source)
    have hpush : SamePending run.state (run.pushOverlaySource source).state := ⟨rfl, rfl, rfl⟩
    refine ⟨hpush.trans hpending, ?_, hmembership⟩
    rw [List.foldl_cons, hsources, List.map_cons]
    simp [ChangeRun.pushOverlaySource]

theorem OverlaysNoted.step {before run : ChangeRun D} {done : List DependencyOverlayChange}
    {change : DependencyOverlayChange} (h : OverlaysNoted before done run)
    (hok : (run.applyDependencyOverlayChange change).2 = none) :
    OverlaysNoted before (done ++ [change]) (run.applyDependencyOverlayChange change).1 := by
  obtain ⟨error, -, hrun⟩ | ⟨-, hrun⟩ := run.applyDependencyOverlayChange_cases change
  · rw [hrun] at hok
    cases hok
  · obtain ⟨hpending, hsources, hmembership⟩ := pushOverlaySources_noted run change.addedSources
    rw [hrun]
    refine ⟨h.pending.trans hpending, ?_, ?_, hmembership.trans h.membership⟩
    · intro id hid
      dsimp only
      rw [hsources]
      exact List.mem_append_left _ (h.kept id hid)
    · intro other hother source hsource
      dsimp only
      rw [hsources]
      obtain hother | hother := List.mem_append.mp hother
      · exact List.mem_append_left _ (h.sources other hother source hsource)
      · rw [List.mem_singleton.mp hother] at hsource
        exact List.mem_append_right _ (List.mem_map_of_mem hsource)

theorem runOverlays_noted {l : List DependencyOverlayChange}
    (h : (runSteps ChangeRun.applyDependencyOverlayChange run l).2 = none) :
    OverlaysNoted run l (runSteps ChangeRun.applyDependencyOverlayChange run l).1 := by
  have hnil : OverlaysNoted run [] run := ⟨.refl _, fun _ hid => hid, nofun, rfl⟩
  exact runSteps_complete (p := OverlaysNoted run) (fun _ _ _ hnoted hok => hnoted.step hok) hnil h

theorem mem_sortedSources {id : SourceId} {l : List SourceId} : id ∈ sortedSources l ↔ id ∈ l := by
  unfold sortedSources
  rw [List.mem_dedup, List.mem_insertionSort]

variable {changes : ProjectChangeSet D} {X : Services D}

theorem finishChanges_ok {summary : ChangeSummary}
    (h : (finishChanges X changes run).2 = .ok summary) :
    (finishChanges X changes run).1.pendingChangedSources = sortedSources run.changedSources ∧
      (finishChanges X changes run).1.pendingProjectWideChange =
        (changes.replacesEnvironment || !changes.optionChanges.isEmpty ||
          run.sourceMembershipChange) ∧
      (finishChanges X changes run).1.pendingPipelinePlanChange =
        run.state.pendingPipelinePlanChange := by
  unfold finishChanges at h ⊢
  dsimp only at h ⊢
  split at h
  · cases h
  · split at h
    · cases h
    · split at h
      · cases h
      · exact ⟨rfl, rfl, rfl⟩

variable {s : FrontendProjectState D}

/-- A change set that is applied is pending as a whole. -/
theorem applyChanges_ok_pending {summary : ChangeSummary}
    (h : (applyChanges X s changes).2 = .ok summary) :
    (∀ id ∈ changes.namedSources, id ∈ (applyChanges X s changes).1.pendingChangedSources) ∧
      (applyChanges X s changes).1.pendingProjectWideChange = changes.projectWide ∧
      (applyChanges X s changes).1.pendingPipelinePlanChange = s.pendingPipelinePlanChange := by
  obtain ⟨-, error, hresult⟩ | ⟨-, -, run, failed, hsources, hcases⟩ := applyChanges_cases X s changes
  · rw [hresult] at h
    cases h
  · obtain ⟨-, error, hresult⟩ | ⟨rfl, run', failed', hoverlays, hcases⟩ := hcases
    · rw [hresult] at h
      cases h
    · obtain ⟨-, error, hresult⟩ | ⟨rfl, hresult⟩ := hcases
      · rw [hresult] at h
        cases h
      · have hnoted := runSourceChanges_noted (congrArg Prod.snd hsources)
        have hnoted' := runOverlays_noted (congrArg Prod.snd hoverlays)
        rw [hsources] at hnoted
        rw [hoverlays] at hnoted'
        rw [hresult] at h ⊢
        obtain ⟨hchanged, hwide, hplan⟩ := finishChanges_ok h
        refine ⟨?_, ?_, ?_⟩
        · intro id hid
          rw [hchanged, mem_sortedSources]
          obtain hid | hid := List.mem_append.mp hid
          · obtain ⟨change, hchange, rfl⟩ := List.mem_map.mp hid
            exact hnoted'.kept _ (hnoted.sources change hchange)
          · obtain ⟨change, hchange, hid⟩ := List.mem_flatMap.mp hid
            obtain ⟨source, hsource, rfl⟩ := List.mem_map.mp hid
            exact hnoted'.sources change hchange source hsource
        · rw [hwide, hnoted'.membership, hnoted.membership]
          rfl
        · rw [hplan]
          exact (hnoted.pending.trans hnoted'.pending).options

/-- Nothing happens to what is pending, or other options replace it. -/
theorem replaceCompileOptions_cases (X : Services D) (s : FrontendProjectState D)
    (revision : ProjectRevision) (options : D.CompileOptions) :
    (SamePending s (replaceCompileOptions X s revision options).1 ∧
      (replaceCompileOptions X s revision options).1.input = s.input) ∨
    (¬revision ≤ s.revision ∧ s.input.options ≠ options ∧
      (replaceCompileOptions X s revision options).1.pendingPipelinePlanChange = true) := by
  unfold replaceCompileOptions
  split
  · exact .inl ⟨.refl s, rfl⟩
  · next hrevision =>
    split
    · exact .inl ⟨⟨rfl, rfl, rfl⟩, rfl⟩
    · next hoptions =>
      split
      · exact .inl ⟨.refl s, rfl⟩
      · dsimp only
        split
        · exact .inl ⟨⟨rfl, rfl, rfl⟩, rfl⟩
        · split
          · exact .inl ⟨⟨rfl, rfl, rfl⟩, rfl⟩
          · split
            · exact .inl ⟨⟨rfl, rfl, rfl⟩, rfl⟩
            · exact .inr ⟨hrevision, hoptions, rfl⟩

section Check
variable {X : Services D} {s : FrontendProjectState D} {request : CheckRequest}

theorem takeBodyArtifactReuse_samePending (X : Services D) (s : FrontendProjectState D)
    (reuse : Bool) (access : DiskCacheAccess) :
    SamePending s (s.takeBodyArtifactReuse X reuse access).1 := by
  unfold takeBodyArtifactReuse
  dsimp only
  split
  · split <;> exact ⟨rfl, rfl, rfl⟩
  · exact ⟨rfl, rfl, rfl⟩

theorem takeParsedSourceReuse_samePending (X : Services D) (s : FrontendProjectState D)
    (reuse : Bool) (access : DiskCacheAccess) :
    SamePending s (s.takeParsedSourceReuse X reuse access).1 := by
  unfold takeParsedSourceReuse
  dsimp only
  split
  · split <;> exact ⟨rfl, rfl, rfl⟩
  · exact ⟨rfl, rfl, rfl⟩

theorem takeBodyArtifactReuse_ok (h : X.ReadsSucceed) (s : FrontendProjectState D) (reuse : Bool)
    (access : DiskCacheAccess) : ∃ bodies, (s.takeBodyArtifactReuse X reuse access).2 = .ok bodies := by
  unfold takeBodyArtifactReuse
  dsimp only
  split
  · split
    · exact h.bodies _ _
    · exact ⟨_, rfl⟩
  · exact ⟨_, rfl⟩

theorem takeParsedSourceReuse_ok (h : X.ReadsSucceed) (s : FrontendProjectState D) (reuse : Bool)
    (access : DiskCacheAccess) : ∃ parsed, (s.takeParsedSourceReuse X reuse access).2 = .ok parsed := by
  unfold takeParsedSourceReuse
  dsimp only
  split
  · split
    · exact h.parsed _ _ _
    · exact ⟨_, rfl⟩
  · exact ⟨_, rfl⟩

/-- The state before the pipeline runs: nothing has happened, or the flags are taken. -/
theorem prepareCheck_cases (X : Services D) (s : FrontendProjectState D) (request : CheckRequest) :
    (∃ error, s.prepareCheck X request = (s, .error error)) ∨
    SamePending s.takeFlags (s.prepareCheck X request).1 ∧
      (X.ReadsSucceed → ∃ handed, (s.prepareCheck X request).2 = .ok handed) ∧
      ∀ handed, (s.prepareCheck X request).2 = .ok handed →
        handed.changedSources = s.pendingChangedSources ∧
        handed.projectWideChange = (request.incrementalEnabled && s.pendingProjectWideChange) ∧
        handed.pipelinePlanChange = (request.incrementalEnabled && s.pendingPipelinePlanChange) := by
  unfold prepareCheck
  dsimp only
  split
  · next error _ => exact .inl ⟨error, rfl⟩
  · next cache _ =>
    apply Or.inr
    generalize hreuse : (request.incrementalEnabled && request.memoryArtifactReuseEnabled &&
      !(request.incrementalEnabled && s.pendingProjectWideChange)) = reuse
    have hflags : SamePending s.takeFlags { s with cache := cache }.takeFlags := ⟨rfl, rfl, rfl⟩
    have hbodies := hflags.trans (takeBodyArtifactReuse_samePending X
      { s with cache := cache }.takeFlags reuse request.diskArtifactAccess)
    have hbodiesOk := fun h : X.ReadsSucceed => takeBodyArtifactReuse_ok h
      { s with cache := cache }.takeFlags reuse request.diskArtifactAccess
    generalize takeBodyArtifactReuse X { s with cache := cache }.takeFlags reuse
      request.diskArtifactAccess = taken at hbodies hbodiesOk ⊢
    cases taken with
    | mk s₁ bodies =>
      cases bodies with
      | error cause =>
        refine ⟨hbodies, ?_, nofun⟩
        intro h
        obtain ⟨bodies, hbodies⟩ := hbodiesOk h
        cases hbodies
      | ok bodies =>
        have hparsed := hbodies.trans (takeParsedSourceReuse_samePending X s₁ reuse
          request.diskArtifactAccess)
        have hparsedOk := fun h : X.ReadsSucceed => takeParsedSourceReuse_ok h s₁ reuse
          request.diskArtifactAccess
        dsimp only
        generalize takeParsedSourceReuse X s₁ reuse request.diskArtifactAccess = taken
          at hparsed hparsedOk ⊢
        cases taken with
        | mk s₂ parsed =>
          cases parsed with
          | error cause =>
            refine ⟨hparsed, ?_, nofun⟩
            intro h
            obtain ⟨parsed, hparsed⟩ := hparsedOk h
            cases hparsed
          | ok parsed =>
            refine ⟨hparsed, fun _ => ⟨_, rfl⟩, ?_⟩
            intro handed hhanded
            cases hhanded
            exact ⟨hparsed.sources, rfl, rfl⟩

theorem finishCheck_ok (h : X.StoresSucceed) (s : FrontendProjectState D) (request : CheckRequest)
    (wide : Bool) (output : D.Output) :
    ∃ response, (s.finishCheck X request wide output).2 = .ok response := by
  obtain ⟨cache, hmanifest⟩ := h.manifest
    { s with pendingChangedSources := [], pendingInvalidation := D.noInvalidation } output
  unfold finishCheck
  dsimp only
  rw [hmanifest]
  dsimp only
  split
  · next error herror =>
    split at herror
    · obtain ⟨cache', hstored⟩ := h.artifacts _ output _ request.diskArtifactAccess
      rw [hstored] at herror
      cases herror
    · cases herror
  · exact ⟨_, rfl⟩

/-- A check stops before the flags are taken, or fails after that, or goes through. -/
theorem checkWithPipeline_cases (X : Services D) (s : FrontendProjectState D)
    (request : CheckRequest) (runPipeline : Pipeline D) :
    ((s.checkWithPipeline X request runPipeline).state = s ∧
      (s.checkWithPipeline X request runPipeline).handed = none) ∨
    ((s.checkWithPipeline X request runPipeline).handed = none ∧ ¬X.ReadsSucceed ∧
      SamePending s.takeFlags (s.checkWithPipeline X request runPipeline).state) ∨
    ∃ handed, (s.checkWithPipeline X request runPipeline).handed = some handed ∧
      handed.changedSources = s.pendingChangedSources ∧
      handed.projectWideChange = (request.incrementalEnabled && s.pendingProjectWideChange) ∧
      handed.pipelinePlanChange = (request.incrementalEnabled && s.pendingPipelinePlanChange) ∧
      ((∃ message, runPipeline handed = .error message) ∧
          SamePending s.takeFlags (s.checkWithPipeline X request runPipeline).state ∨
        (∃ output, runPipeline handed = .ok output) ∧
          (X.StoresSucceed →
            ∃ response, (s.checkWithPipeline X request runPipeline).result = .ok response)) := by
  unfold checkWithPipeline
  obtain ⟨error, hprepare⟩ | ⟨hsame, hreads, hhanded⟩ := prepareCheck_cases X s request
  · rw [hprepare]
    exact .inl ⟨rfl, rfl⟩
  · apply Or.inr
    cases hprepare : s.prepareCheck X request with
    | mk s₁ prepared =>
      rw [hprepare] at hsame hreads hhanded
      cases prepared with
      | error cause =>
        refine .inl ⟨rfl, ?_, hsame⟩
        intro h
        obtain ⟨handed, hnever⟩ := hreads h
        cases hnever
      | ok handed =>
        obtain ⟨hsources, hwide, hplan⟩ := hhanded handed rfl
        apply Or.inr
        dsimp only
        cases hrun : runPipeline handed with
        | error message =>
          exact ⟨handed, rfl, hsources, hwide, hplan, .inl ⟨⟨message, hrun⟩, hsame⟩⟩
        | ok output =>
          exact ⟨handed, rfl, hsources, hwide, hplan, .inr ⟨⟨output, hrun⟩, fun h =>
            finishCheck_ok h s₁ request handed.projectWideChange output⟩⟩

theorem takeFlags_samePending
    (h : ¬(s.pendingProjectWideChange = true ∨ s.pendingPipelinePlanChange = true)) :
    SamePending s s.takeFlags := by
  rw [not_or, Bool.not_eq_true, Bool.not_eq_true] at h
  exact ⟨rfl, h.1.symm, h.2.symm⟩

end Check

/-! Each call, and every run. -/

theorem PendingCovers.applyChanges (h : PendingCovers s u)
    (hlossless : LosesNothing s (.applyChanges X changes)) :
    PendingCovers (Session.applyChanges X s changes).1 (u.after s (.applyChanges X changes)) := by
  cases hresult : (Session.applyChanges X s changes).2 with
  | error error =>
    have hunchanged := unchanged_of_nothingApplied (hlossless.1 error hresult) hresult
    have happlied : ¬((∃ summary, (Session.applyChanges X s changes).2 = .ok summary) ∨
        ¬s.Unchanged (Session.applyChanges X s changes).1) := by
      rintro (⟨summary, hok⟩ | hchanged)
      · rw [hresult] at hok
        cases hok
      · exact hchanged hunchanged
    have hsame : SamePending s (Session.applyChanges X s changes).1 :=
      ⟨(congrArg FrontendProjectState.pendingChangedSources hunchanged.eq :),
        (congrArg FrontendProjectState.pendingProjectWideChange hunchanged.eq :),
        (congrArg FrontendProjectState.pendingPipelinePlanChange hunchanged.eq :)⟩
    have hcovers := h.of_same hsame
    refine ⟨?_, ?_, hcovers.options⟩
    · rintro id (hid | ⟨hnow, -⟩)
      · exact hcovers.sources id hid
      · exact absurd hnow happlied
    · rintro (hwide | ⟨hnow, -⟩)
      · exact hcovers.projectWide hwide
      · exact absurd hnow happlied
  | ok summary =>
    obtain ⟨hnamed, hwide, hplan⟩ := applyChanges_ok_pending hresult
    obtain ⟨hsources, hcoversWide⟩ := hlossless.2 summary hresult
    refine ⟨?_, ?_, ?_⟩
    · rintro id (hid | ⟨-, hid⟩)
      · exact hnamed id (hsources id (h.sources id hid))
      · exact hnamed id hid
    · rintro (hbefore | ⟨-, hnow⟩)
      · exact hwide.trans (hcoversWide (h.projectWide hbefore))
      · exact hwide.trans hnow
    · intro hoptions
      exact hplan.trans (h.options hoptions)

theorem PendingCovers.replaceCompileOptions {revision : ProjectRevision}
    {options : D.CompileOptions} (h : PendingCovers s u)
    (hlossless : LosesNothing s (.replaceCompileOptions X revision options)) :
    PendingCovers (Session.replaceCompileOptions X s revision options).1
      (u.after s (.replaceCompileOptions X revision options)) := by
  obtain ⟨hsame, hinput⟩ | ⟨hrevision, hoptions, hplan⟩ :=
    replaceCompileOptions_cases X s revision options
  · have hcovers := h.of_same hsame
    refine ⟨hcovers.sources, hcovers.projectWide, ?_⟩
    rintro (hbefore | hnow)
    · exact hcovers.options hbefore
    · exact absurd (congrArg ProjectInput.options hinput) hnow
  · obtain hle | heq | ⟨hsources, hwide⟩ := hlossless
    · exact absurd hle hrevision
    · exact absurd heq hoptions
    · refine ⟨?_, ?_, fun _ => hplan⟩
      · intro id hid
        have hnone := h.sources id hid
        rw [hsources] at hnone
        cases hnone
      · intro hbefore
        have hnone := h.projectWide hbefore
        rw [hwide] at hnone
        cases hnone

section CheckRun
variable {s : FrontendProjectState D} {u : Unchecked} {X : Services D} {request : CheckRequest}
  {runPipeline : Pipeline D}

theorem PendingCovers.of_nothing {s' : FrontendProjectState D} (h : PendingCovers s u)
    (hflags : ¬(s.pendingProjectWideChange = true ∨ s.pendingPipelinePlanChange = true))
    (hsources : s.pendingChangedSources = []) : PendingCovers s' u := by
  refine ⟨?_, ?_, ?_⟩
  · intro id hid
    have hnone := h.sources id hid
    rw [hsources] at hnone
    cases hnone
  · exact fun hwide => absurd (.inl (h.projectWide hwide)) hflags
  · exact fun hoptions => absurd (.inr (h.options hoptions)) hflags

theorem PendingCovers.after_check {s' : FrontendProjectState D} (h : PendingCovers s' u) :
    PendingCovers s' (u.after s (.check X request runPipeline)) :=
  ⟨fun id hid => h.sources id hid.1, fun hwide => h.projectWide hwide.1,
    fun hoptions => h.options hoptions.1⟩

theorem PendingCovers.check (h : PendingCovers s u)
    (hlossless : LosesNothing s (.check X request runPipeline)) :
    PendingCovers (s.checkWithPipeline X request runPipeline).state
      (u.after s (.check X request runPipeline)) := by
  obtain ⟨hflags, hstores⟩ := hlossless
  obtain ⟨hstate, -⟩ | ⟨-, hreads, hsame⟩ | ⟨handed, -, -, -, -, hfinish⟩ :=
    checkWithPipeline_cases X s request runPipeline
  · rw [hstate]
    exact h.after_check
  · have hnone := fun hpending => hreads (hflags hpending).2.1
    exact (h.of_same ((takeFlags_samePending hnone).trans hsame)).after_check
  · obtain ⟨⟨message, hfails⟩, hsame⟩ | ⟨-, hok⟩ := hfinish
    · have hnone : ¬(s.pendingProjectWideChange = true ∨ s.pendingPipelinePlanChange = true) := by
        intro hpending
        obtain ⟨output, hsucceeds⟩ := (hflags hpending).2.2 handed
        rw [hfails] at hsucceeds
        cases hsucceeds
      exact (h.of_same ((takeFlags_samePending hnone).trans hsame)).after_check
    · by_cases hstored : X.StoresSucceed
      · have hsucceeded := hok hstored
        exact ⟨fun id hid => absurd hsucceeded hid.2, fun hwide => absurd hsucceeded hwide.2,
          fun hoptions => absurd hsucceeded hoptions.2⟩
      · have hnone : ¬(s.pendingProjectWideChange = true ∨ s.pendingPipelinePlanChange = true) :=
          fun hpending => hstored (hstores (hpending.imp_right .inl))
        have hsources : s.pendingChangedSources = [] := by
          by_contra hne
          exact hstored (hstores (.inr (.inr hne)))
        exact (h.of_nothing hnone hsources).after_check

theorem PendingCovers.told (h : PendingCovers s u)
    (hlossless : LosesNothing s (.check X request runPipeline))
    {handed : FrontendPipelineRequest D}
    (hhanded : (s.checkWithPipeline X request runPipeline).handed = some handed) :
    CheckTold s u X request runPipeline handed := by
  obtain ⟨hflags, -⟩ := hlossless
  obtain ⟨-, hnone⟩ | ⟨hnone, -⟩ | ⟨handed', hsome, hsources, hwide, hplan, hfinish⟩ :=
    checkWithPipeline_cases X s request runPipeline
  · rw [hnone] at hhanded
    cases hhanded
  · rw [hnone] at hhanded
    cases hhanded
  · rw [hsome] at hhanded
    cases hhanded
    refine ⟨?_, ?_, ?_, ?_⟩
    · intro id hid
      rw [hsources]
      exact h.sources id hid
    · intro hchanged
      have hpending := h.projectWide hchanged
      rw [hwide, hpending, (hflags (.inl hpending)).1]
      rfl
    · intro hchanged
      have hpending := h.options hchanged
      rw [hplan, hpending, (hflags (.inr hpending)).1]
      rfl
    · intro message hfails
      have hnone : ¬(s.pendingProjectWideChange = true ∨ s.pendingPipelinePlanChange = true) := by
        intro hpending
        obtain ⟨output, hsucceeds⟩ := (hflags hpending).2.2 handed
        rw [hfails] at hsucceeds
        cases hsucceeds
      obtain ⟨-, hsame⟩ | ⟨⟨output, hsucceeds⟩, -⟩ := hfinish
      · have hkept := (takeFlags_samePending hnone).trans hsame
        exact ⟨hkept.sources, hkept.projectWide, hkept.options⟩
      · rw [hfails] at hsucceeds
        cases hsucceeds

end CheckRun

theorem LosslessRun.pendingCovers (h : LosslessRun s u) : PendingCovers s u := by
  induction h with
  | new X input cache => exact ⟨nofun, nofun, nofun⟩
  | call call run lossless ih =>
    cases call with
    | applyChanges X changes => exact ih.applyChanges lossless
    | replaceCompileOptions X revision options => exact ih.replaceCompileOptions lossless
    | check X request runPipeline => exact ih.check lossless

/-- In a run in which no call loses anything, every check tells the pipeline all that has changed
since the last check that went through. -/
theorem check_told_of_lossless (s : FrontendProjectState D) (u : Unchecked)
    (hrun : LosslessRun s u) (X : Services D) (request : CheckRequest) (runPipeline : Pipeline D)
    (hlossless : LosesNothing s (.check X request runPipeline))
    (handed : FrontendPipelineRequest D)
    (hhanded : (s.checkWithPipeline X request runPipeline).handed = some handed) :
    CheckTold s u X request runPipeline handed :=
  hrun.pendingCovers.told hlossless hhanded

/-! A project of two sources. -/

def twoSources : FrontendProjectState bareData :=
  bareProject [⟨1, none, [], .sourceProjectFile⟩, ⟨2, none, [], .sourceProjectFile⟩]

def replaceText (revision : ProjectRevision) (source : SourceId) : Call bareData :=
  .applyChanges bareServices (bareChanges revision [.replace source 1 ['a']])

def incrementalRequest : CheckRequest :=
  ⟨.incremental, .fullProject, .disabled, .enabled, .incremental, false⟩

theorem check_told_after_replaceText :
    LosslessRun ((replaceText 1 1).run twoSources)
        (Unchecked.nothing.after twoSources (replaceText 1 1)) ∧
      ∀ handed, (((replaceText 1 1).run twoSources).checkWithPipeline bareServices
        incrementalRequest fun _ => .ok ()).handed = some handed →
        CheckTold ((replaceText 1 1).run twoSources)
          (Unchecked.nothing.after twoSources (replaceText 1 1)) bareServices incrementalRequest
          (fun _ => .ok ()) handed := by
  have happlied : ∃ summary, (applyChanges bareServices twoSources
      (bareChanges 1 [.replace 1 1 ['a']])).2 = .ok summary := ⟨⟨1, [1], [], []⟩, rfl⟩
  have hlossless : LosesNothing twoSources (replaceText 1 1) := by
    refine ⟨?_, fun _ _ => ⟨nofun, nofun⟩⟩
    intro error herror
    obtain ⟨summary, hok⟩ := happlied
    rw [hok] at herror
    cases herror
  have hrun := LosslessRun.call (replaceText 1 1) (.new bareServices _ ()) hlossless
  have hcheck : LosesNothing ((replaceText 1 1).run twoSources)
      (.check bareServices incrementalRequest fun _ => .ok ()) := by
    refine ⟨fun _ => ⟨rfl, ⟨?_, ?_⟩, ?_⟩, fun _ => ⟨?_, ?_⟩⟩
    · exact fun _ _ => ⟨(), rfl⟩
    · exact fun _ _ _ => ⟨[], rfl⟩
    · exact fun _ => ⟨(), rfl⟩
    · exact fun _ _ => ⟨(), rfl⟩
    · exact fun _ _ _ _ => ⟨(), rfl⟩
  exact ⟨hrun, fun handed hhanded =>
    check_told_of_lossless _ _ hrun bareServices incrementalRequest _ hcheck handed hhanded⟩

/-- The second change set overwrites what the first has left pending: source 1 is unchecked, and
the pipeline is told of source 2 only. -/
theorem check_not_told_of_first_change :
    1 ∈ ((Unchecked.nothing.after twoSources (replaceText 1 1)).after
        ((replaceText 1 1).run twoSources) (replaceText 2 2)).sources ∧
      ((((replaceText 2 2).run ((replaceText 1 1).run twoSources)).checkWithPipeline bareServices
        incrementalRequest fun _ => .ok ()).handed.map FrontendPipelineRequest.changedSources) =
        some [2] := by
  have happlied : ∃ summary, (applyChanges bareServices twoSources
      (bareChanges 1 [.replace 1 1 ['a']])).2 = .ok summary := ⟨⟨1, [1], [], []⟩, rfl⟩
  exact ⟨.inl (.inr ⟨.inl happlied, List.mem_singleton.mpr rfl⟩), rfl⟩

end EtasFrontend.Session
