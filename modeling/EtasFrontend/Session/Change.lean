import EtasFrontend.Session.Project
import Mathlib.Algebra.GroupWithZero.Nat

/-! Applying a set of changes to a project: the checks and the changes follow each other, one change
at a time. -/
namespace EtasFrontend.Session
open Lib

variable {D : SessionData}

structure TextEdit where
  start : ℕ
  stop : ℕ
  replacement : List Char

inductive SourceChange where
  | add (source : SourceInput)
  | remove (source : SourceId)
  | replace (source : SourceId) (version : SourceVersion) (text : List Char)
  | edit (source : SourceId) (version : SourceVersion) (edits : List TextEdit)

structure DependencyOverlayChange where
  package : ExternalPackageId
  importRoot : String
  addedSources : List SourceInput

inductive EnvironmentChange (D : SessionData) where
  | replace (environment : EnvironmentInput D)
  | addOverlaySourceKeys (keys : List StableSourceKeyInput)

structure ProjectChangeSet (D : SessionData) where
  revision : ProjectRevision
  sourceChanges : List SourceChange
  dependencyOverlayChanges : List DependencyOverlayChange
  environmentChange : Option (EnvironmentChange D)
  /-- The names of the options. -/
  optionChanges : List String

structure ChangeSummary where
  revision : ProjectRevision
  changedSources : List SourceId
  addedSources : List SourceId
  removedSources : List SourceId

/-! Text edits. Offsets count bytes. -/

def byteLength (text : List Char) : ℕ := (text.map Char.utf8Size).sum

/-- The text before and after an offset, if the offset is at a character boundary. -/
def splitAtByte : ℕ → List Char → Option (List Char × List Char)
  | 0, text => some ([], text)
  | _ + 1, [] => none
  | n + 1, c :: text =>
    if c.utf8Size ≤ n + 1 then
      (splitAtByte (n + 1 - c.utf8Size) text).map fun parts => (c :: parts.1, parts.2)
    else none

/-- `replace_range`, with the check of the range. -/
def applyTextEdit (source : SourceId) (text : List Char) (edit : TextEdit) :
    List Char × Option FrontendSessionError :=
  let invalid := (text, some (.invalidTextEdit source edit.start edit.stop (byteLength text)))
  if edit.start > edit.stop then invalid
  else
    match splitAtByte edit.start text, splitAtByte edit.stop text with
    | some before, some after => (before.1 ++ edit.replacement ++ after.2, none)
    | _, _ => invalid

/-- From the last edit to the first; the edits made before a bad one stay. -/
def applyTextEdits (source : SourceId) (text : List Char) (edits : List TextEdit) :
    List Char × Option FrontendSessionError :=
  runSteps (applyTextEdit source) text
    (edits.insertionSort fun a b => a.start ≤ b.start).reverse

/-- The state together with what the call reports about it. -/
structure ChangeRun (D : SessionData) where
  state : FrontendProjectState D
  addedSources : List SourceId
  removedSources : List SourceId
  changedSources : List SourceId
  sourceMembershipChange : Bool
  environmentChanged : Bool

namespace FrontendProjectState

def pushSource (s : FrontendProjectState D) (source : SourceInput) : FrontendProjectState D :=
  { s with
    sourceVersions := s.sourceVersions.insert source.id 0
    sources := { s.sources with files := s.sources.files ++ [.fromInput source] }
    input := { s.input with sources := s.input.sources ++ [source] } }

/-- The text of the source at a position of the input. -/
def textAt (s : FrontendProjectState D) (index : ℕ) : List Char :=
  (s.input.sources[index]?.map SourceInput.text).getD []

def setText (s : FrontendProjectState D) (index : ℕ) (text : List Char) : FrontendProjectState D :=
  { s with
    input := { s.input with sources := s.input.sources.modify index fun source =>
      { source with text := text } } }

def setFile (s : FrontendProjectState D) (index : ℕ) (file : SourceFile) : FrontendProjectState D :=
  { s with sources := { s.sources with files := s.sources.files.set index file } }

/-- `replace_source_file` for the source at a position of the input. -/
def replaceSourceFile (s : FrontendProjectState D) (index : ℕ) :
    FrontendProjectState D × Option FrontendSessionError :=
  match s.input.sources[index]? with
  | none => (s, none)
  | some source =>
    match s.sourceFileIndex source.id with
    | none => (s, some (.missingSource source.id))
    | some fileIndex => (s.setFile fileIndex (.fromInput source), none)

def validateSourceVersion (s : FrontendProjectState D) (source : SourceId)
    (requested : SourceVersion) : Option FrontendSessionError :=
  match s.sourceVersions.get source with
  | none => some (.missingSource source)
  | some current =>
    if requested ≤ current then some (.nonIncreasingSourceVersion source current requested) else none

end FrontendProjectState

namespace ChangeRun

def addSource (run : ChangeRun D) (source : SourceInput) :
    ChangeRun D × Option FrontendSessionError :=
  if run.state.input.sources.any fun existing => existing.id == source.id then
    (run, some (.duplicateSource source.id))
  else
    ({ run with
      state := run.state.pushSource source
      addedSources := run.addedSources ++ [source.id]
      changedSources := run.changedSources ++ [source.id]
      sourceMembershipChange := true }, none)

def removeSource (run : ChangeRun D) (source : SourceId) :
    ChangeRun D × Option FrontendSessionError :=
  let run := { run with sourceMembershipChange := true }
  match run.state.sourceIndex source with
  | none => (run, some (.missingSource source))
  | some index =>
    let environment := run.state.input.environment
    let packages := environment.standaloneSourcePackages.filter fun entry => entry.source != source
    let keys := environment.stableSourceKeys.filter fun entry => entry.source != source
    let run := { run with
      state := { run.state with
        input := { run.state.input with
          sources := run.state.input.sources.eraseIdx index
          environment := { environment with
            standaloneSourcePackages := packages
            stableSourceKeys := keys } } }
      environmentChanged := run.environmentChanged ||
        packages.length != environment.standaloneSourcePackages.length ||
        keys.length != environment.stableSourceKeys.length }
    match run.state.sourceFileIndex source with
    | none => (run, some (.missingSource source))
    | some fileIndex =>
      ({ run with
        state := { run.state with
          sources := { run.state.sources with files := run.state.sources.files.eraseIdx fileIndex }
          sourceVersions := run.state.sourceVersions.remove source }
        removedSources := run.removedSources ++ [source]
        changedSources := run.changedSources ++ [source] }, none)

/-- The common part of a replacement and an edit: `text` gives the new text and whether the change
of the text failed. -/
def changeText (run : ChangeRun D) (source : SourceId) (version : SourceVersion)
    (text : List Char → List Char × Option FrontendSessionError) :
    ChangeRun D × Option FrontendSessionError :=
  match run.state.validateSourceVersion source version with
  | some error => (run, some error)
  | none =>
    match run.state.sourceIndex source with
    | none => (run, some (.missingSource source))
    | some index =>
      let changed := text (run.state.textAt index)
      let run := { run with state := run.state.setText index changed.1 }
      match changed.2 with
      | some error => (run, some error)
      | none =>
        match run.state.replaceSourceFile index with
        | (state, some error) => ({ run with state }, some error)
        | (state, none) =>
          ({ run with
            state := { state with sourceVersions := state.sourceVersions.insert source version }
            changedSources := run.changedSources ++ [source] }, none)

def applySourceChange (run : ChangeRun D) : SourceChange → ChangeRun D × Option FrontendSessionError
  | .add source => run.addSource source
  | .remove source => run.removeSource source
  | .replace source version text => run.changeText source version fun _ => (text, none)
  | .edit source version edits =>
    run.changeText source version fun text => applyTextEdits source text edits

end ChangeRun

/-! Dependency overlays: all of one overlay is checked before any of it is added. -/

def validateOverlaySource (s : FrontendProjectState D) (change : DependencyOverlayChange)
    (batch : List SourceId × List String) (source : SourceInput) :
    (List SourceId × List String) × Option FrontendSessionError :=
  let mismatch : Option FrontendSessionError :=
    match source.kind with
    | .dependencySourceOverlay package importRoot =>
      if package = change.package ∧ importRoot = change.importRoot then none
      else some (.mismatchedDependencyOverlaySource source.id change.package change.importRoot)
    | _ => some (.invalidDependencyOverlaySource source.id)
  match mismatch with
  | some error => (batch, some error)
  | none =>
    if batch.1.contains source.id || s.input.sources.any fun existing => existing.id == source.id then
      (batch, some (.duplicateSource source.id))
    else
      let batch := (source.id :: batch.1, batch.2)
      match source.path with
      | none => (batch, none)
      | some path =>
        if batch.2.contains path || s.input.sources.any fun existing => existing.path == some path then
          (batch, some (.duplicateSourcePath path))
        else ((batch.1, path :: batch.2), none)

def validateOverlay (s : FrontendProjectState D) (change : DependencyOverlayChange) :
    Option FrontendSessionError :=
  if change.addedSources.isEmpty then
    some (.emptyDependencyOverlay change.package change.importRoot)
  else (runSteps (validateOverlaySource s change) ([], []) change.addedSources).2

def ChangeRun.applyDependencyOverlayChange (run : ChangeRun D) (change : DependencyOverlayChange) :
    ChangeRun D × Option FrontendSessionError :=
  match validateOverlay run.state change with
  | some error => (run, some error)
  | none =>
    (change.addedSources.foldl (fun run source =>
      { run with
        state := run.state.pushSource source
        addedSources := run.addedSources ++ [source.id]
        changedSources := run.changedSources ++ [source.id] }) run, none)

namespace ProjectChangeSet

def replacesEnvironment (changes : ProjectChangeSet D) : Bool :=
  match changes.environmentChange with
  | some (.replace _) => true
  | _ => false

def overlayKeys (changes : ProjectChangeSet D) : List StableSourceKeyInput :=
  match changes.environmentChange with
  | some (.addOverlaySourceKeys keys) => keys
  | _ => []

end ProjectChangeSet

/-- The keys are for sources the overlays add, and no source or key is taken. -/
def checkOverlayKeys (s : FrontendProjectState D) (changes : ProjectChangeSet D) :
    Option FrontendSessionError :=
  let added := changes.dependencyOverlayChanges.flatMap fun change =>
    change.addedSources.map SourceInput.id
  let known := s.input.environment.stableSourceKeys
  (runSteps (fun (seen : List SourceId × List String) (entry : StableSourceKeyInput) =>
    if !added.contains entry.source || seen.1.contains entry.source || seen.2.contains entry.key then
      (seen, some (FrontendSessionError.invalidOverlaySourceIdentity entry.source))
    else ((entry.source :: seen.1, entry.key :: seen.2), none))
    (known.map StableSourceKeyInput.source, known.map StableSourceKeyInput.key)
    changes.overlayKeys).2

/-- The options and the environment change before the sources. -/
def startChanges (X : Services D) (s : FrontendProjectState D) (changes : ProjectChangeSet D) :
    ChangeRun D where
  state :=
    { s with
      optionsHash :=
        if changes.optionChanges.isEmpty then s.optionsHash
        else X.changedOptionsHash s.optionsHash changes.revision changes.optionChanges
      input := { s.input with
        environment :=
          match changes.environmentChange with
          | some (.replace environment) => environment
          | _ => s.input.environment } }
  addedSources := []
  removedSources := []
  changedSources := []
  sourceMembershipChange := false
  environmentChanged := changes.environmentChange.isSome

def refreshEnvironment (X : Services D) (changes : ProjectChangeSet D) (run : ChangeRun D) :
    FrontendProjectState D :=
  let environment := { run.state.input.environment with
    stableSourceKeys := run.state.input.environment.stableSourceKeys ++ changes.overlayKeys }
  { run.state with
    input := { run.state.input with environment := environment }
    sources :=
      if run.environmentChanged then
        { run.state.sources with
          stableSourceKeys := environment.stableSourceKeys
          environmentFingerprint := X.environmentFingerprint environment
          externalModulesFingerprint := X.externalModulesFingerprint environment }
      else run.state.sources }

/-- Sorted by id, each once. -/
def sortedSources (sources : List SourceId) : List SourceId :=
  (sources.insertionSort (· ≤ ·)).dedup

def finishChanges (X : Services D) (changes : ProjectChangeSet D) (run : ChangeRun D) :
    FrontendProjectState D × Except FrontendSessionError ChangeSummary :=
  let state := refreshEnvironment X changes run
  let changed := sortedSources run.changedSources
  let broad := changes.replacesEnvironment || !changes.optionChanges.isEmpty ||
    run.sourceMembershipChange
  match X.restoreManifest state .disabled with
  | .error error => (state, .error error)
  | .ok cache =>
    let state := { state with cache := cache }
    match if broad then .ok D.noBodyReuse else X.cachedBodyArtifacts state .disabled with
    | .error error => (state, .error error)
    | .ok reuse =>
      let state := { state with pendingBodyArtifactReuse := reuse }
      match X.invalidate state.cache (.fromSources changed broad) with
      | .error error => (state, .error error)
      | .ok (cache, invalidation) =>
        ({ state with
          cache := cache
          pendingChangedSources := changed
          pendingParsedSourceReuse := []
          pendingProjectWideChange := broad
          pendingInvalidation := invalidation
          revision := changes.revision },
          .ok ⟨changes.revision, changed, run.addedSources, run.removedSources⟩)

def applyChanges (X : Services D) (s : FrontendProjectState D) (changes : ProjectChangeSet D) :
    FrontendProjectState D × Except FrontendSessionError ChangeSummary :=
  if changes.revision ≤ s.revision then
    (s, .error (.nonIncreasingProjectRevision s.revision changes.revision))
  else
    match checkOverlayKeys s changes with
    | some error => (s, .error error)
    | none =>
      match runSteps ChangeRun.applySourceChange (startChanges X s changes) changes.sourceChanges with
      | (run, some error) => (run.state, .error error)
      | (run, none) =>
        match runSteps ChangeRun.applyDependencyOverlayChange run changes.dependencyOverlayChanges with
        | (run, some error) => (run.state, .error error)
        | (run, none) => finishChanges X changes run

def replaceCompileOptions (X : Services D) (s : FrontendProjectState D)
    (revision : ProjectRevision) (options : D.CompileOptions) :
    FrontendProjectState D × Except FrontendSessionError ChangeSummary :=
  if revision ≤ s.revision then
    (s, .error (.nonIncreasingProjectRevision s.revision revision))
  else if s.input.options = options then
    ({ s with revision := revision }, .ok ⟨revision, [], [], []⟩)
  else
    match X.restoreManifest s .disabled with
    | .error error => (s, .error error)
    | .ok cache =>
      let s := { s with cache := cache }
      match X.cachedBodyArtifacts s .disabled with
      | .error error => (s, .error error)
      | .ok reuse =>
        let s := { s with pendingBodyArtifactReuse := reuse }
        match X.cachedParsedSources s [] .disabled with
        | .error error => (s, .error error)
        | .ok parsed =>
          let s := { s with pendingParsedSourceReuse := parsed }
          match X.invalidate s.cache .fromCompilerOptions with
          | .error error => (s, .error error)
          | .ok (cache, invalidation) =>
            ({ s with
              cache := cache
              input := { s.input with options := options }
              optionsHash := X.optionsFingerprint options
              pendingChangedSources := []
              pendingProjectWideChange := false
              pendingPipelinePlanChange := true
              pendingInvalidation := invalidation
              revision := revision }, .ok ⟨revision, [], [], []⟩)

end EtasFrontend.Session
