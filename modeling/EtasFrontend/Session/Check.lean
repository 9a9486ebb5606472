import EtasFrontend.Session.Change

/-! A check: what is pending is handed to the pipeline, and a check that goes through consumes it. -/
namespace EtasFrontend.Session
open Lib

variable {D : SessionData}

inductive CheckMode where
  | fullProject | incremental
  deriving DecidableEq

inductive CheckScope where
  | fullProject | entryReachable

inductive MemoryArtifactReuse where
  | disabled | enabled
  deriving DecidableEq

inductive CheckRetention where
  | incremental | oneShot
  deriving DecidableEq

structure CheckRequest where
  mode : CheckMode
  scope : CheckScope
  diskArtifactAccess : DiskCacheAccess
  memoryArtifactReuse : MemoryArtifactReuse
  retention : CheckRetention
  collectPipelineTiming : Bool

def CheckRequest.incrementalEnabled (request : CheckRequest) : Bool :=
  request.mode == .incremental

def CheckRequest.memoryArtifactReuseEnabled (request : CheckRequest) : Bool :=
  request.memoryArtifactReuse == .enabled

structure FrontendPipelineRequest (D : SessionData) where
  input : ProjectInput D
  incremental : Bool
  changedSources : List SourceId
  projectWideChange : Bool
  pipelinePlanChange : Bool
  bodyArtifactReuse : D.BodyArtifactReuse
  parsedSourceReuse : List (SourceId × D.ParsedSource)
  checkScope : CheckScope
  collectTiming : Bool

/-- The passes, with the message of the failure where one fails. -/
abbrev Pipeline (D : SessionData) := FrontendPipelineRequest D → Except String D.Output

structure CheckResponse (D : SessionData) where
  revision : ProjectRevision
  changedSources : List SourceId
  invalidation : D.InvalidationReport
  output : D.Output

/-- The state after the check, what the pipeline was given if it was reached, and the answer. -/
structure CheckOutcome (D : SessionData) where
  state : FrontendProjectState D
  handed : Option (FrontendPipelineRequest D)
  result : Except FrontendSessionError (CheckResponse D)

namespace FrontendProjectState

def takeFlags (s : FrontendProjectState D) : FrontendProjectState D :=
  { s with pendingProjectWideChange := false, pendingPipelinePlanChange := false }

def takeBodyArtifactReuse (X : Services D) (s : FrontendProjectState D) (reuse : Bool)
    (access : DiskCacheAccess) :
    FrontendProjectState D × Except FrontendSessionError D.BodyArtifactReuse :=
  let taken := { s with pendingBodyArtifactReuse := D.noBodyReuse }
  if reuse then
    if D.bodyReuseIsEmpty s.pendingBodyArtifactReuse then
      (taken, X.cachedBodyArtifacts taken access)
    else (taken, .ok s.pendingBodyArtifactReuse)
  else (taken, .ok D.noBodyReuse)

def takeParsedSourceReuse (X : Services D) (s : FrontendProjectState D) (reuse : Bool)
    (access : DiskCacheAccess) :
    FrontendProjectState D × Except FrontendSessionError (List (SourceId × D.ParsedSource)) :=
  let taken := { s with pendingParsedSourceReuse := [] }
  if reuse then
    if s.pendingParsedSourceReuse.isEmpty then
      (taken, X.cachedParsedSources taken taken.pendingChangedSources access)
    else (taken, .ok s.pendingParsedSourceReuse)
  else (taken, .ok [])

/-- Up to the call of the pipeline. The flags are taken before the reads that can fail. -/
def prepareCheck (X : Services D) (s : FrontendProjectState D) (request : CheckRequest) :
    FrontendProjectState D × Except FrontendSessionError (FrontendPipelineRequest D) :=
  let access := request.diskArtifactAccess
  let incremental := request.incrementalEnabled
  match if incremental && access.canRead then X.restoreManifest s access else .ok s.cache with
  | .error error => (s, .error error)
  | .ok cache =>
    let projectWideChange := incremental && s.pendingProjectWideChange
    let pipelinePlanChange := incremental && s.pendingPipelinePlanChange
    let reuse := incremental && request.memoryArtifactReuseEnabled && !projectWideChange
    match takeBodyArtifactReuse X { s with cache := cache }.takeFlags reuse access with
    | (s, .error error) => (s, .error error)
    | (s, .ok bodyArtifactReuse) =>
      match takeParsedSourceReuse X s reuse access with
      | (s, .error error) => (s, .error error)
      | (s, .ok parsedSourceReuse) =>
        (s, .ok
          { input := s.input
            incremental := incremental
            changedSources := s.pendingChangedSources
            projectWideChange := projectWideChange
            pipelinePlanChange := pipelinePlanChange
            bodyArtifactReuse := bodyArtifactReuse
            parsedSourceReuse := parsedSourceReuse
            checkScope := request.scope
            collectTiming := request.collectPipelineTiming })

/-- From the output of the pipeline on. -/
def finishCheck (X : Services D) (s : FrontendProjectState D) (request : CheckRequest)
    (projectWideChange : Bool) (output : D.Output) :
    FrontendProjectState D × Except FrontendSessionError (CheckResponse D) :=
  let taken := { s with pendingChangedSources := [], pendingInvalidation := D.noInvalidation }
  match X.recordManifest taken output with
  | .error error => (taken, .error error)
  | .ok cache =>
    let recorded := { taken with cache := cache }
    let reuse := request.memoryArtifactReuseEnabled && request.incrementalEnabled &&
      !projectWideChange
    match if request.retention = .incremental then
        X.storeArtifacts recorded output reuse request.diskArtifactAccess
      else .ok cache with
    | .error error => (recorded, .error error)
    | .ok cache =>
      ({ recorded with cache := cache },
        .ok ⟨s.revision, s.pendingChangedSources, s.pendingInvalidation, output⟩)

def checkWithPipeline (X : Services D) (s : FrontendProjectState D) (request : CheckRequest)
    (runPipeline : Pipeline D) : CheckOutcome D :=
  match s.prepareCheck X request with
  | (s, .error error) => ⟨s, none, .error error⟩
  | (s, .ok handed) =>
    match runPipeline handed with
    | .error message => ⟨s, some handed, .error (.pipeline message)⟩
    | .ok output =>
      let finished := s.finishCheck X request handed.projectWideChange output
      ⟨finished.1, some handed, finished.2⟩

end FrontendProjectState
end EtasFrontend.Session
