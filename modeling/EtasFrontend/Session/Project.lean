import EtasFrontend.Lib.Fallible
import EtasFrontend.Lib.Map

/-! The state of a project in a session, and what the session asks of the artifact store. -/
namespace EtasFrontend.Session
open Lib

abbrev SourceId := ℕ
abbrev SourceVersion := ℕ
abbrev ProjectRevision := ℕ
abbrev ExternalPackageId := ℕ

inductive SourceKind where
  | sourceProjectFile
  | dependencySourceOverlay (package : ExternalPackageId) (importRoot : String)
  | singleFileInput
  | virtualStd (source : ℕ)
  | virtualGenerated
  | lspOverlay

structure SourceInput where
  id : SourceId
  path : Option String
  text : List Char
  kind : SourceKind

/-- The line index of a file is computed from its text. -/
structure SourceFile where
  id : SourceId
  path : Option String
  text : List Char
  kind : SourceKind

def SourceFile.fromInput (input : SourceInput) : SourceFile :=
  ⟨input.id, input.path, input.text, input.kind⟩

structure StableSourceKeyInput where
  source : SourceId
  key : String

structure StandaloneSourcePackage where
  source : SourceId
  package : String

/-- Data the session stores and hands on without looking at it. -/
structure SessionData where
  /-- The fields of an environment that do not mention sources. -/
  EnvironmentRest : Type
  CompileOptions : Type
  /-- The manifest, the last good snapshot and the artifact store. -/
  Cache : Type
  InvalidationReport : Type
  BodyArtifactReuse : Type
  ParsedSource : Type
  Output : Type
  [environmentEq : DecidableEq EnvironmentRest]
  [optionsEq : DecidableEq CompileOptions]
  noInvalidation : InvalidationReport
  noBodyReuse : BodyArtifactReuse
  bodyReuseIsEmpty : BodyArtifactReuse → Bool

attribute [instance] SessionData.environmentEq SessionData.optionsEq

variable {D : SessionData}

structure EnvironmentInput (D : SessionData) where
  stableSourceKeys : List StableSourceKeyInput
  standaloneSourcePackages : List StandaloneSourcePackage
  rest : D.EnvironmentRest

structure SourceSet where
  projectRoot : String
  sourceRoot : String
  environmentFingerprint : String
  externalModulesFingerprint : String
  stableSourceKeys : List StableSourceKeyInput
  files : List SourceFile

structure ProjectInput (D : SessionData) where
  projectRoot : String
  sourceRoot : Option String
  sources : List SourceInput
  environment : EnvironmentInput D
  options : D.CompileOptions

def sourceRootForProjectInput (input : ProjectInput D) : String :=
  input.sourceRoot.getD input.projectRoot

structure FrontendProjectState (D : SessionData) where
  revision : ProjectRevision
  input : ProjectInput D
  sources : SourceSet
  sourceVersions : Map SourceId SourceVersion
  optionsHash : String
  pendingChangedSources : List SourceId
  pendingProjectWideChange : Bool
  pendingPipelinePlanChange : Bool
  pendingInvalidation : D.InvalidationReport
  pendingBodyArtifactReuse : D.BodyArtifactReuse
  pendingParsedSourceReuse : List (SourceId × D.ParsedSource)
  cache : D.Cache

/-- All but the manifest, the snapshot and the store is as it was. -/
def FrontendProjectState.Unchanged (s s' : FrontendProjectState D) : Prop :=
  { s' with cache := s.cache } = s

inductive FrontendSessionError where
  | nonIncreasingProjectRevision (current requested : ProjectRevision)
  | nonIncreasingSourceVersion (source : SourceId) (current requested : SourceVersion)
  | missingSource (source : SourceId)
  | duplicateSource (source : SourceId)
  | duplicateSourcePath (path : String)
  | invalidOverlaySourceIdentity (source : SourceId)
  | emptyDependencyOverlay (package : ExternalPackageId) (importRoot : String)
  | invalidDependencyOverlaySource (source : SourceId)
  | mismatchedDependencyOverlaySource (source : SourceId) (expectedPackage : ExternalPackageId)
      (expectedImportRoot : String)
  | invalidTextEdit (source : SourceId) (start stop len : ℕ)
  | pipeline (message : String)
  | cache (message : String)
  deriving DecidableEq

inductive DiskCacheAccess where
  | disabled | readOnly | writeOnly | readWrite

def DiskCacheAccess.canRead : DiskCacheAccess → Bool
  | .disabled | .writeOnly => false
  | .readOnly | .readWrite => true

/-- What an invalidation starts from. -/
inductive DirtyArtifactRoots where
  | fromSources (changed : List SourceId) (broad : Bool)
  | fromCompilerOptions

/-- The fingerprints, and the calls that read or write cached artifacts. A call may fail. -/
structure Services (D : SessionData) where
  environmentFingerprint : EnvironmentInput D → String
  externalModulesFingerprint : EnvironmentInput D → String
  optionsFingerprint : D.CompileOptions → String
  changedOptionsHash : String → ProjectRevision → List String → String
  restoreManifest : FrontendProjectState D → DiskCacheAccess → Except FrontendSessionError D.Cache
  cachedBodyArtifacts : FrontendProjectState D → DiskCacheAccess →
    Except FrontendSessionError D.BodyArtifactReuse
  cachedParsedSources : FrontendProjectState D → List SourceId → DiskCacheAccess →
    Except FrontendSessionError (List (SourceId × D.ParsedSource))
  invalidate : D.Cache → DirtyArtifactRoots →
    Except FrontendSessionError (D.Cache × D.InvalidationReport)
  recordManifest : FrontendProjectState D → D.Output → Except FrontendSessionError D.Cache
  storeArtifacts : FrontendProjectState D → D.Output → Bool → DiskCacheAccess →
    Except FrontendSessionError D.Cache

def sourceSetFromInput (X : Services D) (input : ProjectInput D) : SourceSet where
  projectRoot := input.projectRoot
  sourceRoot := sourceRootForProjectInput input
  environmentFingerprint := X.environmentFingerprint input.environment
  externalModulesFingerprint := X.externalModulesFingerprint input.environment
  stableSourceKeys := input.environment.stableSourceKeys
  files := input.sources.map SourceFile.fromInput

namespace FrontendProjectState

/-- `new`: nothing is pending. -/
def new (X : Services D) (input : ProjectInput D) (cache : D.Cache) : FrontendProjectState D where
  revision := 0
  input := input
  sources := sourceSetFromInput X input
  sourceVersions := Map.ofList (input.sources.map fun source => (source.id, 0))
  optionsHash := X.optionsFingerprint input.options
  pendingChangedSources := []
  pendingProjectWideChange := false
  pendingPipelinePlanChange := false
  pendingInvalidation := D.noInvalidation
  pendingBodyArtifactReuse := D.noBodyReuse
  pendingParsedSourceReuse := []
  cache := cache

def sourceIndex (s : FrontendProjectState D) (source : SourceId) : Option ℕ :=
  s.input.sources.findIdx? fun existing => existing.id == source

def sourceFileIndex (s : FrontendProjectState D) (source : SourceId) : Option ℕ :=
  s.sources.files.findIdx? fun existing => existing.id == source

end FrontendProjectState
end EtasFrontend.Session
