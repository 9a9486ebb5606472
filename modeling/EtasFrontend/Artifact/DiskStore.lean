import EtasFrontend.Artifact.Key
import EtasFrontend.Types.Ty

/-! The artifact store with a memory and a disk tier. The two stores are maps; what a write to the
disk answers is an input of the call. -/
namespace EtasFrontend.Artifact
open Lib EtasFrontend.Types

/-! Values and their persisted forms. -/

structure FrontendArtifactDependency where
  key : FrontendArtifactKey
  fingerprint : Option ArtifactFingerprint
  deriving DecidableEq

structure FrontendArtifactRecord where
  key : FrontendArtifactKey
  revision : ℕ
  fingerprint : ArtifactFingerprint
  dependencies : List FrontendArtifactDependency
  diagnostics : List ℕ
  deriving DecidableEq

structure FrontendArtifactManifest where
  records : List FrontendArtifactRecord

inductive PersistedFrontendUnitKey where
  | project
  | source (id : ℕ)
  | moduleUnit (id : ℕ)
  | modulePart (id : ℕ)
  | item (id : ℕ)
  | unit (kindNamespace name : String) (id : ℕ)
  deriving DecidableEq

structure PersistedFrontendArtifactKey where
  kind : FrontendArtifactKind
  unit : PersistedFrontendUnitKey
  deriving DecidableEq

structure PersistedFrontendArtifactDependency where
  key : PersistedFrontendArtifactKey
  fingerprint : Option ArtifactFingerprint
  deriving DecidableEq

structure PersistedFrontendArtifactRecord where
  key : PersistedFrontendArtifactKey
  revision : ℕ
  fingerprint : ArtifactFingerprint
  dependencies : List PersistedFrontendArtifactDependency
  diagnostics : List ℕ
  deriving DecidableEq

structure PersistedFrontendArtifactManifest where
  records : List PersistedFrontendArtifactRecord
  deriving DecidableEq

def knownUnitKind (kindNamespace name : String) : Option UnitKindKey :=
  if kindNamespace = "frontend" ∧ name = "body" then some bodyUnitKind else none

def PersistedFrontendUnitKey.fromFrontend : FrontendUnitKey → PersistedFrontendUnitKey
  | .project => .project
  | .source id => .source id
  | .moduleUnit id => .moduleUnit id
  | .modulePart id => .modulePart id
  | .item id => .item id
  | .unit key => .unit key.kind.kindNamespace key.kind.name key.id

def PersistedFrontendUnitKey.toFrontend : PersistedFrontendUnitKey → Option FrontendUnitKey
  | .project => some .project
  | .source id => some (.source id)
  | .moduleUnit id => some (.moduleUnit id)
  | .modulePart id => some (.modulePart id)
  | .item id => some (.item id)
  | .unit kindNamespace name id =>
    (knownUnitKind kindNamespace name).map fun kind => .unit ⟨kind, id⟩

def PersistedFrontendArtifactKey.fromFrontend (key : FrontendArtifactKey) :
    PersistedFrontendArtifactKey :=
  ⟨key.kind, .fromFrontend key.unit⟩

def PersistedFrontendArtifactKey.toFrontend (key : PersistedFrontendArtifactKey) :
    Option FrontendArtifactKey :=
  key.unit.toFrontend.map fun unit => ⟨key.kind, unit⟩

def PersistedFrontendArtifactDependency.fromFrontend (dependency : FrontendArtifactDependency) :
    PersistedFrontendArtifactDependency :=
  ⟨.fromFrontend dependency.key, dependency.fingerprint⟩

def PersistedFrontendArtifactDependency.toFrontend
    (dependency : PersistedFrontendArtifactDependency) : Option FrontendArtifactDependency :=
  dependency.key.toFrontend.map fun key => ⟨key, dependency.fingerprint⟩

def PersistedFrontendArtifactRecord.fromFrontend (record : FrontendArtifactRecord) :
    PersistedFrontendArtifactRecord :=
  ⟨.fromFrontend record.key, record.revision, record.fingerprint,
    record.dependencies.map .fromFrontend, record.diagnostics⟩

def PersistedFrontendArtifactRecord.intoFrontend (record : PersistedFrontendArtifactRecord) :
    Option FrontendArtifactRecord := do
  let key ← record.key.toFrontend
  let dependencies ← record.dependencies.mapM PersistedFrontendArtifactDependency.toFrontend
  some ⟨key, record.revision, record.fingerprint, dependencies, record.diagnostics⟩

def FrontendArtifactManifest.toPersisted (manifest : FrontendArtifactManifest) :
    PersistedFrontendArtifactManifest :=
  ⟨manifest.records.map .fromFrontend⟩

def FrontendArtifactManifest.fromPersisted (persisted : PersistedFrontendArtifactManifest) :
    Option FrontendArtifactManifest :=
  (persisted.records.mapM PersistedFrontendArtifactRecord.intoFrontend).map fun records => ⟨records⟩

inductive BodyArtifactReuseKind where
  | typeFacts | effectFacts
  deriving DecidableEq

structure BodyArtifactIdentityRecord where
  source : ℕ
  itemIndex : ℕ
  itemKind : String
  implMember : Option ℕ
  text : String
  deriving DecidableEq

/-- The persisted form has the same fields, and its dependencies are persisted ones already. -/
structure BodyArtifactReuseIndexRecord where
  kind : BodyArtifactReuseKind
  unit : ℕ
  revision : ℕ
  fingerprint : ArtifactFingerprint
  identity : BodyArtifactIdentityRecord
  dependencies : List PersistedFrontendArtifactDependency
  deriving DecidableEq

structure BodyArtifactReuseIndex where
  records : List BodyArtifactReuseIndexRecord
  deriving DecidableEq

def BodyArtifactReuseIndexRecord.intoFrontend (record : BodyArtifactReuseIndexRecord) :
    Option BodyArtifactReuseIndexRecord :=
  if record.dependencies.all fun dependency => dependency.toFrontend.isSome then some record
  else none

def BodyArtifactReuseIndex.intoFrontend (index : BodyArtifactReuseIndex) :
    Option BodyArtifactReuseIndex :=
  (index.records.mapM BodyArtifactReuseIndexRecord.intoFrontend).map fun records => ⟨records⟩

/-- Parts of artifacts that are stored as they are. -/
structure ArtifactTypes where
  genericParam : Type
  agentSignature : Type
  bodyTypeOutput : Type
  bodyEffectOutput : Type
  other : Type

variable {T : ArtifactTypes}

structure CallableSignature (T : ArtifactTypes) where
  genericParams : List T.genericParam
  params : List TypeId
  output : TypeId
  effects : Option EffectRowRef
  requestedActions : Option EffectRowRef

/-- The persisted form differs in the names of its fields only. -/
inductive ItemSignature (T : ArtifactTypes) where
  | flow (signature : CallableSignature T)
  | agent (signature : T.agentSignature)
  | tool (signature : CallableSignature T)
  | topLevelLet (ty : TypeId)

inductive ArtifactType where
  | manifest | reuseIndex | itemSignature | bodyTypeOutput | bodyEffectOutput
  | other (name : String)
  deriving DecidableEq

inductive ArtifactValue (T : ArtifactTypes) where
  | manifest (value : FrontendArtifactManifest)
  | reuseIndex (value : BodyArtifactReuseIndex)
  | itemSignature (value : ItemSignature T)
  | bodyTypeOutput (value : T.bodyTypeOutput)
  | bodyEffectOutput (value : T.bodyEffectOutput)
  | other (name : String) (value : T.other)

def ArtifactValue.type : ArtifactValue T → ArtifactType
  | .manifest _ => .manifest
  | .reuseIndex _ => .reuseIndex
  | .itemSignature _ => .itemSignature
  | .bodyTypeOutput _ => .bodyTypeOutput
  | .bodyEffectOutput _ => .bodyEffectOutput
  | .other name _ => .other name

inductive PersistedValue (T : ArtifactTypes) where
  | manifest (value : PersistedFrontendArtifactManifest)
  | reuseIndex (value : BodyArtifactReuseIndex)
  | itemSignature (value : ItemSignature T)
  | bodyTypeOutput (value : T.bodyTypeOutput)
  | bodyEffectOutput (value : T.bodyEffectOutput)

def PersistedValue.type : PersistedValue T → ArtifactType
  | .manifest _ => .manifest
  | .reuseIndex _ => .reuseIndex
  | .itemSignature _ => .itemSignature
  | .bodyTypeOutput _ => .bodyTypeOutput
  | .bodyEffectOutput _ => .bodyEffectOutput

def ArtifactValue.persist : ArtifactValue T → Option (PersistedValue T)
  | .manifest value => some (.manifest value.toPersisted)
  | .reuseIndex value => some (.reuseIndex value)
  | .itemSignature value => some (.itemSignature value)
  | .bodyTypeOutput value => some (.bodyTypeOutput value)
  | .bodyEffectOutput value => some (.bodyEffectOutput value)
  | .other _ _ => none

inductive CacheError where
  | invalidEnvelope (message : String)
  | unavailable (message : String)
  | typeMismatch (message : String)

def PersistedValue.restore : PersistedValue T → Except CacheError (ArtifactValue T)
  | .manifest value =>
    match FrontendArtifactManifest.fromPersisted value with
    | some restored => .ok (.manifest restored)
    | none => .error (.invalidEnvelope
        "frontend artifact manifest contains unsupported persisted unit keys")
  | .reuseIndex value =>
    match value.intoFrontend with
    | some restored => .ok (.reuseIndex restored)
    | none => .error (.invalidEnvelope
        "body artifact reuse index contains unsupported persisted dependency keys")
  | .itemSignature value => .ok (.itemSignature value)
  | .bodyTypeOutput value => .ok (.bodyTypeOutput value)
  | .bodyEffectOutput value => .ok (.bodyEffectOutput value)

structure ArtifactMeta where
  revision : ℕ
  fingerprint : ArtifactFingerprint
  compilerVersion : String
  schemaVersion : ℕ
  stdVersion : Option String
  dependencies : List ArtifactKey
  deriving DecidableEq

structure CachedArtifact (T : ArtifactTypes) where
  key : ArtifactKey
  metadata : ArtifactMeta
  value : ArtifactValue T

inductive PayloadCodec where
  | bincode2
  | other (name : String)
  deriving DecidableEq

structure DiskEntry where
  metadata : ArtifactMeta
  payload : Option (PayloadCodec × List UInt8)

inductive InvalidationSelector where
  | exact (key : ArtifactKey)
  | roots (keys : List ArtifactKey)
  | byNamespace (cacheNamespace : String)
  | byKind (cacheNamespace kind : String)

structure InvalidationReport where
  roots : List ArtifactKey
  invalidated : List ArtifactKey

/-- The serialization, and what the two stores decide: which keys a selector reaches among the
entries of a store, and what a typed lookup answers for an artifact of another type. -/
structure CacheServices (T : ArtifactTypes) where
  encode : PersistedValue T → Except String (List UInt8)
  decode : ArtifactType → List UInt8 → Except String (PersistedValue T × ℕ)
  affected : Map ArtifactKey ArtifactMeta → InvalidationSelector → InvalidationReport
  mismatch : Except CacheError Unit

inductive DiskPutStatus where
  | stored | skipped | unavailable
  deriving DecidableEq

/-- The answers of the disk to a write of a payload and to a write of metadata. -/
structure DiskAnswer where
  bytes : DiskPutStatus
  metadataStored : Bool

def encodeBincode (services : CacheServices T) (value : PersistedValue T) :
    Except CacheError (List UInt8) :=
  match services.encode value with
  | .ok payload => .ok payload
  | .error error =>
    .error (.invalidEnvelope ("frontend artifact serialization failed: " ++ error))

def decodeBincode (services : CacheServices T) (type : ArtifactType) (payload : List UInt8) :
    Except CacheError (PersistedValue T) :=
  match services.decode type payload with
  | .error error =>
    .error (.invalidEnvelope ("frontend artifact deserialization failed: " ++ error))
  | .ok (value, consumed) =>
    if consumed ≠ payload.length then
      .error (.invalidEnvelope ("frontend artifact payload has " ++
        toString (payload.length - consumed) ++ " trailing bytes"))
    else .ok value

/-- The type of the artifacts that are written to the disk under a key. -/
def persistedType (key : FrontendArtifactKey) : Option ArtifactType :=
  match key.kind, key.unit with
  | .artifactManifest, .project => some .manifest
  | .bodyArtifactReuseIndex, .project => some .reuseIndex
  | .signatureFacts, .item _ => some .itemSignature
  | .typeFacts, .unit unit => if unit.kind = bodyUnitKind then some .bodyTypeOutput else none
  | .effectFacts, .unit unit => if unit.kind = bodyUnitKind then some .bodyEffectOutput else none
  | _, _ => none

def encodePersisted (services : CacheServices T) (key : ArtifactKey) (value : ArtifactValue T) :
    Except CacheError (Option (List UInt8)) :=
  match FrontendArtifactKey.fromCacheKey key with
  | none => .ok none
  | some frontend =>
    if persistedType frontend = some value.type then
      match value.persist with
      | some persisted => (encodeBincode services persisted).map some
      | none => .ok none
    else .ok none

def downcastDecoded (type : ArtifactType) (value : ArtifactValue T) :
    Except CacheError (ArtifactValue T) :=
  if value.type = type then .ok value
  else .error (.invalidEnvelope "frontend artifact decoded to wrong type")

def decodePersisted (services : CacheServices T) (type : ArtifactType) (key : ArtifactKey)
    (payload : List UInt8) : Except CacheError (Option (ArtifactValue T)) :=
  match FrontendArtifactKey.fromCacheKey key with
  | none => .ok none
  | some frontend =>
    if persistedType frontend = some type then do
      let persisted ← decodeBincode services type payload
      let value ← persisted.restore
      let value ← downcastDecoded type value
      .ok (some value)
    else .ok none

structure FrontendDiskArtifactStore (T : ArtifactTypes) where
  memory : Map ArtifactKey (CachedArtifact T)
  disk : Map ArtifactKey DiskEntry
  cacheNamespace : String
  access : DiskCacheAccess

namespace FrontendDiskArtifactStore
variable (services : CacheServices T) (store : FrontendDiskArtifactStore T)

/-- A store opened on an empty directory. -/
def opened (cacheNamespace : String) (access : DiskCacheAccess) : FrontendDiskArtifactStore T :=
  ⟨∅, ∅, cacheNamespace, access⟩

def physicalKey (key : ArtifactKey) : ArtifactKey :=
  if key.cacheNamespace ≠ frontendCacheNamespace then key
  else ⟨store.cacheNamespace, key.kind, key.unit⟩

def logicalKey (key : ArtifactKey) : ArtifactKey :=
  if key.cacheNamespace ≠ store.cacheNamespace then key
  else ⟨frontendCacheNamespace, key.kind, key.unit⟩

def physicalMeta (metadata : ArtifactMeta) : ArtifactMeta :=
  { metadata with dependencies := metadata.dependencies.map store.physicalKey }

def logicalMeta (metadata : ArtifactMeta) : ArtifactMeta :=
  { metadata with dependencies := metadata.dependencies.map store.logicalKey }

def physicalSelector : InvalidationSelector → InvalidationSelector
  | .exact key => .exact (store.physicalKey key)
  | .roots keys => .roots (keys.map store.physicalKey)
  | .byNamespace cacheNamespace =>
    if cacheNamespace = frontendCacheNamespace then .byNamespace store.cacheNamespace
    else .byNamespace cacheNamespace
  | .byKind cacheNamespace kind =>
    if cacheNamespace = frontendCacheNamespace then .byKind store.cacheNamespace kind
    else .byKind cacheNamespace kind

def logicalReport (report : InvalidationReport) : InvalidationReport :=
  ⟨report.roots.map store.logicalKey, report.invalidated.map store.logicalKey⟩

def memoryPut (artifact : CachedArtifact T) : FrontendDiskArtifactStore T :=
  { store with memory := store.memory.insert artifact.key artifact }

def diskPut (artifact : CachedArtifact T) (payload : Option (PayloadCodec × List UInt8)) :
    FrontendDiskArtifactStore T :=
  let entry : DiskEntry := ⟨store.physicalMeta artifact.metadata, payload⟩
  { store with disk := store.disk.insert (store.physicalKey artifact.key) entry }

def memoryGet (type : ArtifactType) (key : ArtifactKey) :
    Except CacheError (Option (CachedArtifact T)) :=
  match store.memory.get key with
  | none => .ok none
  | some artifact =>
    if artifact.value.type = type then .ok (some artifact)
    else services.mismatch.map fun _ => none

def getPersisted (type : ArtifactType) (key : ArtifactKey) :
    Except CacheError (Option (CachedArtifact T)) :=
  match store.disk.get (store.physicalKey key) with
  | none => .ok none
  | some entry =>
    match entry.payload with
    | none => .ok none
    | some (codec, payload) =>
      if codec ≠ .bincode2 then
        .error (.invalidEnvelope "frontend artifact uses unsupported payload codec")
      else
        let logical := store.logicalKey (store.physicalKey key)
        (decodePersisted services type logical payload).map fun value =>
          value.map fun value => ⟨logical, store.logicalMeta entry.metadata, value⟩

def metadataWithDiskAccess (key : ArtifactKey) (access : DiskCacheAccess) : Option ArtifactMeta :=
  let persisted :=
    if store.access.canRead && access.canRead && (diskClass key).isSome then
      store.disk.get (store.physicalKey key)
    else none
  match persisted with
  | some entry => some (store.logicalMeta entry.metadata)
  | none => (store.memory.get key).map CachedArtifact.metadata

def metadata (key : ArtifactKey) : Option ArtifactMeta :=
  store.metadataWithDiskAccess key .readWrite

def getWithDiskAccess (type : ArtifactType) (key : ArtifactKey) (access : DiskCacheAccess) :
    Except CacheError (Option (CachedArtifact T)) :=
  if store.access.canRead && access.canRead && (diskPayloadClass key).isSome then do
    match ← store.getPersisted services type key with
    | some artifact => .ok (some artifact)
    | none => store.memoryGet services type key
  else store.memoryGet services type key

def get (type : ArtifactType) (key : ArtifactKey) : Except CacheError (Option (CachedArtifact T)) :=
  store.getWithDiskAccess services type key .readWrite

def putPayload (artifact : CachedArtifact T) (maxPayloadBytes : ℕ) (answer : DiskAnswer) :
    Except CacheError (FrontendDiskArtifactStore T) := do
  match ← encodePersisted services artifact.key artifact.value with
  | none => .ok (store.memoryPut artifact)
  | some payload =>
    if payload.length > maxPayloadBytes then .ok (store.memoryPut artifact)
    else
      match answer.bytes with
      | .stored => .ok (store.diskPut artifact (some (.bincode2, payload)))
      | .skipped | .unavailable => .ok (store.memoryPut artifact)

def put (artifact : CachedArtifact T) (answer : DiskAnswer) :
    Except CacheError (FrontendDiskArtifactStore T) :=
  if !store.access.canWrite then .ok (store.memoryPut artifact)
  else
    match diskClass artifact.key with
    | some (.diskPayload maxPayloadBytes) =>
      store.putPayload services artifact maxPayloadBytes answer
    | some .diskMetadataOnly =>
      if answer.metadataStored then .ok ((store.diskPut artifact none).memoryPut artifact)
      else .ok (store.memoryPut artifact)
    | some .memoryOnly | none => .ok (store.memoryPut artifact)

def putWithDiskAccess (artifact : CachedArtifact T) (access : DiskCacheAccess)
    (answer : DiskAnswer) : Except CacheError (FrontendDiskArtifactStore T) :=
  if store.access.canWrite && access.canWrite then store.put services artifact answer
  else .ok (store.memoryPut artifact)

def remove (key : ArtifactKey) : FrontendDiskArtifactStore T :=
  { store with
    memory := store.memory.remove key
    disk := if store.access.canWrite && (diskClass key).isSome then
        store.disk.remove (store.physicalKey key)
      else store.disk }

def mergeReports (left right : InvalidationReport) : InvalidationReport :=
  ⟨(left.roots ++ right.roots).eraseDups, (left.invalidated ++ right.invalidated).eraseDups⟩

def memoryAffected (selector : InvalidationSelector) : InvalidationReport :=
  services.affected (store.memory.mapValues CachedArtifact.metadata) selector

def diskAffected (selector : InvalidationSelector) : InvalidationReport :=
  services.affected (store.disk.mapValues DiskEntry.metadata) (store.physicalSelector selector)

def invalidate (selector : InvalidationSelector) :
    FrontendDiskArtifactStore T × InvalidationReport :=
  let memory := store.memoryAffected services selector
  let kept := { store with memory := memory.invalidated.foldl Map.remove store.memory }
  if !store.access.canWrite then (kept, memory)
  else
    let disk := store.diskAffected services selector
    ({ kept with disk := disk.invalidated.foldl Map.remove store.disk },
      mergeReports memory (store.logicalReport disk))

end FrontendDiskArtifactStore
end EtasFrontend.Artifact
