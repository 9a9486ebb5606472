import EtasFrontend.Artifact.DiskStore

/-! When the two tiers of the artifact store act as one map. -/
namespace EtasFrontend.Artifact
open Lib EtasFrontend.Types

variable {T : ArtifactTypes}

/-! Values that are restored from their persisted form. -/

/-- Among the unit keys, only those of bodies are read back. -/
def FrontendUnitKey.Portable : FrontendUnitKey → Prop
  | .unit key => key.kind = bodyUnitKind
  | _ => True

def FrontendArtifactRecord.Portable (record : FrontendArtifactRecord) : Prop :=
  record.key.unit.Portable ∧ ∀ dependency ∈ record.dependencies, dependency.key.unit.Portable

def ArtifactValue.Portable : ArtifactValue T → Prop
  | .manifest content => ∀ record ∈ content.records, record.Portable
  | .reuseIndex index => ∀ record ∈ index.records, ∀ dependency ∈ record.dependencies,
      dependency.toFrontend.isSome = true
  | _ => True

theorem mapM_map_of_inverse {α β : Type} {f : α → β} {g : β → Option α} {l : List α}
    (h : ∀ a ∈ l, g (f a) = some a) : (l.map f).mapM g = some l := by
  induction l with
  | nil => rfl
  | cons a l ih =>
    have ha : g (f a) = some a := h a List.mem_cons_self
    have hl : (l.map f).mapM g = some l := ih fun b hb => h b (List.mem_cons_of_mem _ hb)
    rw [List.map_cons, List.mapM_cons, ha, hl]
    rfl

theorem toFrontend_unit {unit : FrontendUnitKey} (h : unit.Portable) :
    (PersistedFrontendUnitKey.fromFrontend unit).toFrontend = some unit := by
  cases unit with
  | unit key =>
    obtain ⟨kind, id⟩ := key
    obtain rfl : kind = bodyUnitKind := h
    rfl
  | project | source | moduleUnit | modulePart | item => rfl

theorem toFrontend_key {key : FrontendArtifactKey} (h : key.unit.Portable) :
    (PersistedFrontendArtifactKey.fromFrontend key).toFrontend = some key := by
  unfold PersistedFrontendArtifactKey.toFrontend PersistedFrontendArtifactKey.fromFrontend
  rw [toFrontend_unit h]
  rfl

theorem intoFrontend_record {record : FrontendArtifactRecord} (h : record.Portable) :
    (PersistedFrontendArtifactRecord.fromFrontend record).intoFrontend = some record := by
  have hd : ∀ dependency ∈ record.dependencies,
      (PersistedFrontendArtifactDependency.fromFrontend dependency).toFrontend =
        some dependency := by
    intro dependency hm
    unfold PersistedFrontendArtifactDependency.toFrontend
      PersistedFrontendArtifactDependency.fromFrontend
    rw [toFrontend_key (h.2 dependency hm)]
    rfl
  unfold PersistedFrontendArtifactRecord.intoFrontend PersistedFrontendArtifactRecord.fromFrontend
  rw [toFrontend_key h.1, mapM_map_of_inverse hd]
  rfl

theorem fromPersisted_toPersisted {manifest : FrontendArtifactManifest}
    (h : ∀ record ∈ manifest.records, record.Portable) :
    FrontendArtifactManifest.fromPersisted manifest.toPersisted = some manifest := by
  unfold FrontendArtifactManifest.fromPersisted FrontendArtifactManifest.toPersisted
  rw [mapM_map_of_inverse fun record hm => intoFrontend_record (h record hm)]
  rfl

theorem intoFrontend_index {index : BodyArtifactReuseIndex}
    (h : ∀ record ∈ index.records, ∀ dependency ∈ record.dependencies,
      dependency.toFrontend.isSome = true) : index.intoFrontend = some index := by
  have hr : ∀ record ∈ index.records, BodyArtifactReuseIndexRecord.intoFrontend record =
      some record := by
    intro record hm
    unfold BodyArtifactReuseIndexRecord.intoFrontend
    rw [if_pos (List.all_eq_true.mpr (h record hm))]
  have hm := mapM_map_of_inverse (f := id) hr
  rw [List.map_id] at hm
  unfold BodyArtifactReuseIndex.intoFrontend
  rw [hm]
  rfl

variable {value : ArtifactValue T}

theorem restore_persist {persisted : PersistedValue T} (hp : value.persist = some persisted)
    (h : value.Portable) :
    persisted.restore = .ok value := by
  cases value with
  | other => cases hp
  | manifest manifest =>
    obtain rfl := Option.some.inj hp
    simp only [PersistedValue.restore, fromPersisted_toPersisted h]
  | reuseIndex index =>
    obtain rfl := Option.some.inj hp
    simp only [PersistedValue.restore, intoFrontend_index h]
  | itemSignature | bodyTypeOutput | bodyEffectOutput =>
    obtain rfl := Option.some.inj hp
    rfl

theorem persist_type {persisted : PersistedValue T} (hp : value.persist = some persisted) :
    persisted.type = value.type := by
  cases value with
  | other => cases hp
  | manifest | reuseIndex | itemSignature | bodyTypeOutput | bodyEffectOutput =>
    obtain rfl := Option.some.inj hp
    rfl

/-- A payload that was written is read back whole. -/
structure CacheServices.Lawful (services : CacheServices T) : Prop where
  decode_encode : ∀ {value payload}, services.encode value = .ok payload →
    services.decode value.type payload = .ok (value, payload.length)

variable {key : ArtifactKey} {payload : List UInt8}

theorem decodePersisted_encodePersisted {services : CacheServices T} (hs : services.Lawful)
    (h : value.Portable) (he : encodePersisted services key value = .ok (some payload)) :
    decodePersisted services value.type key payload = .ok (some value) := by
  unfold encodePersisted at he
  unfold decodePersisted
  split at he
  next => cases he
  next frontend hk =>
    split_ifs at he with ht
    · simp only [ht, if_true]
      split at he
      next persisted hp =>
        have hb : services.encode persisted = .ok payload := by
          unfold encodeBincode at he
          cases hc : services.encode persisted with
          | error => rw [hc] at he; cases he
          | ok bytes => rw [hc] at he; cases he; rfl
        have hd : decodeBincode services value.type payload = .ok persisted := by
          unfold decodeBincode
          rw [← persist_type hp, hs.decode_encode hb]
          simp
        have hr : persisted.restore = .ok value := restore_persist hp h
        have hc : downcastDecoded value.type value = .ok value := if_pos rfl
        rw [hd]
        change (persisted.restore >>= _) = _
        rw [hr]
        change (downcastDecoded value.type value >>= _) = _
        rw [hc]
        rfl
      next => cases he
    · cases he

theorem decodePersisted_other_type {services : CacheServices T} {type other : ArtifactType}
    (h : decodePersisted services type key payload = .ok (some value)) (hne : other ≠ type)
    (bytes : List UInt8) :
    decodePersisted services other key bytes = .ok none := by
  unfold decodePersisted at h ⊢
  split at h
  next => cases h
  next frontend hk =>
    split_ifs at h with ht
    · have hn : ¬ persistedType frontend = some other := by
        rw [ht, Option.some.injEq]
        exact Ne.symm hne
      simp only [hn, if_false]
    · cases h

namespace FrontendDiskArtifactStore
variable {services : CacheServices T} {store : FrontendDiskArtifactStore T} {cls : PersistenceClass}

theorem cacheNamespace_of_diskClass (h : diskClass key = some cls) :
    key.cacheNamespace = frontendCacheNamespace := by
  obtain ⟨frontend, hf, -⟩ := Option.bind_eq_some_iff.mp h
  exact FrontendArtifactKey.cacheNamespace_of_fromCacheKey hf

theorem physicalKey_frontend (h : key.cacheNamespace = frontendCacheNamespace) :
    store.physicalKey key = ⟨store.cacheNamespace, key.kind, key.unit⟩ :=
  if_neg (not_not.mpr h)

theorem physicalKey_inj {key key' : ArtifactKey}
    (h : key.cacheNamespace = frontendCacheNamespace)
    (h' : key'.cacheNamespace = frontendCacheNamespace)
    (he : store.physicalKey key = store.physicalKey key') : key = key' := by
  rw [physicalKey_frontend h, physicalKey_frontend h', ArtifactKey.mk.injEq] at he
  obtain ⟨ns, kind, unit⟩ := key
  obtain ⟨ns', kind', unit'⟩ := key'
  obtain ⟨-, rfl, rfl⟩ := he
  congr
  exact h.trans h'.symm

theorem logicalKey_physicalKey (h : key.cacheNamespace = frontendCacheNamespace) :
    store.logicalKey (store.physicalKey key) = key := by
  rw [physicalKey_frontend h, logicalKey, if_neg (not_not.mpr rfl), ← h]

/-- A dependency outside the frontend is not taken for one of the store's own keys. -/
def DependenciesPortable (store : FrontendDiskArtifactStore T) (metadata : ArtifactMeta) : Prop :=
  ∀ key ∈ metadata.dependencies, key.cacheNamespace = store.cacheNamespace →
    key.cacheNamespace = frontendCacheNamespace

theorem logicalMeta_physicalMeta {metadata : ArtifactMeta}
    (h : store.DependenciesPortable metadata) :
    store.logicalMeta (store.physicalMeta metadata) = metadata := by
  have hk : ∀ key ∈ metadata.dependencies, store.logicalKey (store.physicalKey key) = key := by
    intro key hm
    by_cases hf : key.cacheNamespace = frontendCacheNamespace
    · exact logicalKey_physicalKey hf
    · have hn : key.cacheNamespace ≠ store.cacheNamespace := fun hc => hf (h key hm hc)
      rw [physicalKey, if_pos hf, logicalKey, if_pos hn]
  have hl : (metadata.dependencies.map store.physicalKey).map store.logicalKey =
      metadata.dependencies := by
    rw [List.map_map]
    exact (List.map_congr_left hk).trans (List.map_id _)
  unfold logicalMeta physicalMeta
  simp only [hl]

/-! What is recorded of the calls. -/

inductive StoreCall (T : ArtifactTypes) where
  | put (artifact : CachedArtifact T) (access : DiskCacheAccess) (answer : DiskAnswer)
  | get (type : ArtifactType) (key : ArtifactKey)
  | metadata (key : ArtifactKey)
  | remove (key : ArtifactKey)
  | invalidate (selector : InvalidationSelector)

/-- A store, and for each key the last artifact put that was neither removed nor reported
invalidated since. -/
structure StoreHistory (T : ArtifactTypes) where
  store : FrontendDiskArtifactStore T
  latest : ArtifactKey → Option (CachedArtifact T)

/-- One call; a put that fails changes nothing. -/
def StoreHistory.perform (services : CacheServices T) (history : StoreHistory T) :
    StoreCall T → StoreHistory T
  | .put artifact access answer =>
    match history.store.putWithDiskAccess services artifact access answer with
    | .ok store => ⟨store, Function.update history.latest artifact.key (some artifact)⟩
    | .error _ => history
  | .get _ _ => history
  | .metadata _ => history
  | .remove key => ⟨history.store.remove key, Function.update history.latest key none⟩
  | .invalidate selector =>
    let result := history.store.invalidate services selector
    ⟨result.1, fun key => if key ∈ result.2.invalidated then none else history.latest key⟩

def StoreHistory.run (services : CacheServices T) (history : StoreHistory T)
    (calls : List (StoreCall T)) : StoreHistory T :=
  calls.foldl (StoreHistory.perform services) history

/-- The lookups of a key answer what was put last, and nothing else. -/
structure AnswersLatest (get : ArtifactType → Except CacheError (Option (CachedArtifact T)))
    (metadata : Option ArtifactMeta) (latest : Option (CachedArtifact T)) : Prop where
  present : ∀ artifact, latest = some artifact →
    get artifact.value.type = .ok (some artifact) ∧ metadata = some artifact.metadata
  absent : latest = none → (∀ type, get type = .ok none) ∧ metadata = none
  current : ∀ type artifact, get type = .ok (some artifact) → latest = some artifact

def AsOneMap (services : CacheServices T) (history : StoreHistory T) : Prop :=
  ∀ key, AnswersLatest (fun type => history.store.get services type key)
    (history.store.metadata key) (history.latest key)

/-! When a call keeps the tiers in step. -/

/-- A write that goes to memory finds no entry on the disk; one that goes to the disk can be read
back, and finds in memory no artifact of another type. -/
def PutTidy (services : CacheServices T) (store : FrontendDiskArtifactStore T)
    (artifact : CachedArtifact T) (access : DiskCacheAccess) (answer : DiskAnswer) : Prop :=
  match diskClass artifact.key with
  | none | some .memoryOnly => True
  | some .diskMetadataOnly =>
    if access.canWrite && answer.metadataStored then store.DependenciesPortable artifact.metadata
    else store.disk.get (store.physicalKey artifact.key) = none
  | some (.diskPayload maxPayloadBytes) =>
    if access.canWrite then
      match encodePersisted services artifact.key artifact.value with
      | .error _ => True
      | .ok none => store.disk.get (store.physicalKey artifact.key) = none
      | .ok (some payload) =>
        if payload.length ≤ maxPayloadBytes ∧ answer.bytes = .stored then
          store.DependenciesPortable artifact.metadata ∧ artifact.value.Portable ∧
            ∀ old, store.memory.get artifact.key = some old → old.value.type = artifact.value.type
        else store.disk.get (store.physicalKey artifact.key) = none
    else store.disk.get (store.physicalKey artifact.key) = none

/-- A key that one tier invalidates is not kept by the other. -/
def InvalidateTidy (services : CacheServices T) (store : FrontendDiskArtifactStore T)
    (selector : InvalidationSelector) : Prop :=
  ∀ key, key ∈ (store.memoryAffected services selector).invalidated ∨
      key ∈ (store.logicalReport (store.diskAffected services selector)).invalidated →
    (store.memory.get key ≠ none → key ∈ (store.memoryAffected services selector).invalidated) ∧
      ((diskClass key).isSome → store.disk.get (store.physicalKey key) ≠ none →
        store.physicalKey key ∈ (store.diskAffected services selector).invalidated)

def Tidy (services : CacheServices T) (store : FrontendDiskArtifactStore T) :
    StoreCall T → Prop
  | .put artifact access answer => store.PutTidy services artifact access answer
  | .invalidate selector => store.InvalidateTidy services selector
  | .get _ _ | .metadata _ | .remove _ => True

/-- Every call of a run meets its condition in the state in which it is made. -/
def TidyRun (services : CacheServices T) : StoreHistory T → List (StoreCall T) → Prop
  | _, [] => True
  | history, call :: calls => history.store.Tidy services call ∧
      TidyRun services (history.perform services call) calls

/-! The invariant: for each key, the tier that is read first holds what was put last. -/

/-- The tiers at one key: what memory holds, what the disk holds, and what was put last. -/
def TiersAgree (services : CacheServices T) (store : FrontendDiskArtifactStore T)
    (key : ArtifactKey) (held : Option (CachedArtifact T)) (entry : Option DiskEntry)
    (latest : Option (CachedArtifact T)) : Prop :=
  match diskClass key with
  | none | some .memoryOnly => held = latest
  | some .diskMetadataOnly => held = latest ∧ ∀ found, entry = some found →
      ∃ artifact, latest = some artifact ∧ store.logicalMeta found.metadata = artifact.metadata
  | some (.diskPayload _) =>
    match entry with
    | none => held = latest
    | some found => ∃ artifact payload, latest = some artifact ∧
        found.payload = some (.bincode2, payload) ∧
        store.logicalMeta found.metadata = artifact.metadata ∧
        decodePersisted services artifact.value.type key payload = .ok (some artifact.value) ∧
        ∀ old, held = some old → old.value.type = artifact.value.type

structure Agrees (services : CacheServices T) (history : StoreHistory T) : Prop where
  access : history.store.access = .readWrite
  keyed : ∀ key artifact, history.latest key = some artifact → artifact.key = key
  tiers : ∀ key, TiersAgree services history.store key (history.store.memory.get key)
    (history.store.disk.get (history.store.physicalKey key)) (history.latest key)

/-! Lookups in a store whose tiers agree. -/

variable {type : ArtifactType} {artifact : CachedArtifact T}

theorem memoryGet_of_get (h : store.memoryGet services type key = .ok (some artifact)) :
    store.memory.get key = some artifact ∧ artifact.value.type = type := by
  unfold memoryGet at h
  split at h
  next => cases h
  next held hm =>
    split_ifs at h with ht
    · cases h
      exact ⟨hm, ht⟩
    · cases hs : services.mismatch with
      | error => rw [hs] at h; cases h
      | ok => rw [hs] at h; cases h

theorem memoryGet_present (h : store.memory.get key = some artifact) :
    store.memoryGet services artifact.value.type key = .ok (some artifact) := by
  simp [memoryGet, h]

theorem answersLatest_memory {metadata : Option ArtifactMeta}
    (hm : metadata = (store.memory.get key).map CachedArtifact.metadata) :
    AnswersLatest (fun type => store.memoryGet services type key) metadata
      (store.memory.get key) := by
  refine ⟨fun artifact h => ⟨memoryGet_present h, by rw [hm, h]; rfl⟩, fun h => ?_, ?_⟩
  · refine ⟨fun type => by simp [memoryGet, h], by rw [hm, h]; rfl⟩
  · exact fun type artifact h => (memoryGet_of_get h).1

theorem diskPayloadClass_eq (h : diskClass key = some cls) :
    diskPayloadClass key =
      if cls = .diskMetadataOnly ∨ cls = .memoryOnly then none else some cls := by
  unfold diskPayloadClass
  rw [h]
  cases cls <;> rfl

theorem diskClass_ne_memoryOnly : diskClass key ≠ some .memoryOnly := by
  intro h
  obtain ⟨frontend, -, hc⟩ := Option.bind_eq_some_iff.mp h
  split_ifs at hc with hm
  exact hm (Option.some.inj hc)

theorem get_of_not_payload (h : diskPayloadClass key = none) :
    store.get services type key = store.memoryGet services type key := by
  unfold get getWithDiskAccess
  rw [h]
  simp

theorem get_of_getPersisted_none (h : store.getPersisted services type key = .ok none) :
    store.get services type key = store.memoryGet services type key := by
  unfold get getWithDiskAccess
  rw [h]
  split_ifs <;> rfl

theorem get_of_getPersisted_some (ha : store.access = .readWrite)
    (hc : diskPayloadClass key = some cls)
    (h : store.getPersisted services type key = .ok (some artifact)) :
    store.get services type key = .ok (some artifact) := by
  unfold get getWithDiskAccess
  rw [h, ha, hc]
  rfl

theorem getPersisted_absent (h : store.disk.get (store.physicalKey key) = none) :
    store.getPersisted services type key = .ok none := by
  unfold getPersisted
  rw [h]

theorem getPersisted_present {entry : DiskEntry} (hk : key.cacheNamespace = frontendCacheNamespace)
    (h : store.disk.get (store.physicalKey key) = some entry)
    (hp : entry.payload = some (.bincode2, payload)) :
    store.getPersisted services type key =
      (decodePersisted services type key payload).map fun value =>
        value.map fun value => ⟨key, store.logicalMeta entry.metadata, value⟩ := by
  unfold getPersisted
  rw [h, logicalKey_physicalKey hk]
  simp only [hp, ne_eq, not_true_eq_false, if_false]

theorem metadata_eq (ha : store.access = .readWrite) (h : diskClass key = some cls) :
    store.metadata key =
      ((store.disk.get (store.physicalKey key)).map fun entry =>
        store.logicalMeta entry.metadata).or
        ((store.memory.get key).map CachedArtifact.metadata) := by
  unfold metadata metadataWithDiskAccess
  rw [h, ha]
  cases store.disk.get (store.physicalKey key) <;> rfl

theorem metadata_of_not_disk (h : diskClass key = none) :
    store.metadata key = (store.memory.get key).map CachedArtifact.metadata := by
  unfold metadata metadataWithDiskAccess
  rw [h]
  simp

variable {maxPayloadBytes : ℕ} {history : StoreHistory T}

theorem Agrees.payload_answers (h : Agrees services history)
    (hc : diskClass key = some (.diskPayload maxPayloadBytes)) :
    AnswersLatest (fun type => history.store.get services type key)
      (history.store.metadata key) (history.latest key) := by
  have ht := h.tiers key
  have hm := metadata_eq h.access hc
  have hp : diskPayloadClass key = some (.diskPayload maxPayloadBytes) := diskPayloadClass_eq hc
  simp only [TiersAgree, hc] at ht
  cases hd : history.store.disk.get (history.store.physicalKey key) with
  | none =>
    rw [hd] at ht hm
    have hg : ∀ type, history.store.get services type key =
        history.store.memoryGet services type key :=
      fun type => get_of_getPersisted_none (getPersisted_absent hd)
    simp only [hg, ← ht]
    exact answersLatest_memory hm
  | some entry =>
    rw [hd] at ht hm
    obtain ⟨artifact, payload, hl, hpay, hmeta, hdec, hold⟩ := ht
    have hk := cacheNamespace_of_diskClass hc
    have hown : history.store.get services artifact.value.type key = .ok (some artifact) := by
      apply get_of_getPersisted_some h.access hp
      rw [getPersisted_present hk hd hpay, hdec, hmeta, ← h.keyed key artifact hl]
      rfl
    rw [hl]
    refine ⟨fun _ he => ?_, fun he => (Option.some_ne_none _ he).elim, fun type found hf => ?_⟩
    · obtain rfl := Option.some.inj he
      refine ⟨hown, ?_⟩
      rw [hm, Option.map_some, Option.some_or, hmeta]
    · by_cases hty : type = artifact.value.type
      · rw [hty, hown] at hf
        exact Except.ok.inj hf
      · have hn : history.store.getPersisted services type key = .ok none := by
          rw [getPersisted_present hk hd hpay, decodePersisted_other_type hdec hty]
          rfl
        rw [get_of_getPersisted_none hn] at hf
        obtain ⟨hheld, htype⟩ := memoryGet_of_get hf
        exact (hty (htype.symm.trans (hold found hheld))).elim

theorem Agrees.asOneMap (h : Agrees services history) : AsOneMap services history := by
  intro key
  have ht := h.tiers key
  unfold TiersAgree at ht
  split at ht
  next hc =>
    have hp : diskPayloadClass key = none := by rw [diskPayloadClass, hc]; rfl
    simp only [get_of_not_payload hp, ← ht]
    exact answersLatest_memory (metadata_of_not_disk hc)
  next hc => exact (diskClass_ne_memoryOnly hc).elim
  next hc =>
    have hp : diskPayloadClass key = none := diskPayloadClass_eq hc
    simp only [get_of_not_payload hp, ← ht.1]
    refine answersLatest_memory ?_
    rw [metadata_eq h.access hc]
    cases hd : history.store.disk.get (history.store.physicalKey key) with
    | none => rfl
    | some entry =>
      obtain ⟨artifact, hl, hmeta⟩ := ht.2 entry hd
      rw [ht.1, hl, Option.map_some, Option.some_or, hmeta]
      rfl
  next hc => exact h.payload_answers hc

/-! Calls keep the tiers in agreement. -/

variable {store' : FrontendDiskArtifactStore T}

theorem logicalMeta_congr
    (h : store'.cacheNamespace = store.cacheNamespace) : store'.logicalMeta = store.logicalMeta := by
  funext metadata
  unfold logicalMeta logicalKey
  rw [h]

theorem TiersAgree.congr {held latest : Option (CachedArtifact T)} {entry entry' : Option DiskEntry}
    (h : TiersAgree services store key held entry latest)
    (hn : store'.cacheNamespace = store.cacheNamespace)
    (he : (diskClass key).isSome → entry' = entry) :
    TiersAgree services store' key held entry' latest := by
  unfold TiersAgree at h ⊢
  rw [logicalMeta_congr hn]
  cases hc : diskClass key with
  | none => simpa only [hc] using h
  | some cls =>
    rw [hc] at h
    rw [he (by rw [hc]; rfl)]
    exact h

theorem tiersAgree_of_entry_none {held : Option (CachedArtifact T)} {entry : Option DiskEntry}
    (h : (diskClass key).isSome → entry = none) :
    TiersAgree services store key held entry held := by
  unfold TiersAgree
  split
  next => rfl
  next => rfl
  next hc =>
    rw [h (by rw [hc]; rfl)]
    exact ⟨rfl, fun found hf => by cases hf⟩
  next hc => rw [h (by rw [hc]; rfl)]

/-- A call that is about one key leaves the others in agreement. -/
theorem Agrees.change_key {latest : Option (CachedArtifact T)} (h : Agrees services history)
    (store' : FrontendDiskArtifactStore T)
    (hn : store'.cacheNamespace = history.store.cacheNamespace)
    (ha : store'.access = history.store.access)
    (hm : ∀ k, k ≠ key → store'.memory.get k = history.store.memory.get k)
    (hd : ∀ k, k ≠ key → (diskClass k).isSome →
      store'.disk.get (store'.physicalKey k) = history.store.disk.get (history.store.physicalKey k))
    (hk : ∀ artifact, latest = some artifact → artifact.key = key)
    (ht : TiersAgree services store' key (store'.memory.get key)
      (store'.disk.get (store'.physicalKey key)) latest) :
    Agrees services ⟨store', Function.update history.latest key latest⟩ := by
  refine ⟨ha.trans h.access, fun k artifact hl => ?_, fun k => ?_⟩
  · by_cases hkk : k = key
    · subst hkk
      exact hk artifact (by simpa using hl)
    · exact h.keyed k artifact (by simpa [hkk] using hl)
  · by_cases hkk : k = key
    · subst hkk
      simpa using ht
    · simp only [Function.update_of_ne hkk]
      rw [hm k hkk]
      exact (h.tiers k).congr hn (hd k hkk)

theorem physicalKey_ne {key key' : ArtifactKey} (hk : (diskClass key).isSome)
    (hk' : (diskClass key').isSome) (hne : key ≠ key') :
    store.physicalKey key ≠ store.physicalKey key' := by
  obtain ⟨cls, hc⟩ := Option.isSome_iff_exists.mp hk
  obtain ⟨cls', hc'⟩ := Option.isSome_iff_exists.mp hk'
  exact fun he =>
    hne (physicalKey_inj (cacheNamespace_of_diskClass hc) (cacheNamespace_of_diskClass hc') he)

theorem Agrees.memoryPut (h : Agrees services history)
    (hd : (diskClass artifact.key).isSome →
      history.store.disk.get (history.store.physicalKey artifact.key) = none) :
    Agrees services ⟨history.store.memoryPut artifact,
      Function.update history.latest artifact.key (some artifact)⟩ := by
  refine h.change_key (history.store.memoryPut artifact) rfl rfl ?_ ?_ ?_ ?_
  · exact fun k hk => Map.get_insert_ne _ hk _
  · exact fun k hk _ => rfl
  · exact fun a ha => by cases ha; rfl
  · have hheld : (history.store.memoryPut artifact).memory.get artifact.key = some artifact :=
      Map.get_insert_self _ _ _
    rw [hheld]
    exact tiersAgree_of_entry_none hd

/-- A put whose payload is stored. -/
theorem Agrees.diskPut (hs : services.Lawful) (h : Agrees services history)
    (hc : diskClass artifact.key = some (.diskPayload maxPayloadBytes))
    (he : encodePersisted services artifact.key artifact.value = .ok (some payload))
    (hdep : history.store.DependenciesPortable artifact.metadata) (hv : artifact.value.Portable)
    (hold : ∀ old, history.store.memory.get artifact.key = some old →
      old.value.type = artifact.value.type) :
    Agrees services ⟨history.store.diskPut artifact (some (.bincode2, payload)),
      Function.update history.latest artifact.key (some artifact)⟩ := by
  have hsome : (diskClass artifact.key).isSome := by rw [hc]; rfl
  refine h.change_key (history.store.diskPut artifact (some (.bincode2, payload)))
    rfl rfl ?_ ?_ ?_ ?_
  · exact fun k hk => rfl
  · exact fun k hk hkc => Map.get_insert_ne _ (physicalKey_ne hkc hsome hk) _
  · exact fun a ha => by cases ha; rfl
  · have hentry : (history.store.diskPut artifact (some (.bincode2, payload))).disk.get
        ((history.store.diskPut artifact (some (.bincode2, payload))).physicalKey artifact.key) =
        some ⟨history.store.physicalMeta artifact.metadata, some (.bincode2, payload)⟩ :=
      Map.get_insert_self _ _ _
    rw [hentry]
    unfold TiersAgree
    rw [hc]
    exact ⟨artifact, payload, rfl, rfl, logicalMeta_physicalMeta hdep,
      decodePersisted_encodePersisted hs hv he, hold⟩

theorem Agrees.metadataPut (h : Agrees services history)
    (hc : diskClass artifact.key = some .diskMetadataOnly)
    (hdep : history.store.DependenciesPortable artifact.metadata) :
    Agrees services ⟨(history.store.diskPut artifact none).memoryPut artifact,
      Function.update history.latest artifact.key (some artifact)⟩ := by
  have hsome : (diskClass artifact.key).isSome := by rw [hc]; rfl
  refine h.change_key ((history.store.diskPut artifact none).memoryPut artifact)
    rfl rfl ?_ ?_ ?_ ?_
  · exact fun k hk => Map.get_insert_ne _ hk _
  · exact fun k hk hkc => Map.get_insert_ne _ (physicalKey_ne hkc hsome hk) _
  · exact fun a ha => by cases ha; rfl
  · have hheld : ((history.store.diskPut artifact none).memoryPut artifact).memory.get
        artifact.key = some artifact := Map.get_insert_self _ _ _
    have hentry : ((history.store.diskPut artifact none).memoryPut artifact).disk.get
        (((history.store.diskPut artifact none).memoryPut artifact).physicalKey artifact.key) =
        some ⟨history.store.physicalMeta artifact.metadata, none⟩ := Map.get_insert_self _ _ _
    rw [hheld, hentry]
    unfold TiersAgree
    rw [hc]
    refine ⟨rfl, fun found hf => ⟨artifact, rfl, ?_⟩⟩
    obtain rfl := Option.some.inj hf
    exact logicalMeta_physicalMeta hdep

variable {answer : DiskAnswer} {access : DiskCacheAccess}

theorem perform_put {result : FrontendDiskArtifactStore T}
    (h : history.store.putWithDiskAccess services artifact access answer = .ok result) :
    history.perform services (.put artifact access answer) =
      ⟨result, Function.update history.latest artifact.key (some artifact)⟩ := by
  simp only [StoreHistory.perform, h]

theorem putWithDiskAccess_disabled (hw : access.canWrite = false) :
    store.putWithDiskAccess services artifact access answer = .ok (store.memoryPut artifact) := by
  unfold putWithDiskAccess
  rw [hw, Bool.and_false]
  rfl

theorem putWithDiskAccess_eq_put (ha : store.access = .readWrite) (hw : access.canWrite = true) :
    store.putWithDiskAccess services artifact access answer =
      store.put services artifact answer := by
  unfold putWithDiskAccess
  rw [hw, ha]
  rfl

theorem put_of_class (ha : store.access = .readWrite)
    (hc : diskClass artifact.key = some (.diskPayload maxPayloadBytes)) :
    store.put services artifact answer =
      store.putPayload services artifact maxPayloadBytes answer := by
  unfold put
  rw [ha, hc]
  rfl

theorem putPayload_eq
    (he : encodePersisted services artifact.key artifact.value = .ok (some payload)) :
    store.putPayload services artifact maxPayloadBytes answer =
      .ok (if payload.length ≤ maxPayloadBytes ∧ answer.bytes = .stored then
        store.diskPut artifact (some (.bincode2, payload)) else store.memoryPut artifact) := by
  unfold putPayload
  rw [he]
  by_cases hl : payload.length ≤ maxPayloadBytes
  · have hg : ¬ payload.length > maxPayloadBytes := by omega
    change (if payload.length > maxPayloadBytes then _ else _) = _
    rw [if_neg hg]
    cases answer.bytes <;> simp [hl]
  · have hg : payload.length > maxPayloadBytes := by omega
    change (if payload.length > maxPayloadBytes then _ else _) = _
    rw [if_pos hg, if_neg (fun h => hl h.1)]

theorem Agrees.put_payload (hs : services.Lawful) (h : Agrees services history)
    (hw : access.canWrite = true)
    (hc : diskClass artifact.key = some (.diskPayload maxPayloadBytes))
    (ht : history.store.PutTidy services artifact access answer) :
    Agrees services (history.perform services (.put artifact access answer)) := by
  have hput : history.store.putWithDiskAccess services artifact access answer =
      history.store.putPayload services artifact maxPayloadBytes answer :=
    (putWithDiskAccess_eq_put h.access hw).trans (put_of_class h.access hc)
  unfold PutTidy at ht
  simp only [hc, hw, if_true] at ht
  split at ht
  next e he =>
    have hfail : history.store.putWithDiskAccess services artifact access answer = .error e := by
      rw [hput, putPayload, he]
      rfl
    simp only [StoreHistory.perform, hfail]
    exact h
  next he =>
    have hmem : history.store.putWithDiskAccess services artifact access answer =
        .ok (history.store.memoryPut artifact) := by
      rw [hput, putPayload, he]
      rfl
    rw [perform_put hmem]
    exact h.memoryPut fun _ => ht
  next payload he =>
    rw [perform_put (hput.trans (putPayload_eq he))]
    split_ifs at ht ⊢ with hstored
    · exact h.diskPut hs hc he ht.1 ht.2.1 ht.2.2
    · exact h.memoryPut fun _ => ht

theorem Agrees.put (hs : services.Lawful) (h : Agrees services history)
    (ht : history.store.PutTidy services artifact access answer) :
    Agrees services (history.perform services (.put artifact access answer)) := by
  cases hw : access.canWrite with
  | false =>
    rw [perform_put (putWithDiskAccess_disabled hw)]
    refine h.memoryPut fun hsome => ?_
    obtain ⟨cls, hc⟩ := Option.isSome_iff_exists.mp hsome
    unfold PutTidy at ht
    rw [hc, hw] at ht
    cases cls with
    | memoryOnly => exact (diskClass_ne_memoryOnly hc).elim
    | diskMetadataOnly | diskPayload => exact ht
  | true =>
    have hput : history.store.putWithDiskAccess services artifact access answer =
        history.store.put services artifact answer := putWithDiskAccess_eq_put h.access hw
    cases hc : diskClass artifact.key with
    | none =>
      have hmem : history.store.put services artifact answer =
          .ok (history.store.memoryPut artifact) := by
        unfold FrontendDiskArtifactStore.put
        rw [h.access, hc]
        rfl
      rw [perform_put (hput.trans hmem)]
      exact h.memoryPut fun hsome => by rw [hc] at hsome; cases hsome
    | some cls =>
      cases cls with
      | memoryOnly => exact (diskClass_ne_memoryOnly hc).elim
      | diskPayload maxPayloadBytes => exact h.put_payload hs hw hc ht
      | diskMetadataOnly =>
        have hmeta : history.store.put services artifact answer =
            if answer.metadataStored then
              .ok ((history.store.diskPut artifact none).memoryPut artifact)
            else .ok (history.store.memoryPut artifact) := by
          unfold FrontendDiskArtifactStore.put
          rw [h.access, hc]
          rfl
        unfold PutTidy at ht
        rw [hc, hw] at ht
        cases hst : answer.metadataStored with
        | true =>
          rw [hst] at ht hmeta
          rw [perform_put (hput.trans hmeta)]
          exact h.metadataPut hc ht
        | false =>
          rw [hst] at ht hmeta
          rw [perform_put (hput.trans hmeta)]
          exact h.memoryPut fun _ => ht

theorem Agrees.remove (h : Agrees services history) :
    Agrees services (history.perform services (.remove key)) := by
  have hdisk : ∀ k, (history.store.remove key).disk.get (history.store.physicalKey k) =
      if (diskClass key).isSome ∧ history.store.physicalKey k = history.store.physicalKey key
      then none else history.store.disk.get (history.store.physicalKey k) := by
    intro k
    unfold FrontendDiskArtifactStore.remove
    rw [h.access]
    cases hc : (diskClass key).isSome with
    | false => simp [DiskCacheAccess.canWrite]
    | true => simp [DiskCacheAccess.canWrite, Map.get_remove]
  refine h.change_key (history.store.remove key) rfl rfl ?_ ?_ ?_ ?_
  · exact fun k hk => (Map.get_remove _ _ _).trans (if_neg hk)
  · intro k hk hkc
    refine (hdisk k).trans (if_neg fun hb => ?_)
    exact physicalKey_ne hkc hb.1 hk hb.2
  · exact fun a ha => by cases ha
  · have hheld : (history.store.remove key).memory.get key = none :=
      (Map.get_remove _ _ _).trans (if_pos rfl)
    have hentry : (diskClass key).isSome → (history.store.remove key).disk.get
        ((history.store.remove key).physicalKey key) = none :=
      fun hsome => (hdisk key).trans (if_pos ⟨hsome, rfl⟩)
    rw [hheld]
    exact tiersAgree_of_entry_none hentry

theorem invalidate_eq {selector : InvalidationSelector} (ha : store.access = .readWrite) :
    store.invalidate services selector =
      ({ store with
          memory := (store.memoryAffected services selector).invalidated.foldl Map.remove
            store.memory
          disk := (store.diskAffected services selector).invalidated.foldl Map.remove store.disk },
        mergeReports (store.memoryAffected services selector)
          (store.logicalReport (store.diskAffected services selector))) := by
  unfold invalidate
  rw [ha]
  rfl

theorem Agrees.invalidate {selector : InvalidationSelector} (h : Agrees services history)
    (ht : history.store.InvalidateTidy services selector) :
    Agrees services (history.perform services (.invalidate selector)) := by
  simp only [StoreHistory.perform, invalidate_eq h.access]
  have hmem : ∀ key, key ∈ (mergeReports (history.store.memoryAffected services selector)
        (history.store.logicalReport
          (history.store.diskAffected services selector))).invalidated ↔
      key ∈ (history.store.memoryAffected services selector).invalidated ∨
        key ∈ (history.store.logicalReport
          (history.store.diskAffected services selector)).invalidated := by
    intro key
    rw [mergeReports, List.mem_eraseDups, List.mem_append]
  refine ⟨h.access, fun key artifact hl => ?_, fun key => ?_⟩
  · dsimp only at hl
    split_ifs at hl with hr
    exact h.keyed key artifact hl
  · dsimp only
    rw [Map.get_foldl_remove]
    by_cases hr : key ∈ (history.store.memoryAffected services selector).invalidated ∨
        key ∈ (history.store.logicalReport
          (history.store.diskAffected services selector)).invalidated
    · rw [if_pos ((hmem key).mpr hr)]
      obtain ⟨htm, htd⟩ := ht key hr
      have hheld : (if key ∈ (history.store.memoryAffected services selector).invalidated then none
          else history.store.memory.get key) = none := by
        split_ifs with hi
        · rfl
        · by_contra hne
          exact hi (htm hne)
      rw [hheld]
      refine tiersAgree_of_entry_none fun hsome => ?_
      change ((history.store.diskAffected services selector).invalidated.foldl Map.remove
        history.store.disk).get (history.store.physicalKey key) = none
      rw [Map.get_foldl_remove]
      split_ifs with hi
      · rfl
      · by_contra hne
        exact hi (htd hsome hne)
    · have hr' := not_or.mp hr
      rw [if_neg fun hm => hr ((hmem key).mp hm), if_neg hr'.1]
      refine (h.tiers key).congr rfl fun hsome => ?_
      obtain ⟨cls, hc⟩ := Option.isSome_iff_exists.mp hsome
      change ((history.store.diskAffected services selector).invalidated.foldl Map.remove
        history.store.disk).get (history.store.physicalKey key) = _
      rw [Map.get_foldl_remove, if_neg]
      intro hi
      have hl := List.mem_map_of_mem (f := history.store.logicalKey) hi
      rw [logicalKey_physicalKey (cacheNamespace_of_diskClass hc)] at hl
      exact hr'.2 hl

theorem Agrees.perform {call : StoreCall T} (hs : services.Lawful) (h : Agrees services history)
    (ht : history.store.Tidy services call) :
    Agrees services (history.perform services call) := by
  cases call with
  | put artifact access answer => exact h.put hs ht
  | invalidate selector => exact h.invalidate ht
  | remove key => exact h.remove
  | get | metadata => exact h

theorem Agrees.run {calls : List (StoreCall T)} (hs : services.Lawful) (h : Agrees services history)
    (ht : TidyRun services history calls) :
    Agrees services (history.run services calls) := by
  induction calls generalizing history with
  | nil => exact h
  | cons call calls ih => exact ih (h.perform hs ht.1) ht.2

theorem agrees_opened (services : CacheServices T) (cacheNamespace : String) :
    Agrees services ⟨opened cacheNamespace .readWrite, fun _ => none⟩ :=
  ⟨rfl, fun _ _ h => (Option.some_ne_none _ h.symm).elim,
    fun _ => tiersAgree_of_entry_none fun _ => rfl⟩

/-- Along every run whose calls keep the tiers in step, the store acts as one map. -/
theorem run_asOneMap (services : CacheServices T) (hs : services.Lawful) (cacheNamespace : String)
    (calls : List (StoreCall T))
    (ht : TidyRun services ⟨opened cacheNamespace .readWrite, fun _ => none⟩ calls) :
    AsOneMap services
      (StoreHistory.run services ⟨opened cacheNamespace .readWrite, fun _ => none⟩ calls) :=
  ((agrees_opened services cacheNamespace).run hs ht).asOneMap

/-! A manifest that is stored, and a later one that the disk skips. -/

def plainTypes : ArtifactTypes := ⟨Unit, Unit, Unit, Unit, Unit⟩

def manifestRecord : FrontendArtifactRecord :=
  ⟨⟨.artifactManifest, .project⟩, 0, List.replicate 32 0, [], []⟩

/-- The bytes of a manifest without records and of one with one record. -/
def manifestBytes : List (PersistedFrontendArtifactManifest × List UInt8) :=
  [(⟨[]⟩, [0]), (⟨[.fromFrontend manifestRecord]⟩, [1, 3, 0, 0] ++ List.replicate 32 0 ++ [0, 0])]

def manifestServices : CacheServices plainTypes where
  encode
    | .manifest value =>
      match manifestBytes.find? fun entry => entry.1 == value with
      | some entry => .ok entry.2
      | none => .error "not in the table"
    | _ => .error "not in the table"
  decode
    | .manifest, payload =>
      match manifestBytes.find? fun entry => entry.2 == payload with
      | some entry => .ok (.manifest entry.1, payload.length)
      | none => .error "not in the table"
    | _, _ => .error "not in the table"
  affected entries
    | .exact key => if (entries.get key).isSome then ⟨[key], [key]⟩ else ⟨[], []⟩
    | _ => ⟨[], []⟩
  mismatch := .ok ()

theorem manifestServices_lawful : manifestServices.Lawful := by
  refine ⟨fun {value payload} h => ?_⟩
  cases value with
  | reuseIndex | itemSignature | bodyTypeOutput | bodyEffectOutput => cases h
  | manifest value =>
    simp only [manifestServices] at h
    split at h
    next entry hf =>
      obtain rfl := Except.ok.inj h
      have hv : entry.1 = value := by simpa using List.find?_some hf
      have hm : entry = manifestBytes[0] ∨ entry = manifestBytes[1] := by
        simpa [manifestBytes] using List.mem_of_find?_eq_some hf
      subst hv
      rcases hm with rfl | rfl <;> rfl
    next => cases h

def manifestKey : ArtifactKey := ⟨"frontend", "artifact_manifest", "project"⟩

def manifestArtifact (revision : ℕ) (records : List FrontendArtifactRecord) :
    CachedArtifact plainTypes :=
  ⟨manifestKey, ⟨revision, [], "0.1.0", 121, none, []⟩, .manifest ⟨records⟩⟩

def emptyHistory : StoreHistory plainTypes :=
  ⟨opened "frontend" .readWrite, fun _ => none⟩

/-- Without the invalidation between the puts the second one would not be tidy. -/
theorem run_asOneMap_manifests :
    AsOneMap manifestServices (emptyHistory.run manifestServices
      [.put (manifestArtifact 0 []) .readWrite ⟨.stored, true⟩,
        .invalidate (.exact manifestKey),
        .put (manifestArtifact 1 [manifestRecord]) .readWrite ⟨.skipped, true⟩]) := by
  refine run_asOneMap manifestServices manifestServices_lawful "frontend" _ ⟨?_, ?_, ?_, trivial⟩
  · show _ ∧ _ ∧ _
    refine ⟨?_, ?_, ?_⟩
    · intro key hk
      cases hk
    · intro record hr
      cases hr
    · intro old ho
      cases ho
  · intro key hk
    have hkey : key = manifestKey := by
      rcases hk with hk | hk
      · cases hk
      · exact List.mem_singleton.mp hk
    subst hkey
    exact ⟨fun hm => absurd rfl hm, fun _ _ => List.mem_singleton_self _⟩
  · show _ = _
    rfl

def staleHistory : StoreHistory plainTypes :=
  emptyHistory.run manifestServices
    [.put (manifestArtifact 0 []) .readWrite ⟨.stored, true⟩,
      .put (manifestArtifact 1 [manifestRecord]) .readWrite ⟨.skipped, true⟩]

/-- After a skipped write the entry on the disk hides the artifact in memory. -/
theorem run_stale_manifest :
    staleHistory.latest manifestKey = some (manifestArtifact 1 [manifestRecord]) ∧
      staleHistory.store.get manifestServices .manifest manifestKey =
        .ok (some (manifestArtifact 0 [])) ∧
      ¬ AsOneMap manifestServices staleHistory := by
  have hl : staleHistory.latest manifestKey = some (manifestArtifact 1 [manifestRecord]) := rfl
  have hm : staleHistory.store.metadata manifestKey = some (manifestArtifact 0 []).metadata := by
    decide
  refine ⟨hl, rfl, fun h => ?_⟩
  have hp := ((h manifestKey).present _ hl).2
  rw [hm] at hp
  exact absurd hp (by decide)

end FrontendDiskArtifactStore
end EtasFrontend.Artifact
