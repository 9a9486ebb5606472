import EtasFrontend.Artifact.DiskStoreCorrect

/-! The text and the persisted form of artifact keys, and which of them are read back. -/
namespace EtasFrontend.Artifact

/-! Numbers and segments. -/

theorem parseUnsigned_toDigits {bits id : ℕ} (h : id < 2 ^ bits) :
    parseUnsigned bits (Nat.toDigits 10 id) = some id := by
  have hall : ∀ c ∈ Nat.toDigits 10 id, c.isDigit = true := fun c hc =>
    Nat.isDigit_of_mem_toDigits (by omega) (by omega) hc
  have hvalue : (Nat.toDigits 10 id).foldl
      (fun value digit => value * 10 + (digit.toNat - '0'.toNat)) 0 = id := by
    have hten := Nat.ofDigitChars_ten_toDigits (n := id)
    rw [Nat.ofDigitChars_eq_foldl] at hten
    simpa only [Nat.mul_comm] using hten
  cases hd : Nat.toDigits 10 id with
  | nil => exact absurd hd Nat.toDigits_ne_nil
  | cons c rest =>
    rw [hd] at hall hvalue
    have hsign : ∀ tail : List Char, c :: rest = '+' :: tail → False := by
      intro tail heq
      rw [(List.cons.inj heq).1] at hall
      exact absurd (hall '+' List.mem_cons_self) (by decide)
    have hok : (c :: rest).all Char.isDigit = true := List.all_eq_true.mpr hall
    rw [parseUnsigned.eq_2 bits _ hsign, hok, hvalue, if_pos h]
    rfl

theorem splitOn_three {a b c : List Char} (ha : ':' ∉ a) (hb : ':' ∉ b) (hc : ':' ∉ c) :
    (a ++ ':' :: (b ++ ':' :: c)).splitOn ':' = [a, b, c] := by
  have hno : ∀ {l : List Char}, ':' ∉ l → ∀ x ∈ l, (x == ':') = false := by
    intro l hl x hx
    rw [beq_eq_false_iff_ne]
    rintro rfl
    exact hl hx
  rw [List.splitOn_eq_splitOnP,
    List.splitOnP_append_cons_of_forall_mem (hno ha) ':' (by decide),
    List.splitOnP_append_cons_of_forall_mem (hno hb) ':' (by decide),
    List.splitOnP_eq_singleton (hno hc)]

theorem colon_not_mem_toDigits (id : ℕ) : ':' ∉ Nat.toDigits 10 id := by
  intro h
  exact absurd (Nat.isDigit_of_mem_toDigits (by omega) (by omega) h) (by decide)

def registeredUnitKinds : List UnitKindKey :=
  [projectUnitKind, sourceFileUnitKind, moduleUnitKind, modulePartUnitKind, itemUnitKind,
    bodyUnitKind, blockUnitKind, expressionUnitKind]

namespace FrontendUnitKey

/-- Ids fit their types, and a unit key has a registered kind. -/
def Valid : FrontendUnitKey → Prop
  | project => True
  | source id | moduleUnit id | modulePart id | item id => id < 2 ^ 32
  | unit key => key.kind ∈ registeredUnitKinds ∧ key.id < 2 ^ 64

theorem frontendUnitKind_registered {kind : UnitKindKey} (h : kind ∈ registeredUnitKinds) :
    frontendUnitKind kind.kindNamespace kind.name = some kind ∧
      ':' ∉ kind.kindNamespace.toList ∧ ':' ∉ kind.name.toList := by
  simp only [registeredUnitKinds, List.mem_cons, List.not_mem_nil, or_false] at h
  rcases h with rfl | rfl | rfl | rfl | rfl | rfl | rfl | rfl <;> decide

theorem fromCacheUnit_cacheUnit {key : FrontendUnitKey} (h : key.Valid) :
    fromCacheUnit key.cacheUnit = some key := by
  cases key with
  | project => decide
  | source id =>
    have hp := parseUnsigned_toDigits h
    simp [cacheUnit, fromCacheUnit, List.isPrefixOf?, hp, String.ext_iff]
  | moduleUnit id =>
    have hp := parseUnsigned_toDigits h
    simp [cacheUnit, fromCacheUnit, List.isPrefixOf?, hp, String.ext_iff]
  | modulePart id =>
    have hp := parseUnsigned_toDigits h
    simp [cacheUnit, fromCacheUnit, List.isPrefixOf?, hp, String.ext_iff]
  | item id =>
    have hp := parseUnsigned_toDigits h
    simp [cacheUnit, fromCacheUnit, List.isPrefixOf?, hp, String.ext_iff]
  | unit key =>
    obtain ⟨⟨kindNamespace, name⟩, id⟩ := key
    have hp := parseUnsigned_toDigits h.2
    obtain ⟨hkind, hn, hm⟩ := frontendUnitKind_registered h.1
    have hs := splitOn_three hn hm (colon_not_mem_toDigits id)
    dsimp only at hp hkind hs
    simp [cacheUnit, fromCacheUnit, List.isPrefixOf?, hs, hp, hkind, String.ext_iff]

end FrontendUnitKey

theorem FrontendArtifactKind.fromKey_key (kind : FrontendArtifactKind) :
    fromKey kind.key = some kind := by
  cases kind <;> decide

theorem FrontendArtifactKey.fromCacheKey_toCacheKey {key : FrontendArtifactKey}
    (h : key.unit.Valid) : fromCacheKey key.toCacheKey = some key := by
  have hunit := FrontendUnitKey.fromCacheUnit_cacheUnit h
  have hkind := FrontendArtifactKind.fromKey_key key.kind
  unfold fromCacheKey toCacheKey
  rw [if_neg (not_not.mpr rfl), hkind, hunit]
  rfl

theorem FrontendArtifactKey.toCacheKey_inj {key key' : FrontendArtifactKey} (h : key.unit.Valid)
    (h' : key'.unit.Valid) (heq : key.toCacheKey = key'.toCacheKey) : key = key' := by
  have hkey := fromCacheKey_toCacheKey h
  rw [heq, fromCacheKey_toCacheKey h'] at hkey
  exact (Option.some.inj hkey).symm

/-! Persisted keys and manifests. -/

theorem toFrontend_unit_iff {unit : FrontendUnitKey} :
    (PersistedFrontendUnitKey.fromFrontend unit).toFrontend = some unit ↔ unit.Portable := by
  refine ⟨fun h => ?_, toFrontend_unit⟩
  cases unit with
  | unit key =>
    obtain ⟨kind, hk, heq⟩ := Option.map_eq_some_iff.mp h
    rw [knownUnitKind] at hk
    split_ifs at hk
    show key.kind = bodyUnitKind
    rw [Option.some.inj hk]
    exact (congrArg UnitKey.kind (FrontendUnitKey.unit.inj heq)).symm
  | project | source | moduleUnit | modulePart | item => exact trivial

theorem toFrontend_key_iff {key : FrontendArtifactKey} :
    (PersistedFrontendArtifactKey.fromFrontend key).toFrontend = some key ↔ key.unit.Portable := by
  refine ⟨fun h => ?_, toFrontend_key⟩
  obtain ⟨unit, hu, heq⟩ := Option.map_eq_some_iff.mp h
  have hunit : unit = key.unit := congrArg FrontendArtifactKey.unit heq
  exact toFrontend_unit_iff.mp (hu.trans (congrArg some hunit))

theorem inverse_of_mapM_map {α β : Type} {f : α → β} {g : β → Option α} {l : List α}
    (h : (l.map f).mapM g = some l) : ∀ a ∈ l, g (f a) = some a := by
  induction l with
  | nil => simp
  | cons a l ih =>
    rw [List.map_cons, List.mapM_cons] at h
    obtain ⟨b, hb, h⟩ := Option.bind_eq_some_iff.mp h
    obtain ⟨bs, hbs, h⟩ := Option.bind_eq_some_iff.mp h
    obtain ⟨rfl, rfl⟩ := List.cons.inj (Option.some.inj h)
    exact List.forall_mem_cons.mpr ⟨hb, ih hbs⟩

theorem intoFrontend_record_iff {record : FrontendArtifactRecord} :
    (PersistedFrontendArtifactRecord.fromFrontend record).intoFrontend = some record ↔
      record.Portable := by
  refine ⟨fun h => ?_, intoFrontend_record⟩
  obtain ⟨key, hk, h⟩ := Option.bind_eq_some_iff.mp h
  obtain ⟨dependencies, hd, h⟩ := Option.bind_eq_some_iff.mp h
  have heq := Option.some.inj h
  have hkey : key = record.key := congrArg FrontendArtifactRecord.key heq
  have hdependencies : dependencies = record.dependencies :=
    congrArg FrontendArtifactRecord.dependencies heq
  subst hkey hdependencies
  refine ⟨toFrontend_key_iff.mp hk, ?_⟩
  intro dependency hm
  obtain ⟨key', hk', heq⟩ := Option.map_eq_some_iff.mp (inverse_of_mapM_map hd dependency hm)
  have hkey : key' = dependency.key := congrArg FrontendArtifactDependency.key heq
  exact toFrontend_key_iff.mp (hk'.trans (congrArg some hkey))

namespace FrontendArtifactManifest

def new : FrontendArtifactManifest := ⟨[]⟩

/-- A record replaces the one of its key. -/
def record (manifest : FrontendArtifactManifest) (record : FrontendArtifactRecord) :
    FrontendArtifactManifest :=
  ⟨(manifest.records.filter fun existing => existing.key ≠ record.key) ++ [record]⟩

/-- What a sequence of calls of `record` builds. -/
def built (calls : List FrontendArtifactRecord) : FrontendArtifactManifest :=
  calls.foldl record new

theorem fromPersisted_toPersisted_iff {manifest : FrontendArtifactManifest} :
    fromPersisted manifest.toPersisted = some manifest ↔
      ∀ record ∈ manifest.records, record.Portable := by
  refine ⟨fun h => ?_, fromPersisted_toPersisted⟩
  obtain ⟨records, hr, rfl⟩ := Option.map_eq_some_iff.mp h
  intro record hm
  exact intoFrontend_record_iff.mp (inverse_of_mapM_map hr record hm)

end FrontendArtifactManifest

/-- The codecs of a key agree, and a manifest is read back, exactly as far as no unit key has a
kind other than that of bodies. -/
theorem codecs_agree_iff (key : FrontendArtifactKey) (h : key.unit.Valid)
    (calls : List FrontendArtifactRecord) :
    ((FrontendArtifactKey.fromCacheKey key.toCacheKey = some key ∧
      (PersistedFrontendArtifactKey.fromFrontend key).toFrontend = some key) ↔
        key.unit.Portable) ∧
    (FrontendArtifactManifest.fromPersisted (FrontendArtifactManifest.built calls).toPersisted =
        some (FrontendArtifactManifest.built calls) ↔
      ∀ record ∈ (FrontendArtifactManifest.built calls).records, record.Portable) := by
  constructor
  · rw [toFrontend_key_iff]
    exact and_iff_right (FrontendArtifactKey.fromCacheKey_toCacheKey h)
  · exact FrontendArtifactManifest.fromPersisted_toPersisted_iff

theorem codecs_agree_body :
    FrontendArtifactKey.fromCacheKey
        (FrontendArtifactKey.toCacheKey ⟨.typeFacts, .unit ⟨bodyUnitKind, 7⟩⟩) =
      some ⟨.typeFacts, .unit ⟨bodyUnitKind, 7⟩⟩ :=
  ((codecs_agree_iff ⟨.typeFacts, .unit ⟨bodyUnitKind, 7⟩⟩ ⟨by decide, by decide⟩ []).1.mpr rfl).1

/-- The table of the persisted form lacks the kind of modules, so a manifest with one record of a
module unit is not read back, although the text of its key is. -/
theorem codecs_disagree_module :
    let key : FrontendArtifactKey := ⟨.hirModule, .unit ⟨moduleUnitKind, 3⟩⟩
    let manifest := FrontendArtifactManifest.new.record ⟨key, 0, [], [], []⟩
    FrontendArtifactKey.fromCacheKey key.toCacheKey = some key ∧
      (PersistedFrontendArtifactKey.fromFrontend key).toFrontend = none ∧
      FrontendArtifactManifest.fromPersisted manifest.toPersisted = none :=
  ⟨FrontendArtifactKey.fromCacheKey_toCacheKey ⟨by decide, by decide⟩, rfl, rfl⟩

end EtasFrontend.Artifact
