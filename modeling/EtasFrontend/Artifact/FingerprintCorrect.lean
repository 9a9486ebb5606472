import EtasFrontend.Artifact.Fingerprint

/-! Equal fingerprints come from equal reuse indexes, and from manifests with the same records. -/
namespace EtasFrontend.Artifact
open Lib

/-! The hashed bytes. -/

theorem mod_pow_of_bytes {n m k : ℕ} (h : ∀ i < k, n / 256 ^ i % 256 = m / 256 ^ i % 256) :
    n % 256 ^ k = m % 256 ^ k := by
  induction k with
  | zero => simp [Nat.mod_one]
  | succ k ih =>
    rw [Nat.mod_pow_succ, Nat.mod_pow_succ, ih fun i hi => h i (by omega), h k (by omega)]

theorem u64LeBytes_inj {n m : ℕ} (hn : n < 2 ^ 64) (hm : m < 2 ^ 64)
    (h : u64LeBytes n = u64LeBytes m) : n = m := by
  have hbytes : ∀ i < 8, n / 256 ^ i % 256 = m / 256 ^ i % 256 := by
    intro i hi
    have heq := List.map_inj_left.mp h i (List.mem_range.mpr hi)
    simpa using congrArg UInt8.toNat heq
  have hmod := mod_pow_of_bytes hbytes
  rwa [Nat.mod_eq_of_lt (by omega), Nat.mod_eq_of_lt (by omega)] at hmod

theorem hashedBytes_inj {parts parts' : List (List UInt8)} (h : ∀ part ∈ parts, part.length < 2 ^ 64)
    (h' : ∀ part ∈ parts', part.length < 2 ^ 64) (heq : hashedBytes parts = hashedBytes parts') :
    parts = parts' := by
  have hcode : ∀ (a a' : List UInt8) (l l' : List (List UInt8)) (s s' : List UInt8),
      a.length < 2 ^ 64 → a'.length < 2 ^ 64 →
      u64LeBytes a.length ++ a ++ s = u64LeBytes a'.length ++ a' ++ s' → a = a' ∧ s = s' := by
    intro a a' _ _ s s' ha ha' hcons
    rw [List.append_assoc, List.append_assoc] at hcons
    obtain ⟨hlength, hrest⟩ := List.append_inj hcons (by simp [u64LeBytes])
    exact List.append_inj hrest (u64LeBytes_inj ha ha' hlength)
  refine (flatMap_inj (fun part : List UInt8 => u64LeBytes part.length ++ part) (fun _ => True)
    (fun part => part.length < 2 ^ 64) (fun a _ => ⟨_, _, rfl, trivial⟩) ?_ h h' ends_nil ends_nil
    (congrArg (· ++ []) heq)).1
  intro a a' l l' s s' ha ha' _ _ _ _ hcons
  exact hcode a a' l l' _ _ ha ha' hcons

theorem utf8Bytes_injective : Function.Injective utf8Bytes := by
  intro s t h
  apply String.toByteArray_inj.mp
  exact ByteArray.ext (Array.toList_inj.mp h)

/-- The lengths of the parts fit the 64 bits they are written in. -/
def Fits (parts : List String) : Prop := ∀ part ∈ parts, (utf8Bytes part).length < 2 ^ 64

variable {hash : List UInt8 → ArtifactFingerprint}

theorem fingerprintText_inj (hhash : Function.Injective hash) {parts parts' : List String}
    (h : Fits parts) (h' : Fits parts')
    (heq : fingerprintText hash parts = fingerprintText hash parts') : parts = parts' := by
  apply List.map_injective_iff.mpr utf8Bytes_injective
  apply hashedBytes_inj (List.forall_mem_map.mpr h) (List.forall_mem_map.mpr h')
  exact hhash heq

theorem toDigits_append_inj {a b : ℕ} {s t : List Char} (hs : ∀ c ∈ s.head?, c.isDigit = false)
    (ht : ∀ c ∈ t.head?, c.isDigit = false)
    (h : Nat.toDigits 10 a ++ s = Nat.toDigits 10 b ++ t) : a = b ∧ s = t := by
  have hdigits : ∀ n : ℕ, ∀ c ∈ Nat.toDigits 10 n, c.isDigit = true := fun n c hc =>
    Nat.isDigit_of_mem_toDigits (by omega) (by omega) hc
  obtain ⟨heq, hrest⟩ := append_inj_of_all (hdigits a) (hdigits b) hs ht h
  refine ⟨?_, hrest⟩
  rw [← Nat.ofDigitChars_ten_toDigits (n := a), heq, Nat.ofDigitChars_ten_toDigits]

theorem toString_injective : Function.Injective (toString : ℕ → String) := by
  intro a b h
  have hdigits : Nat.toDigits 10 a = Nat.toDigits 10 b := by
    simpa [Nat.toString_eq_ofList_toDigits] using congrArg String.toList h
  exact (toDigits_append_inj (s := []) (t := []) (by simp) (by simp) (congrArg (· ++ []) hdigits)).1

theorem debugItems_inj {bytes bytes' : ArtifactFingerprint}
    (h : (", ".intercalate (bytes.map fun byte => toString byte.toNat)).toList ++ [']'] =
      (", ".intercalate (bytes'.map fun byte => toString byte.toNat)).toList ++ [']']) :
    bytes = bytes' := by
  have hne : ∀ (n : ℕ) (s : List Char), [']'] ≠ Nat.toDigits 10 n ++ s := by
    intro n s heq
    cases hd : Nat.toDigits 10 n with
    | nil => exact Nat.toDigits_ne_nil hd
    | cons c rest =>
      rw [hd] at heq
      have hc : c.isDigit = true :=
        Nat.isDigit_of_mem_toDigits (by omega) (by omega) (hd ▸ List.mem_cons_self)
      rw [← (List.cons.inj heq).1] at hc
      exact absurd hc (by decide)
  have htail : ∀ (byte : UInt8) (rest : List UInt8), ∃ s : List Char,
      (∀ c ∈ s.head?, c.isDigit = false) ∧
      (", ".intercalate ((byte :: rest).map fun byte => toString byte.toNat)).toList ++ [']'] =
        Nat.toDigits 10 byte.toNat ++ s ∧
      s = if rest = [] then [']'] else ',' :: ' ' ::
        ((", ".intercalate (rest.map fun byte => toString byte.toNat)).toList ++ [']']) := by
    intro byte rest
    refine ⟨_, ?_, ?_, rfl⟩
    · cases rest with
      | nil => simp
      | cons next rest => simp
    · cases rest with
      | nil => simp
      | cons next rest => simp [String.intercalate_cons_cons]
  induction bytes generalizing bytes' with
  | nil =>
    cases bytes' with
    | nil => rfl
    | cons byte rest =>
      obtain ⟨s, -, heq, -⟩ := htail byte rest
      rw [heq] at h
      exact absurd h (by simpa using hne byte.toNat s)
  | cons byte rest ih =>
    obtain ⟨s, hs, heq, hrest⟩ := htail byte rest
    rw [heq] at h
    cases bytes' with
    | nil => exact absurd h.symm (by simpa using hne byte.toNat s)
    | cons byte' rest' =>
      obtain ⟨s', hs', heq', hrest'⟩ := htail byte' rest'
      rw [heq'] at h
      obtain ⟨hbyte, hstail⟩ := toDigits_append_inj hs hs' h
      obtain rfl := UInt8.toNat_inj.mp hbyte
      congr 1
      rw [hrest, hrest'] at hstail
      cases rest with
      | nil =>
        cases rest' with
        | nil => rfl
        | cons next rest' => simp at hstail
      | cons next rest =>
        cases rest' with
        | nil => simp at hstail
        | cons next' rest' =>
          apply ih
          rw [if_neg (List.cons_ne_nil next rest), if_neg (List.cons_ne_nil next' rest')] at hstail
          exact (List.cons.inj (List.cons.inj hstail).2).2

theorem debugBytes_injective : Function.Injective debugBytes := by
  intro bytes bytes' h
  apply debugItems_inj
  have hlist := congrArg String.toList h
  simpa [debugBytes] using hlist

theorem debugOption_injective {α : Type} {debug : α → String} (h : Function.Injective debug) :
    Function.Injective (debugOption debug) := by
  intro a b heq
  cases a with
  | none =>
    cases b with
    | none => rfl
    | some b =>
      have hlist := congrArg String.toList heq
      simp [debugOption] at hlist
  | some a =>
    cases b with
    | none =>
      have hlist := congrArg String.toList heq
      simp [debugOption] at hlist
    | some b =>
      have hlist := congrArg String.toList heq
      simp only [debugOption, String.toList_append, List.append_cancel_left_eq,
        List.append_cancel_right_eq] at hlist
      rw [h (String.toList_inj.mp hlist)]

theorem FrontendArtifactKind.debug_injective : Function.Injective FrontendArtifactKind.debug := by
  intro a b h
  cases a <;> cases b <;> first | rfl | exact absurd h (by decide)

/-- The key of the frontend with the same parts, whether its kind is known or not. -/
def PersistedFrontendUnitKey.asFrontend : PersistedFrontendUnitKey → FrontendUnitKey
  | project => .project
  | source id => .source id
  | moduleUnit id => .moduleUnit id
  | modulePart id => .modulePart id
  | item id => .item id
  | unit kindNamespace name id => .unit ⟨⟨kindNamespace, name⟩, id⟩

theorem PersistedFrontendUnitKey.asFrontend_injective : Function.Injective asFrontend := by
  intro a b h
  cases a <;> cases b <;> simp_all [asFrontend]

theorem fingerprintPart_eq (key : PersistedFrontendArtifactKey) :
    key.fingerprintPart = key.unit.asFrontend.cacheUnit := by
  unfold PersistedFrontendArtifactKey.fingerprintPart
  cases key.unit <;> rfl

/-- The ids of the dependency fit their types, and its unit kind is a registered one. -/
def PersistedFrontendArtifactDependency.Valid
    (dependency : PersistedFrontendArtifactDependency) : Prop :=
  dependency.key.unit.asFrontend.Valid

/-- A part that starts with a text. -/
def StartsWith (text part : String) : Prop := text.toList <+: part.toList

theorem startsWith_append (text rest : String) : StartsWith text (text ++ rest) := by
  simp [StartsWith]

theorem dependencyParts_inj {a b : PersistedFrontendArtifactDependency} (ha : a.Valid)
    (hb : b.Valid) (h : a.fingerprintParts = b.fingerprintParts) : a = b := by
  obtain ⟨⟨kind, unit⟩, fingerprint⟩ := a
  obtain ⟨⟨kind', unit'⟩, fingerprint'⟩ := b
  simp only [PersistedFrontendArtifactDependency.fingerprintParts, List.cons.injEq, and_true,
    String.append_right_inj, fingerprintPart_eq] at h
  obtain ⟨hunit, hkind, hfingerprint⟩ := h
  have hread := FrontendUnitKey.fromCacheUnit_cacheUnit ha
  rw [hunit, FrontendUnitKey.fromCacheUnit_cacheUnit hb] at hread
  have hunits : unit = unit' :=
    PersistedFrontendUnitKey.asFrontend_injective (Option.some.inj hread).symm
  rw [hunits, FrontendArtifactKind.debug_injective hkind,
    debugOption_injective debugBytes_injective hfingerprint]

theorem ownParts_inj {a b : BodyArtifactReuseIndexRecord} (h : a.ownParts = b.ownParts)
    (hd : a.dependencies = b.dependencies) : a = b := by
  obtain ⟨kind, unit, revision, fingerprint, ⟨source, index, itemKind, member, text⟩, _⟩ := a
  obtain ⟨kind', unit', revision', fingerprint', ⟨source', index', itemKind', member', text'⟩, _⟩ := b
  simp only [BodyArtifactReuseIndexRecord.ownParts, List.cons.injEq, and_true,
    String.append_right_inj] at h
  obtain ⟨hkind, hunit, hrevision, hfingerprint, hsource, hindex, hitem, hmember, htext⟩ := h
  have hkinds : kind = kind' := by
    cases kind <;> cases kind' <;> first | rfl | exact absurd hkind (by decide)
  rw [hkinds, toString_injective hunit, toString_injective hrevision,
    debugBytes_injective hfingerprint, toString_injective hsource, toString_injective hindex, hitem,
    debugOption_injective toString_injective hmember, htext]
  exact congrArg _ hd

def BodyArtifactReuseIndexRecord.Valid (record : BodyArtifactReuseIndexRecord) : Prop :=
  ∀ dependency ∈ record.dependencies, dependency.Valid

/-- The text of an identity stands at a fixed place, so it is never taken for the start of a
record or of a dependency. -/
theorem records_inj {records records' : List BodyArtifactReuseIndexRecord}
    (h : ∀ record ∈ records, record.Valid) (h' : ∀ record ∈ records', record.Valid)
    (heq : records.flatMap (·.fingerprintParts) = records'.flatMap (·.fingerprintParts)) :
    records = records' := by
  have hrecord : ∀ record : BodyArtifactReuseIndexRecord, ∃ rest,
      record.fingerprintParts = ("kind:" ++ record.kind.debug) :: rest := fun _ => ⟨_, rfl⟩
  -- what follows a record is the next record or nothing
  have hends : ∀ (l : List BodyArtifactReuseIndexRecord) (s : List String),
      Ends (fun part => StartsWith "kind:" part ∨ StartsWith "dependency_key:" part) s →
      Ends (StartsWith "dependency_key:") (l.flatMap (·.fingerprintParts) ++ s) := by
    intro l s hs part hp
    cases l with
    | nil => exact fun hstart => hs part hp (.inr hstart)
    | cons record l =>
      obtain ⟨rest, hr⟩ := hrecord record
      rw [List.flatMap_cons, hr] at hp
      obtain rfl : "kind:" ++ record.kind.debug = part := by simpa using hp
      simp [StartsWith]
  refine (flatMap_inj BodyArtifactReuseIndexRecord.fingerprintParts
    (fun part => StartsWith "kind:" part ∨ StartsWith "dependency_key:" part)
    BodyArtifactReuseIndexRecord.Valid ?_ ?_ h h' ends_nil ends_nil (congrArg (· ++ []) heq)).1
  · intro record _
    obtain ⟨rest, hr⟩ := hrecord record
    exact ⟨_, rest, hr, .inl (startsWith_append _ _)⟩
  · intro a a' l l' s s' ha ha' _ _ hs hs' hcons
    rw [BodyArtifactReuseIndexRecord.fingerprintParts, List.append_assoc,
      BodyArtifactReuseIndexRecord.fingerprintParts, List.append_assoc] at hcons
    obtain ⟨hown, hrest⟩ := List.append_inj hcons rfl
    obtain ⟨hdependencies, hnext⟩ := flatMap_inj_of_length
      PersistedFrontendArtifactDependency.fingerprintParts (StartsWith "dependency_key:")
      PersistedFrontendArtifactDependency.Valid (n := 3) (fun _ => rfl)
      (fun _ _ hb hb' => dependencyParts_inj hb hb')
      (fun _ _ => ⟨_, _, rfl, startsWith_append _ _⟩) ha ha' (hends l s hs) (hends l' s' hs') hrest
    exact ⟨ownParts_inj hown hdependencies, hnext⟩

def FrontendArtifactDependency.Valid (dependency : FrontendArtifactDependency) : Prop :=
  dependency.key.unit.Valid

/-- The ids of all keys fit their types, and their unit kinds are registered ones. -/
def FrontendArtifactRecord.Valid (record : FrontendArtifactRecord) : Prop :=
  record.key.unit.Valid ∧ ∀ dependency ∈ record.dependencies, dependency.Valid

/-- The text of a cache key tells the keys of the frontend apart. -/
def TellsKeysApart (display : ArtifactKey → String) : Prop :=
  ∀ key key' : FrontendArtifactKey, key.unit.Valid → key'.unit.Valid →
    display key.toCacheKey = display key'.toCacheKey → key.toCacheKey = key'.toCacheKey

section
variable {display : ArtifactKey → String} (hdisplay : TellsKeysApart display)
include hdisplay

theorem key_of_display {key key' : FrontendArtifactKey} (h : key.unit.Valid)
    (h' : key'.unit.Valid) (heq : display key.toCacheKey = display key'.toCacheKey) : key = key' :=
  FrontendArtifactKey.toCacheKey_inj h h' (hdisplay key key' h h' heq)

theorem manifestDependency_inj {a b : FrontendArtifactDependency} (ha : a.Valid) (hb : b.Valid)
    (h : a.fingerprintParts display = b.fingerprintParts display) : a = b := by
  obtain ⟨key, fingerprint⟩ := a
  obtain ⟨key', fingerprint'⟩ := b
  simp only [FrontendArtifactDependency.fingerprintParts, List.cons.injEq, and_true,
    String.append_right_inj] at h
  obtain rfl : key = key' := key_of_display hdisplay ha hb h.1
  rw [debugOption_injective debugBytes_injective h.2]

omit hdisplay in
theorem diagnostics_inj {l l' : List ℕ} {s s' : List String}
    (hs : Ends (StartsWith "diagnostic_source:") s)
    (hs' : Ends (StartsWith "diagnostic_source:") s')
    (h : (l.map fun source => "diagnostic_source:" ++ toString source) ++ s =
      (l'.map fun source => "diagnostic_source:" ++ toString source) ++ s') : l = l' ∧ s = s' := by
  rw [List.map_eq_flatMap, List.map_eq_flatMap] at h
  refine flatMap_inj_of_length (fun source => ["diagnostic_source:" ++ toString source])
    (StartsWith "diagnostic_source:") (fun _ => True) (n := 1) (fun _ => rfl) ?_
    (fun _ _ => ⟨_, _, rfl, startsWith_append _ _⟩) (fun _ _ => trivial) (fun _ _ => trivial) hs hs' h
  intro a a' _ _ heq
  simp only [List.cons.injEq, and_true, String.append_right_inj] at heq
  exact toString_injective heq

/-- What starts a record or one of its lists. -/
def StartsRecordPart (part : String) : Prop :=
  StartsWith "key:" part ∨ StartsWith "dependency:" part ∨ StartsWith "diagnostic_source:" part

omit hdisplay in
theorem ends_records {starts : String → Prop} (hstarts : ∀ part, starts part → StartsRecordPart part)
    (hkey : ∀ text, ¬ starts ("key:" ++ text)) (l : List FrontendArtifactRecord) {s : List String}
    (hs : Ends StartsRecordPart s) :
    Ends starts (l.flatMap (·.fingerprintParts display) ++ s) := by
  intro part hp
  cases l with
  | nil => exact fun hstart => hs part hp (hstarts part hstart)
  | cons record l =>
    obtain rfl : "key:" ++ display record.key.toCacheKey = part := by
      simpa [FrontendArtifactRecord.fingerprintParts] using hp
    exact hkey _

omit hdisplay in
theorem ends_diagnostics {l : List ℕ} {s : List String} (hs : Ends (StartsWith "dependency:") s) :
    Ends (StartsWith "dependency:")
      ((l.map fun source => "diagnostic_source:" ++ toString source) ++ s) := by
  intro part hp
  cases l with
  | nil => exact hs part hp
  | cons source l =>
    obtain rfl : "diagnostic_source:" ++ toString source = part := by simpa using hp
    simp [StartsWith]

theorem manifestRecords_inj {records records' : List FrontendArtifactRecord}
    (h : ∀ record ∈ records, record.Valid) (h' : ∀ record ∈ records', record.Valid)
    (heq : records.flatMap (·.fingerprintParts display) =
      records'.flatMap (·.fingerprintParts display)) : records = records' := by
  refine (flatMap_inj (FrontendArtifactRecord.fingerprintParts display) StartsRecordPart
    FrontendArtifactRecord.Valid (fun _ _ => ⟨_, _, rfl, .inl (startsWith_append _ _)⟩) ?_ h h'
    ends_nil ends_nil (congrArg (· ++ []) heq)).1
  intro a a' l l' s s' ha ha' _ _ hs hs' hcons
  have hsplit : ∀ (r : FrontendArtifactRecord) (rest : List String),
      r.fingerprintParts display ++ rest =
        ["key:" ++ display r.key.toCacheKey, "revision:" ++ toString r.revision,
          "fingerprint:" ++ debugBytes r.fingerprint] ++
        (r.dependencies.flatMap (·.fingerprintParts display) ++
          ((r.diagnostics.map fun source => "diagnostic_source:" ++ toString source) ++ rest)) := by
    intro r rest
    rw [FrontendArtifactRecord.fingerprintParts, List.append_assoc, List.append_assoc]
  rw [hsplit, hsplit] at hcons
  obtain ⟨hown, hlists⟩ := List.append_inj hcons rfl
  have hdep : ∀ (l : List FrontendArtifactRecord) {s : List String}, Ends StartsRecordPart s →
      Ends (StartsWith "dependency:") (l.flatMap (·.fingerprintParts display) ++ s) := fun l _ hs =>
    ends_records (fun _ hp => .inr (.inl hp)) (fun _ => by simp [StartsWith]) l hs
  have hdiag : ∀ (l : List FrontendArtifactRecord) {s : List String}, Ends StartsRecordPart s →
      Ends (StartsWith "diagnostic_source:") (l.flatMap (·.fingerprintParts display) ++ s) :=
    fun l _ hs => ends_records (fun _ hp => .inr (.inr hp)) (fun _ => by simp [StartsWith]) l hs
  obtain ⟨hdependencies, hrest⟩ := flatMap_inj_of_length
    (FrontendArtifactDependency.fingerprintParts display) (StartsWith "dependency:")
    FrontendArtifactDependency.Valid (n := 2) (fun _ => rfl)
    (fun _ _ hb hb' => manifestDependency_inj hdisplay hb hb')
    (fun _ _ => ⟨_, _, rfl, startsWith_append _ _⟩) ha.2 ha'.2
    (ends_diagnostics (hdep l hs)) (ends_diagnostics (hdep l' hs')) hlists
  obtain ⟨hdiagnostics, hnext⟩ := diagnostics_inj (hdiag l hs) (hdiag l' hs') hrest
  refine ⟨?_, hnext⟩
  obtain ⟨key, revision, fingerprint, dependencies, diagnostics⟩ := a
  obtain ⟨key', revision', fingerprint', dependencies', diagnostics'⟩ := a'
  simp only [List.cons.injEq, and_true, String.append_right_inj] at hown
  obtain rfl : key = key' := key_of_display hdisplay ha.1 ha'.1 hown.1
  rw [toString_injective hown.2.1, debugBytes_injective hown.2.2]
  obtain rfl : dependencies = dependencies' := hdependencies
  obtain rfl : diagnostics = diagnostics' := hdiagnostics
  rfl

theorem FrontendArtifactManifest.records_perm (hhash : Function.Injective hash)
    {manifest manifest' : FrontendArtifactManifest} (h : ∀ record ∈ manifest.records, record.Valid)
    (h' : ∀ record ∈ manifest'.records, record.Valid)
    (hfits : Fits (manifest.fingerprintParts display))
    (hfits' : Fits (manifest'.fingerprintParts display))
    (heq : manifest.fingerprint display hash = manifest'.fingerprint display hash) :
    manifest.records.Perm manifest'.records := by
  have hparts := fingerprintText_inj hhash hfits hfits' heq
  have hp : (manifest.sorted display).Perm manifest.records := List.perm_insertionSort _ _
  have hp' : (manifest'.sorted display).Perm manifest'.records := List.perm_insertionSort _ _
  have hsorted : manifest.sorted display = manifest'.sorted display := by
    apply manifestRecords_inj hdisplay
    · intro record hm
      exact h record (hp.mem_iff.mp hm)
    · intro record hm
      exact h' record (hp'.mem_iff.mp hm)
    · exact (List.cons.inj hparts).2
  rw [hsorted] at hp
  exact hp.symm.trans hp'

end

theorem BodyArtifactReuseIndex.eq_of_fingerprint (hhash : Function.Injective hash)
    {index index' : BodyArtifactReuseIndex} (h : ∀ record ∈ index.records, record.Valid)
    (h' : ∀ record ∈ index'.records, record.Valid) (hfits : Fits index.fingerprintParts)
    (hfits' : Fits index'.fingerprintParts)
    (heq : index.fingerprint hash = index'.fingerprint hash) : index = index' := by
  have hparts := fingerprintText_inj hhash hfits hfits' heq
  obtain ⟨records⟩ := index
  obtain ⟨records'⟩ := index'
  exact congrArg _ (records_inj h h' (List.cons.inj hparts).2)

theorem FrontendArtifactManifest.mem_built {calls : List FrontendArtifactRecord}
    {r : FrontendArtifactRecord} (h : r ∈ (built calls).records) : r ∈ calls := by
  suffices hall : ∀ manifest : FrontendArtifactManifest, r ∈ (calls.foldl record manifest).records →
      r ∈ manifest.records ∨ r ∈ calls by
    simpa [new] using hall new h
  clear h
  induction calls with
  | nil => exact fun _ hm => .inl hm
  | cons call calls ih =>
    intro manifest hm
    rcases ih (manifest.record call) hm with hm | hm
    · rcases List.mem_append.mp hm with hm | hm
      · exact .inl (List.mem_filter.mp hm).1
      · exact .inr (List.mem_cons.mpr (.inl (List.mem_singleton.mp hm)))
    · exact .inr (List.mem_cons_of_mem _ hm)

/-- With a collision-free hash, equal fingerprints come from equal reuse indexes, and from
manifests with the same records, as long as every unit kind is a registered one. -/
theorem fingerprints_inj {hash : List UInt8 → ArtifactFingerprint} (hhash : Function.Injective hash)
    {display : ArtifactKey → String} (hdisplay : TellsKeysApart display) :
    (∀ index index' : BodyArtifactReuseIndex,
      (∀ record ∈ index.records, record.Valid) → (∀ record ∈ index'.records, record.Valid) →
      Fits index.fingerprintParts → Fits index'.fingerprintParts →
      index.fingerprint hash = index'.fingerprint hash → index = index') ∧
    ∀ calls calls' : List FrontendArtifactRecord,
      (∀ call ∈ calls, call.Valid) → (∀ call ∈ calls', call.Valid) →
      Fits ((FrontendArtifactManifest.built calls).fingerprintParts display) →
      Fits ((FrontendArtifactManifest.built calls').fingerprintParts display) →
      (FrontendArtifactManifest.built calls).fingerprint display hash =
        (FrontendArtifactManifest.built calls').fingerprint display hash →
      (FrontendArtifactManifest.built calls).records.Perm
        (FrontendArtifactManifest.built calls').records := by
  constructor
  · intro index index' h h' hfits hfits' heq
    exact BodyArtifactReuseIndex.eq_of_fingerprint hhash h h' hfits hfits' heq
  · intro calls calls' h h' hfits hfits' heq
    apply FrontendArtifactManifest.records_perm hdisplay hhash _ _ hfits hfits' heq
    · exact fun record hm => h record (FrontendArtifactManifest.mem_built hm)
    · exact fun record hm => h' record (FrontendArtifactManifest.mem_built hm)

/-- Namespace, kind and unit with colons between them. -/
def displayKey (key : ArtifactKey) : String :=
  key.cacheNamespace ++ ":" ++ key.kind ++ ":" ++ key.unit

theorem tellsKeysApart_displayKey : TellsKeysApart displayKey := by
  intro key key' _ _ h
  have hkind : ∀ kind : FrontendArtifactKind, ∀ c ∈ kind.key.toList, (c != ':') = true := by
    intro kind
    rw [← List.all_eq_true]
    cases kind <;> rfl
  have hlist := congrArg String.toList h
  simp only [displayKey, FrontendArtifactKey.toCacheKey, String.toList_append, List.append_assoc,
    List.append_cancel_left_eq] at hlist
  obtain ⟨hkinds, hunit⟩ := append_inj_of_all (hkind key.kind) (hkind key'.kind) (by simp) (by simp)
    hlist
  rw [FrontendArtifactKey.toCacheKey, FrontendArtifactKey.toCacheKey, String.toList_inj.mp hkinds,
    String.toList_inj.mp (List.append_cancel_left hunit)]

/-- One record for a body without dependencies, with the text of its identity. -/
def bodyIndex (text : String) : BodyArtifactReuseIndex :=
  ⟨[⟨.typeFacts, 7, 1, [], ⟨0, 0, "Flow", none, text⟩, []⟩]⟩

/-- The text of an identity is not taken for a dependency. -/
theorem fingerprints_inj_identity :
    (bodyIndex "dependency_key:project").fingerprint id ≠ (bodyIndex "").fingerprint id := by
  intro heq
  have hvalid : ∀ text, ∀ record ∈ (bodyIndex text).records, record.Valid := by
    intro text record hm dependency hd
    rw [List.mem_singleton.mp hm] at hd
    cases hd
  have heqs := (fingerprints_inj Function.injective_id tellsKeysApart_displayKey).1 _ _
    (hvalid _) (hvalid _) (by unfold Fits; decide) (by unfold Fits; decide) heq
  exact absurd heqs (by decide)

/-- Two manifests whose keys have unit kinds with a colon in them, at different places. -/
theorem fingerprints_colon :
    let manifest (kind : UnitKindKey) := FrontendArtifactManifest.built
      [⟨⟨.hirBody, .unit ⟨kind, 1⟩⟩, 0, [], [], []⟩]
    (∀ display hash, (manifest ⟨"a", "b:c"⟩).fingerprint display hash =
      (manifest ⟨"a:b", "c"⟩).fingerprint display hash) ∧
      ¬ (manifest ⟨"a", "b:c"⟩).records.Perm (manifest ⟨"a:b", "c"⟩).records := by
  intro manifest
  refine ⟨fun display hash => rfl, ?_⟩
  intro hp
  have hm := hp.mem_iff.mp (List.mem_singleton_self _)
  exact absurd (List.mem_singleton.mp hm) (by decide)

end EtasFrontend.Artifact
