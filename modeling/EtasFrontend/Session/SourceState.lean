import EtasFrontend.Session.ChangeAtomic
import Mathlib.Data.List.Perm.Basic

/-! The source set of a project follows its input: it is changed along with it, and stays what the
input alone would give. -/
namespace EtasFrontend.Session
open Lib FrontendProjectState

variable {D : SessionData} {X : Services D}

/-- The source set has the roots and the files of the input. -/
structure FrontendProjectState.FilesFollow (s : FrontendProjectState D) : Prop where
  projectRoot : s.sources.projectRoot = s.input.projectRoot
  sourceRoot : s.sources.sourceRoot = sourceRootForProjectInput s.input
  files : s.sources.files = s.input.sources.map SourceFile.fromInput

/-- The sources are told apart by their ids, and just these have versions. -/
structure FrontendProjectState.Versioned (s : FrontendProjectState D) : Prop where
  unique : s.sourceIds.Nodup
  versions : ∀ id, (s.sourceVersions.get id).isSome = true ↔ id ∈ s.sourceIds

variable {source : SourceId}

namespace FrontendProjectState
variable {s : FrontendProjectState D}

theorem sources_eq_iff : s.sources = sourceSetFromInput X s.input ↔ s.FilesFollow ∧ s.InSync X := by
  constructor
  · intro h
    exact ⟨⟨congrArg SourceSet.projectRoot h, congrArg SourceSet.sourceRoot h,
        congrArg SourceSet.files h⟩,
      ⟨congrArg SourceSet.stableSourceKeys h, congrArg SourceSet.environmentFingerprint h,
        congrArg SourceSet.externalModulesFingerprint h⟩⟩
  · rintro ⟨⟨hproject, hsource, hfiles⟩, ⟨hkeys, henvironment, hexternal⟩⟩
    unfold sourceSetFromInput
    rw [← hproject, ← hsource, ← hfiles, ← hkeys, ← henvironment, ← hexternal]

theorem sourceFileIndex_eq (h : s.FilesFollow) (source : SourceId) :
    s.sourceFileIndex source = s.sourceIndex source := by
  unfold sourceFileIndex sourceIndex
  rw [h.files, List.findIdx?_map]
  rfl

theorem pushSource_filesFollow (h : s.FilesFollow) (source : SourceInput) :
    (s.pushSource source).FilesFollow where
  projectRoot := h.projectRoot
  sourceRoot := h.sourceRoot
  files := by simp [pushSource, h.files]

theorem pushSource_versioned (h : s.Versioned) {source : SourceInput}
    (hnew : source.id ∉ s.sourceIds) : (s.pushSource source).Versioned where
  unique := by
    rw [pushSource_sourceIds, List.nodup_append]
    refine ⟨h.unique, List.nodup_singleton _, fun id hid id' hid' heq => ?_⟩
    rw [List.mem_singleton] at hid'
    exact hnew (hid' ▸ heq ▸ hid)
  versions id := by
    rw [pushSource_sourceIds, List.mem_append, List.mem_singleton, ← h.versions]
    by_cases hid : id = source.id
    · subst hid
      simp [pushSource]
    · simp [pushSource, Map.get_insert_ne _ hid, hid]

theorem setText_filesFollow (h : s.FilesFollow) {index : ℕ} {input : SourceInput}
    (hinput : s.input.sources[index]? = some input) (text : List Char) :
    ((s.setText index text).setFile index (.fromInput { input with text := text })).FilesFollow where
  projectRoot := h.projectRoot
  sourceRoot := h.sourceRoot
  files := by
    apply List.ext_getElem?
    intro i
    obtain ⟨hlt, -⟩ := List.getElem?_eq_some_iff.mp hinput
    simp only [setText, setFile, h.files, List.getElem?_map, List.getElem?_modify,
      List.getElem?_set, List.length_map]
    split_ifs with hi
    · subst hi
      simp [hinput]
    · simp

theorem versioned_of_erase (h : s.Versioned) {index : ℕ}
    (hindex : s.sourceIndex source = some index) {s' : FrontendProjectState D}
    (hsources : s'.input.sources = s.input.sources.eraseIdx index)
    (hversions : s'.sourceVersions = s.sourceVersions.remove source) : s'.Versioned := by
  obtain ⟨input, hinput, rfl⟩ := sourceIndex_eq_some hindex
  obtain ⟨hlt, hget⟩ := List.getElem?_eq_some_iff.mp hinput
  have hperm : (input.id :: s'.sourceIds).Perm s.sourceIds := by
    have := (List.getElem_cons_eraseIdx_perm hlt).map SourceInput.id
    rw [hget, ← hsources] at this
    exact this
  obtain ⟨hnew, hunique⟩ := List.nodup_cons.mp (hperm.nodup_iff.mpr h.unique)
  refine ⟨hunique, fun id => ?_⟩
  rw [hversions, Map.get_remove]
  by_cases hid : id = input.id
  · simp [hid, hnew]
  · rw [if_neg hid, h.versions, ← hperm.mem_iff, List.mem_cons]
    simp [hid]

end FrontendProjectState

namespace ChangeRun

variable (X) in
/-- Until the end of the call the environment may be ahead, and the call knows of it. Otherwise
there is nothing left to add to it. -/
structure Follows (done : Prop) (run : ChangeRun D) : Prop where
  files : run.state.FilesFollow
  environment : run.environmentChanged = true ∨ done ∧ run.state.InSync X

variable {done : Prop} {run : ChangeRun D}

theorem addSource_follows (h : run.Follows X done) (source : SourceInput) :
    (run.addSource source).1.Follows X done := by
  unfold addSource
  split
  · exact h
  · exact ⟨pushSource_filesFollow h.files source,
      h.environment.imp id fun ⟨h, hsync⟩ =>
        ⟨h, hsync.keys, hsync.environment, hsync.externalModules⟩⟩

theorem filter_eq_of_length {α : Type} {p : α → Bool} {l : List α}
    (h : (l.filter p).length = l.length) : l.filter p = l :=
  List.filter_sublist.eq_of_length h

theorem removeSource_ok (h : run.state.FilesFollow) (hok : (run.removeSource source).2 = none) :
    ∃ index, run.state.sourceIndex source = some index ∧
      (run.removeSource source).1.state =
        { run.state with
          input := { run.state.input with
            sources := run.state.input.sources.eraseIdx index
            environment := { run.state.input.environment with
              standaloneSourcePackages := run.state.input.environment.standaloneSourcePackages.filter
                fun entry => entry.source != source
              stableSourceKeys := run.state.input.environment.stableSourceKeys.filter
                fun entry => entry.source != source } }
          sources := { run.state.sources with files := run.state.sources.files.eraseIdx index }
          sourceVersions := run.state.sourceVersions.remove source } ∧
      ((run.removeSource source).1.environmentChanged = true ∨
        (run.removeSource source).1.environmentChanged = run.environmentChanged ∧
          (run.removeSource source).1.state.input.environment = run.state.input.environment) := by
  unfold removeSource at hok ⊢
  dsimp only at hok ⊢
  split at hok
  · cases hok
  · next index hindex =>
    have hfile := (sourceFileIndex_eq h source).trans hindex
    simp only [hindex]
    split
    · next heq => exact absurd (hfile.symm.trans heq) nofun
    · next fileIndex heq =>
      obtain rfl : index = fileIndex := Option.some.inj (hfile.symm.trans heq)
      refine ⟨index, rfl, rfl, ?_⟩
      dsimp only
      by_cases hsame : (run.state.input.environment.standaloneSourcePackages.filter fun entry =>
            entry.source != source).length =
          run.state.input.environment.standaloneSourcePackages.length ∧
        (run.state.input.environment.stableSourceKeys.filter fun entry =>
            entry.source != source).length = run.state.input.environment.stableSourceKeys.length
      · obtain ⟨hpackages, hkeys⟩ := hsame
        refine .inr ⟨by simp [hpackages, hkeys], ?_⟩
        rw [filter_eq_of_length hpackages, filter_eq_of_length hkeys]
      · rw [not_and_or] at hsame
        obtain hpackages | hkeys := hsame
        · exact .inl (by simp [hpackages])
        · exact .inl (by simp [hkeys])

theorem removeSource_follows (h : run.Follows X done) (hok : (run.removeSource source).2 = none) :
    (run.removeSource source).1.Follows X done := by
  obtain ⟨index, hindex, hstate, henvironment⟩ := removeSource_ok h.files hok
  constructor
  · rw [hstate]
    refine ⟨h.files.projectRoot, h.files.sourceRoot, ?_⟩
    simp [h.files.files, List.eraseIdx_map]
  · obtain hahead | ⟨hflag, hsame⟩ := henvironment
    · exact .inl hahead
    · obtain hahead | ⟨hdone, hsync⟩ := h.environment
      · exact .inl (hflag.trans hahead)
      · refine .inr ⟨hdone, ?_, ?_, ?_⟩
        · rw [hsame, hstate]
          exact hsync.keys
        · rw [hsame, hstate]
          exact hsync.environment
        · rw [hsame, hstate]
          exact hsync.externalModules

variable {text : List Char → List Char × Option FrontendSessionError}

section
variable (h : run.Follows X done)
include h

theorem changeText_follows {version : SourceVersion}
    (hok : (run.changeText source version text).2 = none) :
    (run.changeText source version text).1.Follows X done := by
  obtain ⟨-, error, hrun⟩ | ⟨index, -, hindex, hcases⟩ := run.changeText_cases source version text
  · rw [hrun] at hok
    cases hok
  obtain ⟨-, error, hrun⟩ | ⟨-, fileIndex, input, hfile, hinput, hrun⟩ := hcases
  · rw [hrun] at hok
    cases hok
  · obtain rfl : index = fileIndex :=
      Option.some.inj (hindex.symm.trans ((sourceFileIndex_eq h.files source).symm.trans hfile))
    rw [hrun]
    obtain ⟨hproject, hsource, hfiles⟩ := setText_filesFollow h.files hinput
      (text (run.state.textAt index)).1
    exact ⟨⟨hproject, hsource, hfiles⟩,
      h.environment.imp id fun ⟨h, hsync⟩ =>
        ⟨h, hsync.keys, hsync.environment, hsync.externalModules⟩⟩

theorem applySourceChange_follows {change : SourceChange}
    (hok : (run.applySourceChange change).2 = none) :
    (run.applySourceChange change).1.Follows X done := by
  cases change with
  | add source => exact addSource_follows h source
  | remove source => exact removeSource_follows h hok
  | replace source version text => exact changeText_follows h hok
  | edit source version edits => exact changeText_follows h hok

theorem pushOverlaySources_follows (sources : List SourceInput) :
    (sources.foldl pushOverlaySource run).Follows X done := by
  induction sources generalizing run with
  | nil => exact h
  | cons source sources ih =>
    exact ih ⟨pushSource_filesFollow h.files source, h.environment.imp id fun ⟨h, hsync⟩ =>
      ⟨h, hsync.keys, hsync.environment, hsync.externalModules⟩⟩

theorem applyDependencyOverlayChange_follows
    (change : DependencyOverlayChange) :
    (run.applyDependencyOverlayChange change).1.Follows X done := by
  obtain ⟨error, -, hrun⟩ | ⟨-, hrun⟩ := run.applyDependencyOverlayChange_cases change
  · rw [hrun]
    exact h
  · rw [hrun]
    exact pushOverlaySources_follows h change.addedSources

end

/-! The ids and the versions. -/

theorem changeText_versioned (h : run.state.Versioned) {version : SourceVersion}
    (hok : (run.changeText source version text).2 = none) :
    (run.changeText source version text).1.state.Versioned := by
  obtain ⟨-, error, hrun⟩ | ⟨index, -, hindex, hcases⟩ := run.changeText_cases source version text
  · rw [hrun] at hok
    cases hok
  obtain ⟨-, error, hrun⟩ | ⟨-, fileIndex, input, -, hinput, hrun⟩ := hcases
  · rw [hrun] at hok
    cases hok
  · have hids := run.state.setText_sourceIds index (text (run.state.textAt index)).1
    obtain ⟨input', hinput', rfl⟩ := sourceIndex_eq_some hindex
    have hmem : input'.id ∈ run.state.sourceIds :=
      List.mem_map_of_mem (List.mem_of_getElem? hinput')
    rw [hrun]
    refine ⟨hids.symm ▸ h.unique, fun id => ?_⟩
    change ((run.state.sourceVersions.insert input'.id version).get id).isSome = true ↔
      id ∈ (run.state.setText index (text (run.state.textAt index)).1).sourceIds
    rw [hids, Map.get_insert]
    split_ifs with hid
    · simp [hid, hmem]
    · exact h.versions id

theorem applySourceChange_versioned (hfiles : run.state.FilesFollow) (h : run.state.Versioned)
    {change : SourceChange} (hok : (run.applySourceChange change).2 = none) :
    (run.applySourceChange change).1.state.Versioned := by
  cases change with
  | add source =>
    change (run.addSource source).1.state.Versioned
    change (run.addSource source).2 = none at hok
    unfold addSource at hok ⊢
    split at hok
    · cases hok
    · next hnew =>
      rw [if_neg hnew]
      exact pushSource_versioned h fun hid => hnew ((run.state.any_id_eq source.id).mpr hid)
  | remove source =>
    obtain ⟨index, hindex, hstate, -⟩ := removeSource_ok hfiles hok
    change (run.removeSource source).1.state.Versioned
    rw [hstate]
    exact versioned_of_erase h hindex rfl rfl
  | replace source version text => exact changeText_versioned h hok
  | edit source version edits => exact changeText_versioned h hok

theorem applyDependencyOverlayChange_versioned (h : run.state.Versioned)
    {change : DependencyOverlayChange} (hok : (run.applyDependencyOverlayChange change).2 = none) :
    (run.applyDependencyOverlayChange change).1.state.Versioned := by
  obtain ⟨error, -, hrun⟩ | ⟨hvalid, hrun⟩ := run.applyDependencyOverlayChange_cases change
  · rw [hrun] at hok
    cases hok
  · obtain ⟨-, hnodup, hfresh⟩ := validateOverlay_eq_none hvalid
    rw [hrun]
    exact pushOverlaySources_keeps (fun _ _ h hid => pushSource_versioned h hid) h hnodup hfresh

end ChangeRun

variable {changes : ProjectChangeSet D} {summary : ChangeSummary}

theorem finishChanges_ok_keeps {run : ChangeRun D}
    (h : (finishChanges X changes run).2 = .ok summary) :
    (finishChanges X changes run).1.input = (refreshEnvironment X changes run).input ∧
      (finishChanges X changes run).1.sources = (refreshEnvironment X changes run).sources ∧
      (finishChanges X changes run).1.sourceVersions = run.state.sourceVersions := by
  unfold finishChanges at h ⊢
  dsimp only at h ⊢
  split at h
  · cases h
  · split at h
    · cases h
    · split at h
      · cases h
      · exact ⟨rfl, rfl, rfl⟩

variable {s s' : FrontendProjectState D}

/-- Everything the call sets besides the environment is set before its end. -/
theorem applyChanges_ok (h : applyChanges X s changes = (s', .ok summary)) :
    ∃ run run', runSteps ChangeRun.applySourceChange (startChanges X s changes)
          changes.sourceChanges = (run, none) ∧
      runSteps ChangeRun.applyDependencyOverlayChange run changes.dependencyOverlayChanges =
          (run', none) ∧
      s'.input = (refreshEnvironment X changes run').input ∧
      s'.sources = (refreshEnvironment X changes run').sources ∧
      s'.sourceVersions = run'.state.sourceVersions := by
  obtain ⟨-, error, hrun⟩ | ⟨-, -, run, failed, hsources, hcases⟩ := applyChanges_cases X s changes
  · cases hrun.symm.trans h
  obtain ⟨-, error, hrun⟩ | ⟨rfl, run', failed', hoverlays, hcases⟩ := hcases
  · cases hrun.symm.trans h
  obtain ⟨-, error, hrun⟩ | ⟨rfl, hrun⟩ := hcases
  · cases hrun.symm.trans h
  have hfinish := finishChanges_ok_keeps (congrArg Prod.snd (hrun.symm.trans h))
  rw [hrun.symm.trans h] at hfinish
  exact ⟨run, run', hsources, hoverlays, hfinish⟩

theorem startChanges_follows {s : FrontendProjectState D}
    (h : s.sources = sourceSetFromInput X s.input) (changes : ProjectChangeSet D) :
    (startChanges X s changes).Follows X (changes.overlayKeys = []) := by
  obtain ⟨hfiles, hsync⟩ := sources_eq_iff.mp h
  refine ⟨⟨hfiles.projectRoot, hfiles.sourceRoot, hfiles.files⟩, ?_⟩
  unfold startChanges ProjectChangeSet.overlayKeys
  cases changes.environmentChange with
  | none => exact .inr ⟨rfl, hsync.keys, hsync.environment, hsync.externalModules⟩
  | some change => exact .inl rfl

theorem refreshEnvironment_sources {run : ChangeRun D}
    (h : run.Follows X (changes.overlayKeys = [])) :
    (refreshEnvironment X changes run).sources =
      sourceSetFromInput X (refreshEnvironment X changes run).input := by
  rw [sources_eq_iff]
  by_cases hchanged : run.environmentChanged = true
  · unfold refreshEnvironment
    dsimp only
    rw [if_pos hchanged]
    exact ⟨⟨h.files.projectRoot, h.files.sourceRoot, h.files.files⟩, rfl, rfl, rfl⟩
  · obtain hahead | ⟨hnil, hsync⟩ := h.environment
    · exact absurd hahead hchanged
    · unfold refreshEnvironment
      dsimp only
      rw [if_neg hchanged, hnil, List.append_nil]
      exact ⟨⟨h.files.projectRoot, h.files.sourceRoot, h.files.files⟩, hsync.keys,
        hsync.environment, hsync.externalModules⟩

theorem applyChanges_follows (h : applyChanges X s changes = (s', .ok summary))
    (hs : s.sources = sourceSetFromInput X s.input) :
    s'.sources = sourceSetFromInput X s'.input ∧ (s.Versioned → s'.Versioned) := by
  obtain ⟨run, run', hsources, hoverlays, hinput, hset, hversions⟩ := applyChanges_ok h
  have hrun := runSteps_complete (p := fun _ run => run.Follows X (changes.overlayKeys = []) ∧
      (s.Versioned → run.state.Versioned)) (l := changes.sourceChanges) (m := [])
    (fun _ run change hp hok => ⟨ChangeRun.applySourceChange_follows hp.1 hok, fun hv =>
      ChangeRun.applySourceChange_versioned hp.1.files (hp.2 hv) hok⟩)
    ⟨startChanges_follows hs changes, fun hv => ⟨hv.unique, hv.versions⟩⟩
    (congrArg Prod.snd hsources)
  rw [hsources] at hrun
  have hrun' := runSteps_complete (p := fun _ run => run.Follows X (changes.overlayKeys = []) ∧
      (s.Versioned → run.state.Versioned)) (l := changes.dependencyOverlayChanges) (m := [])
    (fun _ run change hp hok => ⟨ChangeRun.applyDependencyOverlayChange_follows hp.1 change,
      fun hv => ChangeRun.applyDependencyOverlayChange_versioned (hp.2 hv) hok⟩)
    hrun (congrArg Prod.snd hoverlays)
  rw [hoverlays] at hrun'
  have hids : s'.sourceIds = run'.state.sourceIds := by
    unfold FrontendProjectState.sourceIds
    rw [hinput]
    rfl
  refine ⟨?_, fun hv => ?_⟩
  · rw [hset, hinput]
    exact refreshEnvironment_sources hrun'.1
  · obtain ⟨hunique, hkeys⟩ := hrun'.2 hv
    exact ⟨hids.symm ▸ hunique, fun id => by rw [hversions, hids]; exact hkeys id⟩

theorem replaceCompileOptions_keeps (X : Services D) (s : FrontendProjectState D)
    (revision : ProjectRevision) (options : D.CompileOptions) :
    (∃ options', (replaceCompileOptions X s revision options).1.input =
        { s.input with options := options' }) ∧
      (replaceCompileOptions X s revision options).1.sources = s.sources ∧
      (replaceCompileOptions X s revision options).1.sourceVersions = s.sourceVersions := by
  unfold replaceCompileOptions
  split
  · exact ⟨⟨_, rfl⟩, rfl, rfl⟩
  split
  · exact ⟨⟨_, rfl⟩, rfl, rfl⟩
  split
  · exact ⟨⟨_, rfl⟩, rfl, rfl⟩
  dsimp only
  split
  · exact ⟨⟨_, rfl⟩, rfl, rfl⟩
  split
  · exact ⟨⟨_, rfl⟩, rfl, rfl⟩
  split
  · exact ⟨⟨_, rfl⟩, rfl, rfl⟩
  · exact ⟨⟨_, rfl⟩, rfl, rfl⟩

theorem replaceCompileOptions_follows {revision : ProjectRevision} {options : D.CompileOptions}
    (h : replaceCompileOptions X s revision options = (s', .ok summary))
    (hs : s.sources = sourceSetFromInput X s.input) :
    s'.sources = sourceSetFromInput X s'.input ∧ (s.Versioned → s'.Versioned) := by
  obtain rfl : (replaceCompileOptions X s revision options).1 = s' := congrArg Prod.fst h
  obtain ⟨⟨options', hinput⟩, hsources, hversions⟩ :=
    replaceCompileOptions_keeps X s revision options
  refine ⟨by rw [hsources, hinput, hs]; rfl, fun hv => ?_⟩
  have hids : (replaceCompileOptions X s revision options).1.sourceIds = s.sourceIds := by
    unfold FrontendProjectState.sourceIds
    rw [hinput]
  exact ⟨hids.symm ▸ hv.unique, fun id => by rw [hversions, hids]; exact hv.versions id⟩

/-- What is cached may differ from call to call; the fingerprints do not. -/
structure Services.SameFingerprints (X Y : Services D) : Prop where
  environment : Y.environmentFingerprint = X.environmentFingerprint
  externalModules : Y.externalModulesFingerprint = X.externalModulesFingerprint

theorem Services.SameFingerprints.sourceSet {Y : Services D} (h : X.SameFingerprints Y)
    (input : ProjectInput D) : sourceSetFromInput Y input = sourceSetFromInput X input := by
  unfold sourceSetFromInput
  rw [h.environment, h.externalModules]

/-- The states after successful calls. -/
inductive Reached (X : Services D) (input : ProjectInput D) (cache : D.Cache) :
    FrontendProjectState D → Prop
  | new : Reached X input cache (.new X input cache)
  | applyChanges {s s' : FrontendProjectState D} (run : Reached X input cache s) {Y : Services D}
    (same : X.SameFingerprints Y) {changes : ProjectChangeSet D} {summary : ChangeSummary}
    (ok : Session.applyChanges Y s changes = (s', .ok summary)) : Reached X input cache s'
  | replaceCompileOptions {s s' : FrontendProjectState D} (run : Reached X input cache s)
    {Y : Services D} (same : X.SameFingerprints Y) {revision : ProjectRevision}
    {options : D.CompileOptions} {summary : ChangeSummary}
    (ok : Session.replaceCompileOptions Y s revision options = (s', .ok summary)) :
    Reached X input cache s'

theorem Reached.follows {input : ProjectInput D} {cache : D.Cache} {s : FrontendProjectState D}
    (h : Reached X input cache s) :
    s.sources = sourceSetFromInput X s.input ∧
      ((input.sources.map SourceInput.id).Nodup → s.Versioned) := by
  induction h with
  | new =>
    refine ⟨rfl, fun hunique => ⟨hunique, fun id => ?_⟩⟩
    change ((Map.ofList (input.sources.map fun source => (source.id, 0))).get id).isSome = true ↔
      id ∈ input.sources.map SourceInput.id
    rw [List.mem_map]
    constructor
    · intro hid
      obtain ⟨version, hversion⟩ := Option.isSome_iff_exists.mp hid
      obtain ⟨source, hsource, heq⟩ := List.mem_map.mp (Map.get_ofList_eq_some hversion)
      exact ⟨source, hsource, congrArg Prod.fst heq⟩
    · rintro ⟨source, hsource, rfl⟩
      exact Map.get_ofList_isSome (List.mem_map.mpr ⟨source, hsource, rfl⟩)
  | applyChanges _ same ok ih =>
    obtain ⟨hsources, hversioned⟩ := applyChanges_follows ok (ih.1.trans (same.sourceSet _).symm)
    exact ⟨hsources.trans (same.sourceSet _), hversioned ∘ ih.2⟩
  | replaceCompileOptions _ same ok ih =>
    obtain ⟨hsources, hversioned⟩ :=
      replaceCompileOptions_follows ok (ih.1.trans (same.sourceSet _).symm)
    exact ⟨hsources.trans (same.sourceSet _), hversioned ∘ ih.2⟩

/-- The source set is always the one of the input. The ids stay unique, with just their versions in
the table, exactly if they are unique at the start. -/
theorem reached_follows_iff (X : Services D) (input : ProjectInput D) (cache : D.Cache) :
    (∀ s, Reached X input cache s → s.sources = sourceSetFromInput X s.input) ∧
      ((∀ s, Reached X input cache s → s.sourceIds.Nodup ∧
          ∀ id, (s.sourceVersions.get id).isSome = true ↔ id ∈ s.sourceIds) ↔
        (input.sources.map SourceInput.id).Nodup) := by
  refine ⟨fun s hs => hs.follows.1, ⟨fun h => ?_, fun hunique s hs => ?_⟩⟩
  · exact (h _ .new).1
  · obtain ⟨hids, hversions⟩ := hs.follows.2 hunique
    exact ⟨hids, hversions⟩

/-- Two sources of one id: with the first the version of the second is removed. -/
theorem applyChanges_loses_version :
    (applyChanges bareServices
        (bareProject [⟨1, none, ['a'], .sourceProjectFile⟩, ⟨1, none, ['b'], .sourceProjectFile⟩])
        (bareChanges 1 [.remove 1])).2 = .ok ⟨1, [1], [], [1]⟩ ∧
      (applyChanges bareServices
        (bareProject [⟨1, none, ['a'], .sourceProjectFile⟩, ⟨1, none, ['b'], .sourceProjectFile⟩])
        (bareChanges 1 [.remove 1])).1.sourceIds = [1] ∧
      (applyChanges bareServices
        (bareProject [⟨1, none, ['a'], .sourceProjectFile⟩, ⟨1, none, ['b'], .sourceProjectFile⟩])
        (bareChanges 1 [.remove 1])).1.sourceVersions.get 1 = none :=
  ⟨rfl, rfl, rfl⟩

end EtasFrontend.Session
