import EtasFrontend.Session.Change

/-! Changes that remove nothing only add: sources stay and their versions do not go down. -/
namespace EtasFrontend.Session
open Lib

variable {D : SessionData}

def SourceChange.isRemove : SourceChange → Bool
  | .remove _ => true
  | _ => false

variable {s : FrontendProjectState D} {source : SourceInput}

namespace FrontendProjectState

def sourceIds (s : FrontendProjectState D) : List SourceId := s.input.sources.map SourceInput.id

/-- The second state has what the first has, and maybe more. -/
structure Grows (s s' : FrontendProjectState D) : Prop where
  hash : s'.optionsHash = s.optionsHash
  environment : s'.input.environment = s.input.environment
  length : s.input.sources.length ≤ s'.input.sources.length
  ids : ∀ id ∈ s.sourceIds, id ∈ s'.sourceIds
  versions : ∀ id ∈ s.sourceIds, ∀ v, s.sourceVersions.get id = some v →
    ∃ v', s'.sourceVersions.get id = some v' ∧ v ≤ v'

/-- One more source, or a later version of a source. -/
def Outgrows (s s' : FrontendProjectState D) : Prop :=
  s.input.sources.length < s'.input.sources.length ∨
    ∃ id ∈ s'.sourceIds, ∃ v v', s.sourceVersions.get id = some v ∧
      s'.sourceVersions.get id = some v' ∧ v < v'

theorem Grows.refl (s : FrontendProjectState D) : s.Grows s :=
  ⟨rfl, rfl, le_rfl, fun _ h => h, fun _ _ v h => ⟨v, h, le_rfl⟩⟩

theorem Grows.trans {s s' s'' : FrontendProjectState D} (h : s.Grows s') (h' : s'.Grows s'') :
    s.Grows s'' where
  hash := h'.hash.trans h.hash
  environment := h'.environment.trans h.environment
  length := h.length.trans h'.length
  ids id hid := h'.ids id (h.ids id hid)
  versions id hid v hv := by
    obtain ⟨v', hv', hle⟩ := h.versions id hid v hv
    obtain ⟨v'', hv'', hle'⟩ := h'.versions id (h.ids id hid) v' hv'
    exact ⟨v'', hv'', hle.trans hle'⟩

theorem Outgrows.trans_grows {s s' s'' : FrontendProjectState D} (h : s.Outgrows s')
    (h' : s'.Grows s'') : s.Outgrows s'' := by
  obtain hlength | ⟨id, hid, v, v', hv, hv', hlt⟩ := h
  · exact .inl (hlength.trans_le h'.length)
  · obtain ⟨v'', hv'', hle⟩ := h'.versions id hid v' hv'
    exact .inr ⟨id, h'.ids id hid, v, v'', hv, hv'', hlt.trans_le hle⟩

theorem Outgrows.ne {s s' : FrontendProjectState D} (h : s.Outgrows s')
    (hsources : s'.input.sources = s.input.sources)
    (hversions : s'.sourceVersions = s.sourceVersions) : False := by
  obtain hlength | ⟨id, -, v, v', hv, hv', hlt⟩ := h
  · rw [hsources] at hlength
    exact lt_irrefl _ hlength
  · rw [hversions, hv] at hv'
    cases hv'
    exact lt_irrefl _ hlt

theorem any_id_eq (s : FrontendProjectState D) (id : SourceId) :
    (s.input.sources.any fun existing => existing.id == id) = true ↔ id ∈ s.sourceIds := by
  simp [sourceIds, List.any_eq_true]

theorem pushSource_sourceIds (s : FrontendProjectState D) (source : SourceInput) :
    (s.pushSource source).sourceIds = s.sourceIds ++ [source.id] := by
  simp [pushSource, sourceIds]

theorem pushSource_grows (h : source.id ∉ s.sourceIds) : s.Grows (s.pushSource source) where
  hash := rfl
  environment := rfl
  length := by simp [pushSource]
  ids id hid := by
    rw [pushSource_sourceIds]
    exact List.mem_append_left _ hid
  versions id hid v hv := by
    have hne : id ≠ source.id := fun heq => h (heq ▸ hid)
    exact ⟨v, (Map.get_insert_ne _ hne 0).trans hv, le_rfl⟩

theorem pushSource_outgrows (s : FrontendProjectState D) (source : SourceInput) :
    s.Outgrows (s.pushSource source) := by
  apply Or.inl
  simp [pushSource]

variable {id : SourceId}

theorem sourceIndex_eq_some {index : ℕ} (h : s.sourceIndex id = some index) :
    ∃ source, s.input.sources[index]? = some source ∧ source.id = id := by
  unfold sourceIndex at h
  obtain ⟨hlt, hid, -⟩ := List.findIdx?_eq_some_iff_getElem.mp h
  exact ⟨_, List.getElem?_eq_getElem hlt, by simpa using hid⟩

theorem setText_sourceIds (s : FrontendProjectState D) (index : ℕ) (text : List Char) :
    (s.setText index text).sourceIds = s.sourceIds := by
  unfold setText sourceIds
  apply List.ext_getElem?
  intro i
  rw [List.getElem?_map, List.getElem?_map, List.getElem?_modify]
  split_ifs
  · cases s.input.sources[i]? with
    | none => rfl
    | some source => rfl
  · simp

theorem setText_grows (s : FrontendProjectState D) (index : ℕ) (text : List Char) :
    s.Grows (s.setText index text) where
  hash := rfl
  environment := rfl
  length := by simp [setText]
  ids id hid := (s.setText_sourceIds index text).symm ▸ hid
  versions _ _ v hv := ⟨v, hv, le_rfl⟩

theorem setFile_grows (s : FrontendProjectState D) (index : ℕ) (file : SourceFile) :
    s.Grows (s.setFile index file) :=
  ⟨rfl, rfl, le_rfl, fun _ h => h, fun _ _ v h => ⟨v, h, le_rfl⟩⟩

/-- With a file for the source it is replaced, without one the call fails. -/
theorem replaceSourceFile_setText {index : ℕ} (h : s.sourceIndex id = some index)
    (text : List Char) :
    (s.sourceFileIndex id = none ∧
      (s.setText index text).replaceSourceFile index = (s.setText index text, some (.missingSource id)))
    ∨ ∃ fileIndex source, s.sourceFileIndex id = some fileIndex ∧
      s.input.sources[index]? = some source ∧
      (s.setText index text).replaceSourceFile index =
        ((s.setText index text).setFile fileIndex (.fromInput { source with text := text }),
          none) := by
  obtain ⟨source, hsource, rfl⟩ := sourceIndex_eq_some h
  have hset : (s.setText index text).input.sources[index]? = some { source with text := text } := by
    simp [setText, hsource]
  have hfiles : (s.setText index text).sourceFileIndex source.id = s.sourceFileIndex source.id := rfl
  unfold replaceSourceFile
  rw [hset]
  dsimp only
  rw [hfiles]
  cases s.sourceFileIndex source.id with
  | none => exact .inl ⟨rfl, rfl⟩
  | some fileIndex => exact .inr ⟨fileIndex, source, rfl, hsource, rfl⟩

theorem validateSourceVersion_eq_none {version : SourceVersion}
    (h : s.validateSourceVersion id version = none) :
    ∃ current, s.sourceVersions.get id = some current ∧ current < version := by
  unfold validateSourceVersion at h
  split at h
  · cases h
  · next current hcurrent =>
    split at h
    · cases h
    · next hle => exact ⟨current, hcurrent, not_le.mp hle⟩

theorem insertVersion_grows {version current : SourceVersion}
    (hcurrent : s.sourceVersions.get id = some current) (hlt : current < version) :
    s.Grows { s with sourceVersions := s.sourceVersions.insert id version } where
  hash := rfl
  environment := rfl
  length := le_rfl
  ids _ hid := hid
  versions id' _ v hv := by
    by_cases heq : id' = id
    · subst heq
      rw [hcurrent] at hv
      cases hv
      exact ⟨version, Map.get_insert_self _ _ _, hlt.le⟩
    · exact ⟨v, (Map.get_insert_ne _ heq version).trans hv, le_rfl⟩

end FrontendProjectState

variable {run : ChangeRun D}

namespace ChangeRun
open FrontendProjectState

theorem addSource_grows (run : ChangeRun D) (source : SourceInput) :
    run.state.Grows (run.addSource source).1.state := by
  unfold addSource
  split
  · exact .refl _
  · next h => exact pushSource_grows fun hid => h ((run.state.any_id_eq source.id).mpr hid)

theorem addSource_outgrows (h : (run.addSource source).2 = none) :
    run.state.Outgrows (run.addSource source).1.state := by
  unfold addSource at h ⊢
  split
  · next hid =>
    rw [if_pos hid] at h
    cases h
  · exact pushSource_outgrows _ _

/-- What a change of a text can do: nothing, set the text and then fail, or all of it. -/
theorem changeText_cases (run : ChangeRun D) (source : SourceId) (version : SourceVersion)
    (text : List Char → List Char × Option FrontendSessionError) :
    (((run.state.validateSourceVersion source version).isSome ∨
        run.state.sourceIndex source = none) ∧
      ∃ error, run.changeText source version text = (run, some error)) ∨
    ∃ index, run.state.validateSourceVersion source version = none ∧
      run.state.sourceIndex source = some index ∧
      (((text (run.state.textAt index)).2.isSome ∨ run.state.sourceFileIndex source = none) ∧
          (∃ error, run.changeText source version text =
            ({ run with state := run.state.setText index (text (run.state.textAt index)).1 },
              some error)) ∨
        (text (run.state.textAt index)).2 = none ∧
          ∃ fileIndex input, run.state.sourceFileIndex source = some fileIndex ∧
            run.state.input.sources[index]? = some input ∧
            run.changeText source version text =
            ({ run with
              state := { (run.state.setText index (text (run.state.textAt index)).1).setFile
                  fileIndex (.fromInput { input with
                    text := (text (run.state.textAt index)).1 }) with
                sourceVersions := run.state.sourceVersions.insert source version }
              changedSources := run.changedSources ++ [source] }, none)) := by
  unfold changeText
  cases hvalid : run.state.validateSourceVersion source version with
  | some error => exact .inl ⟨.inl rfl, error, rfl⟩
  | none =>
    cases hindex : run.state.sourceIndex source with
    | none => exact .inl ⟨.inr rfl, _, rfl⟩
    | some index =>
      apply Or.inr
      refine ⟨index, rfl, rfl, ?_⟩
      dsimp only
      cases hfailed : (text (run.state.textAt index)).2 with
      | some error => exact .inl ⟨.inl rfl, error, rfl⟩
      | none =>
        obtain ⟨hfile, hreplace⟩ | ⟨fileIndex, input, hfile, hinput, hreplace⟩ :=
          replaceSourceFile_setText hindex (text (run.state.textAt index)).1
        · dsimp only
          rw [hreplace]
          exact .inl ⟨.inr hfile, _, rfl⟩
        · dsimp only
          rw [hreplace]
          exact .inr ⟨rfl, fileIndex, input, hfile, hinput, rfl⟩

theorem changeText_grows (run : ChangeRun D) (source : SourceId) (version : SourceVersion)
    (text : List Char → List Char × Option FrontendSessionError) :
    run.state.Grows (run.changeText source version text).1.state := by
  obtain ⟨-, error, hrun⟩ | ⟨index, hvalid, hindex, h⟩ := run.changeText_cases source version text
  · rw [hrun]
    exact .refl _
  · have htext := run.state.setText_grows index (text (run.state.textAt index)).1
    obtain ⟨-, error, hrun⟩ | ⟨-, fileIndex, input, -, -, hrun⟩ := h
    · rw [hrun]
      exact htext
    · obtain ⟨current, hcurrent, hlt⟩ := validateSourceVersion_eq_none hvalid
      rw [hrun]
      exact (htext.trans (setFile_grows _ fileIndex _)).trans
        (insertVersion_grows hcurrent hlt)

theorem changeText_outgrows {source : SourceId} {version : SourceVersion}
    {text : List Char → List Char × Option FrontendSessionError}
    (h : (run.changeText source version text).2 = none) :
    run.state.Outgrows (run.changeText source version text).1.state := by
  have hgrows := run.changeText_grows source version text
  obtain ⟨-, error, hrun⟩ | ⟨index, hvalid, hindex, hcases⟩ :=
    run.changeText_cases source version text
  · rw [hrun] at h
    cases h
  · obtain ⟨-, error, hrun⟩ | ⟨-, fileIndex, input, -, -, hrun⟩ := hcases
    · rw [hrun] at h
      cases h
    · obtain ⟨current, hcurrent, hlt⟩ := validateSourceVersion_eq_none hvalid
      obtain ⟨input, hinput, hid⟩ := sourceIndex_eq_some hindex
      have hmem : source ∈ run.state.sourceIds :=
        List.mem_map.mpr ⟨input, List.mem_of_getElem? hinput, hid⟩
      have hversion : (run.changeText source version text).1.state.sourceVersions.get source =
          some version := by
        rw [hrun]
        exact Map.get_insert_self _ _ _
      exact .inr ⟨source, hgrows.ids source hmem, current, version, hcurrent, hversion, hlt⟩

theorem applySourceChange_grows (run : ChangeRun D) {change : SourceChange}
    (h : change.isRemove = false) : run.state.Grows (run.applySourceChange change).1.state := by
  cases change with
  | add source => exact run.addSource_grows source
  | remove source => cases h
  | replace source version text => exact run.changeText_grows source version _
  | edit source version edits => exact run.changeText_grows source version _

theorem applySourceChange_outgrows {change : SourceChange} (hremove : change.isRemove = false)
    (h : (run.applySourceChange change).2 = none) :
    run.state.Outgrows (run.applySourceChange change).1.state := by
  cases change with
  | add source => exact addSource_outgrows h
  | remove source => cases hremove
  | replace source version text => exact changeText_outgrows h
  | edit source version edits => exact changeText_outgrows h

end ChangeRun

/-- What is known of the sources of an overlay that have passed. -/
structure OverlayPassed (s : FrontendProjectState D) (passed : List SourceInput)
    (batch : List SourceId × List String) : Prop where
  ids : ∀ id, id ∈ batch.1 ↔ id ∈ passed.map SourceInput.id
  nodup : (passed.map SourceInput.id).Nodup
  fresh : ∀ source ∈ passed, source.id ∉ s.sourceIds

variable {change : DependencyOverlayChange}

theorem OverlayPassed.step {passed : List SourceInput} {batch : List SourceId × List String}
    (h : OverlayPassed s passed batch)
    (hok : (validateOverlaySource s change batch source).2 = none) :
    OverlayPassed s (passed ++ [source]) (validateOverlaySource s change batch source).1 := by
  have hpush : ∀ paths, ¬(batch.1.contains source.id ||
      s.input.sources.any fun existing => existing.id == source.id) = true →
      OverlayPassed s (passed ++ [source]) (source.id :: batch.1, paths) := by
    intro paths hnew
    rw [Bool.or_eq_true, not_or, s.any_id_eq, List.contains_iff_mem, h.ids] at hnew
    constructor
    · intro id
      rw [List.mem_cons, h.ids, List.map_append, List.mem_append, or_comm]
      simp
    · rw [List.map_append, List.nodup_append]
      refine ⟨h.nodup, List.nodup_singleton _, ?_⟩
      intro id hid id' hid' heq
      rw [List.map_singleton, List.mem_singleton] at hid'
      exact hnew.1 (hid' ▸ heq ▸ hid)
    · intro source' hsource'
      obtain hsource' | hsource' := List.mem_append.mp hsource'
      · exact h.fresh source' hsource'
      · exact List.mem_singleton.mp hsource' ▸ hnew.2
  unfold validateOverlaySource at hok ⊢
  dsimp only at hok ⊢
  split at hok
  · cases hok
  · split at hok
    · cases hok
    · next hnew =>
      rw [if_neg hnew]
      split at hok
      · exact hpush _ hnew
      · split at hok
        · cases hok
        · next hpaths =>
          rw [if_neg hpaths]
          exact hpush _ hnew

theorem validateOverlay_eq_none (h : validateOverlay s change = none) :
    change.addedSources ≠ [] ∧ (change.addedSources.map SourceInput.id).Nodup ∧
      ∀ source ∈ change.addedSources, source.id ∉ s.sourceIds := by
  unfold validateOverlay at h
  split at h
  · cases h
  · next hne =>
    have hnil : OverlayPassed s [] ([], []) :=
      { ids := fun id => by simp
        nodup := List.nodup_nil
        fresh := fun source hsource => by cases hsource }
    have hpassed := runSteps_complete (p := OverlayPassed s) (fun _ _ _ hp hok => hp.step hok) hnil h
    rw [List.nil_append] at hpassed
    exact ⟨fun hnil => hne (by rw [hnil]; rfl), hpassed.nodup, hpassed.fresh⟩

namespace ChangeRun

def pushOverlaySource (run : ChangeRun D) (source : SourceInput) : ChangeRun D :=
  { run with
    state := run.state.pushSource source
    addedSources := run.addedSources ++ [source.id]
    changedSources := run.changedSources ++ [source.id] }

/-- What a new source keeps, the new sources of an overlay keep. -/
theorem pushOverlaySources_keeps {P : FrontendProjectState D → Prop}
    (hP : ∀ (run : ChangeRun D) source, P run.state → source.id ∉ run.state.sourceIds →
      P (run.pushOverlaySource source).state)
    {run : ChangeRun D} (h : P run.state) {sources : List SourceInput}
    (hnodup : (sources.map SourceInput.id).Nodup)
    (hfresh : ∀ source ∈ sources, source.id ∉ run.state.sourceIds) :
    P (sources.foldl pushOverlaySource run).state := by
  induction sources generalizing run with
  | nil => exact h
  | cons source sources ih =>
    rw [List.map_cons, List.nodup_cons] at hnodup
    apply ih (hP run source h (hfresh source List.mem_cons_self)) hnodup.2
    intro other hother hmem
    have hids : (run.pushOverlaySource source).state.sourceIds =
        run.state.sourceIds ++ [source.id] := run.state.pushSource_sourceIds source
    rw [hids, List.mem_append, List.mem_singleton] at hmem
    obtain hmem | hmem := hmem
    · exact hfresh other (List.mem_cons_of_mem _ hother) hmem
    · exact hnodup.1 (hmem ▸ List.mem_map_of_mem hother)

theorem pushOverlaySources_length (run : ChangeRun D) (sources : List SourceInput) :
    (sources.foldl pushOverlaySource run).state.input.sources.length =
      run.state.input.sources.length + sources.length := by
  induction sources generalizing run with
  | nil => rfl
  | cons source sources ih =>
    rw [List.foldl_cons, ih]
    simp [pushOverlaySource, FrontendProjectState.pushSource]
    omega

theorem applyDependencyOverlayChange_cases (run : ChangeRun D) (change : DependencyOverlayChange) :
    (∃ error, validateOverlay run.state change = some error ∧
      run.applyDependencyOverlayChange change = (run, some error)) ∨
    validateOverlay run.state change = none ∧
      run.applyDependencyOverlayChange change =
        (change.addedSources.foldl pushOverlaySource run, none) := by
  unfold applyDependencyOverlayChange
  cases hvalid : validateOverlay run.state change with
  | some error => exact .inl ⟨error, rfl, rfl⟩
  | none => exact .inr ⟨rfl, rfl⟩

theorem applyDependencyOverlayChange_grows (run : ChangeRun D) (change : DependencyOverlayChange) :
    run.state.Grows (run.applyDependencyOverlayChange change).1.state := by
  obtain ⟨error, -, hrun⟩ | ⟨hvalid, hrun⟩ := run.applyDependencyOverlayChange_cases change
  · rw [hrun]
    exact .refl _
  · obtain ⟨-, hnodup, hfresh⟩ := validateOverlay_eq_none hvalid
    rw [hrun]
    have hpush (run' : ChangeRun D) (source : SourceInput) (hgrows : run.state.Grows run'.state)
        (hfresh : source.id ∉ run'.state.sourceIds) :
        run.state.Grows (run'.pushOverlaySource source).state :=
      hgrows.trans (FrontendProjectState.pushSource_grows hfresh)
    exact pushOverlaySources_keeps hpush (.refl run.state) hnodup hfresh

theorem applyDependencyOverlayChange_outgrows
    (h : (run.applyDependencyOverlayChange change).2 = none) :
    run.state.Outgrows (run.applyDependencyOverlayChange change).1.state := by
  obtain ⟨error, -, hrun⟩ | ⟨hvalid, hrun⟩ := run.applyDependencyOverlayChange_cases change
  · rw [hrun] at h
    cases h
  · have hne := (validateOverlay_eq_none hvalid).1
    rw [hrun]
    apply Or.inl
    rw [pushOverlaySources_length]
    have hpos := List.length_pos_of_ne_nil hne
    omega

end ChangeRun
end EtasFrontend.Session
