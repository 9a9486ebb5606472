import EtasFrontend.Residual.DispositionsExact

/-! Which clauses a conformance leaves to the runtime. -/
namespace EtasFrontend.Residual
open Lib Effects

/-! What a verified record says. -/

variable {alternative : CheckedTraceStaticAlternative} {a : ℕ}

namespace TraceStaticDispositions
variable {analysis : TraceSpecAnalysisOutput} {dispositions : TraceStaticDispositions}
  {index : ℕ} {item : HirItemId} {conformance : CheckedTraceStaticConformance}

/-- The record of an alternative agrees with the analysis. -/
structure Verified (analysis : TraceSpecAnalysisOutput) (index : ℕ)
    (alternative : CheckedTraceStaticAlternative) (a : ℕ) : Prop where
  permission : analysis.checkedPermissionFact index a = .ok alternative.permission
  clauses : ∀ c fact, alternative.clauses[c]? = some fact →
    analysis.checkedClauseFact index a c = .ok fact

theorem forM_ok {ι ε : Type} {f : ι → Except ε Unit} {l : List ι} (h : l.forM f = .ok ()) :
    ∀ a ∈ l, f a = .ok () := by
  induction l with
  | nil => nofun
  | cons b l ih =>
    obtain ⟨_, hb, h⟩ := bind_eq_ok.mp h
    intro a ha
    rcases List.mem_cons.mp ha with rfl | ha
    · exact hb
    · exact ih h a ha

theorem verified_of_verifyAlternative
    (h : verifyAlternative analysis index (alternative, a) = .ok ()) :
    Verified analysis index alternative a := by
  unfold verifyAlternative at h
  obtain ⟨permission, hpermission, h⟩ := bind_eq_ok.mp h
  dsimp only at h
  by_cases hsame : alternative.permission ≠ permission
  · rw [if_pos hsame] at h
    cases h
  · rw [if_neg hsame] at h
    have hsame := not_not.mp hsame
    constructor
    · rw [hpermission, hsame]
    · intro c fact hfact
      have hmem : (fact, c) ∈ alternative.clauses.zipIdx :=
        List.mem_zipIdx_iff_getElem?.mpr hfact
      obtain ⟨fact', hfact', h⟩ := bind_eq_ok.mp (forM_ok h (fact, c) hmem)
      dsimp only at h hfact'
      by_cases hne : fact ≠ fact'
      · rw [if_pos hne] at h
        cases h
      · rw [hfact', not_not.mp hne]

theorem verifiedConformance_ok
    (h : dispositions.verifiedConformance index item analysis = .ok conformance) :
    conformance.source.item = item ∧
      conformance.alternatives.length = conformance.source.clauseIds.length ∧
      (∀ (a : ℕ) (alternative : CheckedTraceStaticAlternative) (ids : List (Option ClauseId)),
        conformance.alternatives[a]? = some alternative →
          conformance.source.clauseIds[a]? = some ids → alternative.clauses.length = ids.length) ∧
      analysis.sourceConformance index = some conformance.source ∧
      (∀ a alternative, conformance.alternatives[a]? = some alternative →
        Verified analysis index alternative a) ∧
      analysis.checkedConformanceDisposition index = .ok conformance.disposition := by
  unfold verifiedConformance at h
  obtain ⟨checked, hchecked, h⟩ := bind_eq_ok.mp h
  dsimp only at h
  by_cases hsource : analysis.sourceConformance index ≠ some checked.source
  · rw [if_pos hsource] at h
    cases h
  · rw [if_neg hsource] at h
    obtain ⟨_, halternatives, h⟩ := bind_eq_ok.mp h
    obtain ⟨disposition, hdisposition, h⟩ := bind_eq_ok.mp h
    by_cases hsame : checked.disposition ≠ disposition
    · rw [if_pos hsame] at h
      cases h
    · rw [if_neg hsame] at h
      cases h
      unfold checkedConformance at hchecked
      split at hchecked
      · cases hchecked
      · cases hchecked
      · split at hchecked
        · cases hchecked
        · rename_i hshape
          split at hchecked
          · cases hchecked
          · rename_i hlengths
            cases hchecked
            obtain ⟨hitem, -, hlength⟩ : conformance.source.item = item ∧ _ ∧
                conformance.alternatives.length = conformance.source.clauseIds.length := by
              simpa [not_or] using hshape
            refine ⟨hitem, hlength, ?_, not_not.mp hsource, ?_, ?_⟩
            · intro a alternative ids halternative hids
              have hmem : (alternative, ids) ∈
                  conformance.alternatives.zip conformance.source.clauseIds :=
                List.mem_of_getElem? (List.getElem?_zip_eq_some.mpr ⟨halternative, hids⟩)
              by_contra hne
              apply hlengths
              apply List.any_eq_true.mpr
              exact ⟨_, hmem, by simp [hne]⟩
            · intro a alternative halternative
              exact verified_of_verifyAlternative (forM_ok halternatives (alternative, a)
                (List.mem_zipIdx_iff_getElem?.mpr halternative))
            · rw [hdisposition, not_not.mp hsame]

end TraceStaticDispositions

/-! The clauses listed for an alternative. -/

/-- Where the facts that pass a test are. -/
def sites (test : CheckedTraceClauseFact → Bool) (facts : List (CheckedTraceClauseFact × ℕ)) :
    List ℕ :=
  (facts.filter fun entry => test entry.1).map Prod.snd

def isPermission (fact : CheckedTraceClauseFact) : Bool :=
  fact.disposition = .alternativePermission

def isUnknown (fact : CheckedTraceClauseFact) : Bool :=
  TraceSpecTables.isUnsupported fact.disposition

/-- The unknown clauses, and the allow clauses while the permission is unknown. -/
def openSites (alternative : CheckedTraceStaticAlternative) : List ℕ :=
  (if alternative.permission.disposition = .unsupported then
      sites isPermission alternative.clauses.zipIdx
    else []) ++ sites isUnknown alternative.clauses.zipIdx

/-- A listed clause is at its place, under its own identity. -/
def Listed (alternative : CheckedTraceStaticAlternative) (a : ℕ) (clause : TraceResidualClause) :
    Prop :=
  clause.alternativeIndex = a ∧ ∃ fact, alternative.clauses[clause.clauseIndex]? = some fact ∧
    fact.sourceClause = some clause.clause

variable {fact : CheckedTraceClauseFact} {ids : List (Option ClauseId)}

theorem clauseSite_ok {c : ℕ} {id : ClauseId} (h : clauseSite ids c fact = .ok id) :
    fact.sourceClause = some id := by
  unfold clauseSite at h
  split at h
  · split_ifs at h with heq
    cases h
    exact heq
  · cases h
  · cases h

/-- A clause is listed for a fact and its place. -/
def ListedFor (a : ℕ) (entry : CheckedTraceClauseFact × ℕ) (clause : TraceResidualClause) : Prop :=
  clause.alternativeIndex = a ∧ clause.clauseIndex = entry.2 ∧
    entry.1.sourceClause = some clause.clause

variable {clauses : List TraceResidualClause} {entries : List (CheckedTraceClauseFact × ℕ)}

theorem map_clauseIndex (h : List.Forall₂ (ListedFor a) entries clauses) :
    clauses.map TraceResidualClause.clauseIndex = entries.map Prod.snd := by
  induction h with
  | nil => rfl
  | cons hentry _ ih => rw [List.map_cons, List.map_cons, hentry.2.1, ih]

theorem listed_of_forall₂ (h : List.Forall₂ (ListedFor a) entries clauses)
    (hentries : ∀ entry ∈ entries, entry ∈ alternative.clauses.zipIdx) :
    ∀ clause ∈ clauses, Listed alternative a clause := by
  induction h with
  | nil => nofun
  | cons hentry _ ih =>
    intro clause hclause
    rcases List.mem_cons.mp hclause with rfl | hclause
    · have hmem := List.mem_zipIdx_iff_getElem?.mp (hentries _ List.mem_cons_self)
      exact ⟨hentry.1, _, hentry.2.1 ▸ hmem, hentry.2.2⟩
    · exact ih (fun other hother => hentries other (List.mem_cons_of_mem _ hother)) clause hclause

theorem permissionClauses_ok (h : permissionClauses a alternative ids = .ok clauses) :
    alternative.permission.disposition ≠ .violated ∧
      clauses.map TraceResidualClause.clauseIndex =
        (if alternative.permission.disposition = .unsupported then
          sites isPermission alternative.clauses.zipIdx else []) ∧
      ∀ clause ∈ clauses, Listed alternative a clause := by
  unfold permissionClauses at h
  split at h
  · rename_i hdisposition
    cases h
    rw [hdisposition]
    simp
  · cases h
  · rename_i hdisposition
    rw [hdisposition]
    dsimp only at h
    by_cases hunresolved : (alternative.permission.unresolved ||
        alternative.permission.unresolvedCalls) = true
    · rw [if_pos hunresolved] at h
      cases h
    · rw [if_neg hunresolved] at h
      by_cases hopen : rowIsOpen alternative.permission.requested = true
      · rw [if_pos hopen] at h
        cases h
      · rw [if_neg hopen] at h
        split at h
        · cases h
        · obtain ⟨listed, hlisted, h⟩ := bind_eq_ok.mp h
          split at h
          · cases h
          · cases h
            have hlistedFor : List.Forall₂ (ListedFor a)
                (alternative.clauses.zipIdx.filter fun entry => isPermission entry.1) clauses := by
              refine (mapM_ok hlisted).imp ?_
              intro entry clause hclause
              obtain ⟨id, hid, hclause⟩ := bind_eq_ok.mp hclause
              cases hclause
              exact ⟨rfl, rfl, clauseSite_ok hid⟩
            refine ⟨nofun, ?_, ?_⟩
            · rw [if_pos rfl]
              exact map_clauseIndex hlistedFor
            · apply listed_of_forall₂ hlistedFor
              intro entry hentry
              exact List.mem_of_mem_filter hentry

theorem clauseCause_ok {outcome : Option ClauseOutcome} {cause : Option TraceResidualCause}
    (h : clauseCause outcome fact = .ok cause) :
    fact.disposition ≠ .violated ∧ isUnknown fact = cause.isSome := by
  obtain ⟨id, disposition⟩ := fact
  unfold clauseCause at h
  cases disposition with
  | proven | alternativePermission =>
    cases h
    exact ⟨nofun, rfl⟩
  | violated => cases h
  | unsupported uncertainty =>
    refine ⟨nofun, ?_⟩
    cases uncertainty with
    | unsupportedLimit | openRequestedActions => cases h
    | outcomeEvidence | orderedActions =>
      cases h
      rfl
    | denialSelector =>
      dsimp only at h
      split at h
      · split_ifs at h
        cases h
        rfl
      · cases h

variable {lists : List (List TraceResidualClause)}

/-- Facts that are listed or not, one after the other. -/
theorem listedFor_flatten (h : List.Forall₂ (fun entry list => entry.1.disposition ≠ .violated ∧
      List.Forall₂ (ListedFor a) ([entry].filter fun entry => isUnknown entry.1) list)
      entries lists) :
    (∀ entry ∈ entries, entry.1.disposition ≠ .violated) ∧
      List.Forall₂ (ListedFor a) (entries.filter fun entry => isUnknown entry.1) lists.flatten := by
  induction h with
  | nil => exact ⟨nofun, .nil⟩
  | @cons entry list entries lists hentry _ ih =>
    constructor
    · intro other hother
      rcases List.mem_cons.mp hother with rfl | hother
      · exact hentry.1
      · exact ih.1 other hother
    · have hsplit : (entry :: entries).filter (fun entry => isUnknown entry.1) =
          ([entry].filter fun entry => isUnknown entry.1) ++
            entries.filter fun entry => isUnknown entry.1 := List.filter_append [entry] entries
      rw [hsplit, List.flatten_cons]
      exact List.rel_append hentry.2 ih.2

variable {analysis : TraceSpecAnalysisOutput} {item : HirItemId}

variable {source : CheckedTraceSourceConformance}

theorem alternativeClauses_ok
    (h : alternativeClauses analysis item source (alternative, a) = .ok clauses) :
    alternative.permission.disposition ≠ .violated ∧
      (∀ fact ∈ alternative.clauses, fact.disposition ≠ .violated) ∧
      clauses.map TraceResidualClause.clauseIndex = openSites alternative ∧
      ∀ clause ∈ clauses, Listed alternative a clause := by
  unfold alternativeClauses at h
  dsimp only at h
  split at h
  · cases h
  · rename_i ids hids
    obtain ⟨permission, hpermission, h⟩ := bind_eq_ok.mp h
    obtain ⟨lists, hlists, h⟩ := bind_eq_ok.mp h
    split at h
    · cases h
    · cases h
      obtain ⟨hviolated, hindices, hlisted⟩ := permissionClauses_ok hpermission
      obtain ⟨hnone, hunknown⟩ := listedFor_flatten (a := a) ((mapM_ok hlists).imp (by
        intro entry list hlist
        obtain ⟨cause, hcause, hlist⟩ := bind_eq_ok.mp hlist
        obtain ⟨hdisposition, hisUnknown⟩ := clauseCause_ok hcause
        refine ⟨hdisposition, ?_⟩
        rw [List.filter_cons, hisUnknown]
        cases cause with
        | none =>
          cases hlist
          exact .nil
        | some cause =>
          obtain ⟨id, hid, hlist⟩ := bind_eq_ok.mp hlist
          cases hlist
          exact .cons ⟨rfl, rfl, clauseSite_ok hid⟩ .nil))
      refine ⟨hviolated, ?_, ?_, ?_⟩
      · intro fact hfact
        obtain ⟨c, hc⟩ := List.getElem?_of_mem hfact
        exact hnone (fact, c) (List.mem_zipIdx_iff_getElem?.mpr hc)
      · rw [List.map_append, hindices, map_clauseIndex hunknown]
        rfl
      · intro clause hclause
        rcases List.mem_append.mp hclause with hclause | hclause
        · exact hlisted clause hclause
        · refine listed_of_forall₂ hunknown ?_ clause hclause
          intro entry hentry
          exact List.mem_of_mem_filter hentry

variable {dispositions : TraceStaticDispositions} {requirement : TraceResidualRequirement}

/-! Places of listed clauses. -/

def TraceResidualClause.site (clause : TraceResidualClause) : ℕ × ℕ :=
  (clause.alternativeIndex, clause.clauseIndex)

theorem mem_sites {test : CheckedTraceClauseFact → Bool} {facts : List CheckedTraceClauseFact}
    {c : ℕ} : c ∈ sites test facts.zipIdx ↔ ∃ fact, facts[c]? = some fact ∧ test fact = true := by
  unfold sites
  simp only [List.mem_map, List.mem_filter]
  constructor
  · rintro ⟨⟨fact, c'⟩, ⟨hmem, htest⟩, rfl⟩
    exact ⟨fact, List.mem_zipIdx_iff_getElem?.mp hmem, htest⟩
  · rintro ⟨fact, hfact, htest⟩
    exact ⟨(fact, c), ⟨List.mem_zipIdx_iff_getElem?.mpr hfact, htest⟩, rfl⟩

theorem nodup_sites (test : CheckedTraceClauseFact → Bool) (facts : List CheckedTraceClauseFact) :
    (sites test facts.zipIdx).Nodup :=
  (List.filter_sublist.map Prod.snd).nodup (List.nodup_zipIdx_map_snd facts)

theorem nodup_openSites (alternative : CheckedTraceStaticAlternative) :
    (openSites alternative).Nodup := by
  unfold openSites
  split_ifs
  · apply (nodup_sites _ _).append (nodup_sites _ _)
    intro c hpermission hunknown
    obtain ⟨fact, hfact, hpermission⟩ := mem_sites.mp hpermission
    obtain ⟨fact', hfact', hunknown⟩ := mem_sites.mp hunknown
    cases hfact.symm.trans hfact'
    have hdisposition : fact.disposition = .alternativePermission := by
      simpa [isPermission] using hpermission
    simp [isUnknown, hdisposition, TraceSpecTables.isUnsupported] at hunknown
  · exact nodup_sites _ _

/-- The open places of the alternatives, one alternative after the other. -/
def openPlaces (alternatives : List CheckedTraceStaticAlternative) : List (ℕ × ℕ) :=
  alternatives.zipIdx.flatMap fun entry => (openSites entry.1).map fun c => (entry.2, c)

variable {alternatives : List CheckedTraceStaticAlternative}

theorem mem_openPlaces {a c : ℕ} :
    (a, c) ∈ openPlaces alternatives ↔
      ∃ alternative, alternatives[a]? = some alternative ∧ c ∈ openSites alternative := by
  unfold openPlaces
  rw [List.mem_flatMap]
  constructor
  · rintro ⟨⟨alternative, a'⟩, hmem, hplace⟩
    obtain ⟨c', hc, heq⟩ := List.mem_map.mp hplace
    cases heq
    exact ⟨alternative, List.mem_zipIdx_iff_getElem?.mp hmem, hc⟩
  · rintro ⟨alternative, halternative, hc⟩
    exact ⟨(alternative, a), List.mem_zipIdx_iff_getElem?.mpr halternative,
      List.mem_map_of_mem hc⟩

theorem nodup_openPlaces (alternatives : List CheckedTraceStaticAlternative) :
    (openPlaces alternatives).Nodup := by
  unfold openPlaces
  rw [List.nodup_flatMap]
  constructor
  · intro entry _
    exact (nodup_openSites entry.1).map fun c c' h => (Prod.mk.inj h).2
  · refine (List.pairwise_map.mp (List.nodup_zipIdx_map_snd alternatives)).imp ?_
    intro entry entry' hne place hplace hplace'
    obtain ⟨c, -, rfl⟩ := List.mem_map.mp hplace
    obtain ⟨c', -, heq⟩ := List.mem_map.mp hplace'
    exact hne (Prod.mk.inj heq).1.symm

theorem map_site (hindices : clauses.map TraceResidualClause.clauseIndex = openSites alternative)
    (hlisted : ∀ clause ∈ clauses, Listed alternative a clause) :
    clauses.map TraceResidualClause.site = (openSites alternative).map fun c => (a, c) := by
  rw [← hindices, List.map_map]
  apply List.map_congr_left
  intro clause hclause
  exact Prod.ext (hlisted clause hclause).1 rfl

/-- What is listed, alternative by alternative. -/
theorem places_of_alternativeClauses
    (h : alternatives.zipIdx.mapM (alternativeClauses analysis item source) = .ok lists) :
    (∀ alternative ∈ alternatives, alternative.permission.disposition ≠ .violated ∧
      ∀ fact ∈ alternative.clauses, fact.disposition ≠ .violated) ∧
      lists.flatten.map TraceResidualClause.site = openPlaces alternatives ∧
      ∀ clause ∈ lists.flatten, ∃ alternative,
        alternatives[clause.alternativeIndex]? = some alternative ∧
          Listed alternative clause.alternativeIndex clause := by
  have hmem : ∀ entry ∈ alternatives.zipIdx, alternatives[entry.2]? = some entry.1 :=
    fun entry hentry => List.mem_zipIdx_iff_getElem?.mp hentry
  have hsteps := mapM_ok h
  refine ⟨?_, ?_, ?_⟩
  · intro alternative halternative
    obtain ⟨a, ha⟩ := List.getElem?_of_mem halternative
    have hentry : alternatives.zipIdx[a]? = some (alternative, a) := by
      rw [List.getElem?_zipIdx, ha]
      simp
    obtain ⟨list, -, hlist⟩ := forall₂_getElem? hsteps hentry
    obtain ⟨hpermission, hfacts, -⟩ := alternativeClauses_ok hlist
    exact ⟨hpermission, hfacts⟩
  · unfold openPlaces
    clear h
    generalize alternatives.zipIdx = entries at hsteps ⊢
    induction hsteps with
    | nil => rfl
    | cons hlist _ ih =>
      obtain ⟨-, -, hindices, hlisted⟩ := alternativeClauses_ok hlist
      rw [List.flatten_cons, List.map_append, ih, List.flatMap_cons, map_site hindices hlisted]
  · intro clause hclause
    obtain ⟨list, hlist, hclause⟩ := List.mem_flatten.mp hclause
    obtain ⟨a, ha⟩ := List.getElem?_of_mem hlist
    obtain ⟨⟨alternative, a'⟩, hentry, hstep⟩ := forall₂_getElem? hsteps.flip ha
    obtain ⟨-, -, -, hlisted⟩ := alternativeClauses_ok hstep
    have hthis := hlisted clause hclause
    have hplace := hmem (alternative, a') (List.mem_of_getElem? hentry)
    exact ⟨alternative, hthis.1 ▸ hplace, hthis.1 ▸ hthis⟩

/-! The same for the tables of an analysis. -/

def SourceClauseKind.isAllow : SourceClauseKind → Bool
  | .allow .. => true
  | _ => false

variable {group : List TraceSpecClause}

namespace TraceSpecTables
variable {tables : TraceSpecTables} {index : ℕ} {entry : AnalyzedConformance}

theorem alternativeDispositions_ok {ids : List (List (Option ClauseId))} {remaining start : ℕ}
    {dispositions : List CheckedTraceStaticDisposition}
    (h : tables.alternativeDispositions index remaining start ids = .ok dispositions) :
    ∀ i < ids.length, ∃ disposition ∈ dispositions,
      tables.checkedAlternativeDisposition index (start + i) = .ok disposition := by
  induction ids generalizing remaining start dispositions with
  | nil =>
    intro i hi
    cases hi
  | cons clauses ids ih =>
    unfold alternativeDispositions at h
    split at h
    · cases h
    · obtain ⟨disposition, hdisposition, h⟩ := bind_eq_ok.mp h
      obtain ⟨rest, hrest, h⟩ := bind_eq_ok.mp h
      cases h
      intro i hi
      cases i with
      | zero => exact ⟨disposition, List.mem_cons_self, hdisposition⟩
      | succ i =>
        obtain ⟨other, hother, heq⟩ := ih hrest i (Nat.lt_of_succ_lt_succ hi)
        refine ⟨other, List.mem_cons_of_mem _ hother, ?_⟩
        rw [← heq, Nat.add_assoc, Nat.add_comm 1 i]

variable {disposition : CheckedTraceStaticDisposition}

theorem checkedConformanceDisposition_ok (hfound : tables.sourceConformances.get index = some entry)
    (h : tables.checkedConformanceDisposition index = .ok disposition) :
    ∃ dispositions, disposition = conformanceDisposition dispositions ∧
      ∀ a < entry.clauseIds.length, ∃ d ∈ dispositions,
        tables.checkedAlternativeDisposition index a = .ok d := by
  unfold checkedConformanceDisposition at h
  rw [hfound] at h
  dsimp only at h
  split at h
  · cases h
  · obtain ⟨dispositions, hdispositions, h⟩ := bind_eq_ok.mp h
    cases h
    refine ⟨dispositions, rfl, ?_⟩
    intro a ha
    have hall := alternativeDispositions_ok hdispositions a ha
    rwa [Nat.zero_add] at hall

theorem checkedAlternativeDisposition_ok (hfound : tables.sourceConformances.get index = some entry)
    (hids : entry.clauseIds[a]? = some ids)
    (h : tables.checkedAlternativeDisposition index a = .ok disposition) :
    ∃ permission facts, tables.checkedPermissionFact index a = .ok permission ∧
      List.Forall₂ (fun c fact => tables.checkedClauseFact index a c = .ok fact)
        (List.range ids.length) facts ∧
      disposition = alternativeDisposition permission.disposition facts := by
  unfold checkedAlternativeDisposition at h
  rw [hfound] at h
  dsimp only at h
  rw [hids] at h
  dsimp only at h
  split at h
  · cases h
  · split at h
    · cases h
    · obtain ⟨permission, hpermission, h⟩ := bind_eq_ok.mp h
      obtain ⟨facts, hfacts, h⟩ := bind_eq_ok.mp h
      cases h
      exact ⟨permission, facts, hpermission, mapM_ok hfacts, rfl⟩

theorem not_violated {permission : CheckedTracePermissionDisposition}
    {facts : List CheckedTraceClauseFact} (hpermission : permission ≠ .violated)
    (hfacts : ∀ fact ∈ facts, fact.disposition ≠ .violated) :
    alternativeDisposition permission facts ≠ .violated := by
  have hany : (facts.any fun fact => decide (fact.disposition = .violated)) = false := by
    apply List.any_eq_false.mpr
    intro fact hfact
    simp [hfacts fact hfact]
  unfold alternativeDisposition
  rw [hany]
  split_ifs with h
  · simp [hpermission] at h
  · simp
  · simp

theorem isAllow_iff {permissions : List (TraceSpecPattern × ℕ)} {clause : TraceSpecClause}
    {kind : SourceClauseKind}
    (h : TraceSpecAnalysisInput.clauseKind permissions clause = .ok kind) :
    clause.isAllow = true ↔ kind.isAllow = true := by
  cases clause with
  | allow pattern span path id =>
    unfold TraceSpecAnalysisInput.clauseKind at h
    dsimp only at h
    split at h
    · cases h
      exact Iff.rfl
    · cases h
  | deny | requireBefore | requireAfter | limit =>
    cases h
    simp [TraceSpecClause.isAllow, SourceClauseKind.isAllow]

theorem isPermission_iff {id : Option ClauseId} {kind : SourceClauseKind}
    {result : Option ClauseAnalysis} {disposition : CheckedTraceClauseDisposition}
    (h : tables.clauseDisposition entry a id kind result = some disposition) :
    disposition = .alternativePermission ↔ kind.isAllow = true := by
  unfold clauseDisposition at h
  split at h
  · rename_i outcome
    split_ifs at h
    cases h
    cases outcome.disposition <;> simp [denialDisposition, SourceClauseKind.isAllow]
  · rename_i outcome
    split_ifs at h
    cases h
    rcases outcome.disposition with _ | _ | uncertainty
    · simp [temporalDisposition, SourceClauseKind.isAllow]
    · simp [temporalDisposition, SourceClauseKind.isAllow]
    · cases uncertainty <;> simp [temporalDisposition, SourceClauseKind.isAllow]
  · unfold permissionDisposition at h
    obtain ⟨outcome, -, h⟩ := Option.bind_eq_some_iff.mp h
    obtain ⟨ids, -, h⟩ := Option.bind_eq_some_iff.mp h
    obtain ⟨origin, -, h⟩ := Option.bind_eq_some_iff.mp h
    obtain ⟨permission, -, h⟩ := Option.bind_eq_some_iff.mp h
    split_ifs at h
    cases h
    exact ⟨fun _ => rfl, fun _ => rfl⟩
  · cases h
    simp [SourceClauseKind.isAllow]
  · cases h

/-- A looked up fact is about the clause at its place. -/
theorem fact_of_checkedClauseFact {input : TraceSpecAnalysisInput}
    (hcollected : input.Collected index entry)
    (hfound : tables.sourceConformances.get index = some entry) {a c : ℕ}
    (hgroup : entry.analyzedAlternatives[a]? = some group) {clause : TraceSpecClause}
    (hclause : group[c]? = some clause) (h : tables.checkedClauseFact index a c = .ok fact) :
    fact.sourceClause = clause.sourceClause ∧
      (fact.disposition = .alternativePermission ↔ clause.isAllow = true) := by
  obtain ⟨kinds, hkinds, permissions, -, hmap⟩ := forall₂_getElem? hcollected.kinds hgroup
  obtain ⟨kind, hkind, hclauseKind⟩ := forall₂_getElem? (mapM_ok hmap) hclause
  have hids : entry.clauseIds[a]? = some (group.map TraceSpecClause.sourceClause) := by
    rw [hcollected.ids, List.getElem?_map, hgroup]
    rfl
  have hid : (group.map TraceSpecClause.sourceClause)[c]? = some clause.sourceClause := by
    rw [List.getElem?_map, hclause]
    rfl
  unfold checkedClauseFact at h
  simp only [Option.bind_eq_bind, hfound, hkinds, hkind, hids, hid, Option.bind_some] at h
  split at h
  · rename_i fact' hfact
    cases h
    obtain ⟨result, -, hfact⟩ := Option.bind_eq_some_iff.mp hfact
    obtain ⟨disposition, hdisposition, hfact⟩ := Option.bind_eq_some_iff.mp hfact
    cases hfact
    exact ⟨rfl, (isPermission_iff hdisposition).trans (isAllow_iff hclauseKind).symm⟩
  · cases h

end TraceSpecTables

/-- An unknown clause, or an allow clause of an alternative whose permission is unknown. -/
def TraceSpecTables.Open (tables : TraceSpecTables) (index a c : ℕ) (clause : TraceSpecClause) :
    Prop :=
  (∃ fact, tables.checkedClauseFact index a c = .ok fact ∧ fact.disposition.truth = 0) ∨
    clause.isAllow = true ∧ ∃ permission, tables.checkedPermissionFact index a = .ok permission ∧
      permission.disposition.truth = 0

theorem isUnknown_iff : isUnknown fact = true ↔ fact.disposition.truth = 0 := by
  obtain ⟨id, disposition⟩ := fact
  cases disposition <;>
    simp [isUnknown, TraceSpecTables.isUnsupported, CheckedTraceClauseDisposition.truth]

theorem unsupported_iff {disposition : CheckedTracePermissionDisposition} :
    disposition = .unsupported ↔ disposition.truth = 0 := by
  cases disposition <;> simp [CheckedTracePermissionDisposition.truth]

/-- The record of an alternative, beside the clauses it is about. -/
structure AlternativeRecord (tables : TraceSpecTables) (index a : ℕ)
    (alternative : CheckedTraceStaticAlternative) (group : List TraceSpecClause) : Prop where
  verified : TraceStaticDispositions.Verified tables.output index alternative a
  length : alternative.clauses.length = group.length
  clause : ∀ (c : ℕ) (clause : TraceSpecClause) (fact : CheckedTraceClauseFact),
    group[c]? = some clause → alternative.clauses[c]? = some fact →
      fact.sourceClause = clause.sourceClause ∧
        (fact.disposition = .alternativePermission ↔ clause.isAllow = true)

variable {tables : TraceSpecTables}

theorem AlternativeRecord.mem_openSites {index a : ℕ}
    (h : AlternativeRecord tables index a alternative group) {c : ℕ} : c ∈ openSites alternative ↔
      ∃ clause, group[c]? = some clause ∧ tables.Open index a c clause := by
  unfold openSites
  rw [List.mem_append]
  constructor
  · rintro (hpermission | hunknown)
    · split_ifs at hpermission with hunsupported
      · obtain ⟨fact, hfact, hpermission⟩ := mem_sites.mp hpermission
        obtain ⟨clause, hclause⟩ := exists_getElem? h.length hfact
        have hisAllow := (h.clause c clause fact hclause hfact).2.mp
          (by simpa [isPermission] using hpermission)
        exact ⟨clause, hclause, .inr ⟨hisAllow, alternative.permission, h.verified.permission,
          unsupported_iff.mp hunsupported⟩⟩
      · cases hpermission
    · obtain ⟨fact, hfact, hunknown⟩ := mem_sites.mp hunknown
      obtain ⟨clause, hclause⟩ := exists_getElem? h.length hfact
      exact ⟨clause, hclause, .inl ⟨fact, h.verified.clauses c fact hfact,
        isUnknown_iff.mp hunknown⟩⟩
  · rintro ⟨clause, hclause, ⟨fact, hchecked, htruth⟩ | ⟨hisAllow, permission, hchecked, htruth⟩⟩
    · right
      obtain ⟨fact', hfact'⟩ := exists_getElem? h.length.symm hclause
      have heq := h.verified.clauses c fact' hfact'
      cases hchecked.symm.trans heq
      exact mem_sites.mpr ⟨fact, hfact', isUnknown_iff.mpr htruth⟩
    · left
      obtain ⟨fact, hfact⟩ := exists_getElem? h.length.symm hclause
      have heq := h.verified.permission
      cases hchecked.symm.trans heq
      rw [if_pos (unsupported_iff.mpr htruth)]
      refine mem_sites.mpr ⟨fact, hfact, ?_⟩
      simpa [isPermission] using (h.clause c clause fact hclause hfact).2.mpr hisAllow

/-- No conclusion about the conformance, and no violation: an alternative is unknown. -/
theorem AlternativeRecord.unsupported {index a : ℕ} {entry : AnalyzedConformance}
    (h : AlternativeRecord tables index a alternative group)
    (hfound : tables.sourceConformances.get index = some entry)
    (hids : entry.clauseIds[a]? = some (group.map TraceSpecClause.sourceClause))
    (hpermission : alternative.permission.disposition ≠ .violated)
    (hfacts : ∀ fact ∈ alternative.clauses, fact.disposition ≠ .violated)
    (hconformance : tables.checkedConformanceDisposition index = .ok .unsupported) :
    tables.checkedAlternativeDisposition index a = .ok .unsupported := by
  obtain ⟨dispositions, hdispositions, hall⟩ :=
    TraceSpecTables.checkedConformanceDisposition_ok hfound hconformance
  obtain ⟨disposition, hmem, hdisposition⟩ := hall a (List.getElem?_eq_some_iff.mp hids).1
  have hproven : disposition ≠ .proven := by
    intro hproven
    have hcontains : dispositions.contains .proven = true := by
      simpa [hproven] using hmem
    rw [TraceSpecTables.conformanceDisposition, if_pos hcontains] at hdispositions
    cases hdispositions
  have hviolated : disposition ≠ .violated := by
    obtain ⟨permission, facts, hchecked, hclauses, rfl⟩ :=
      TraceSpecTables.checkedAlternativeDisposition_ok hfound hids hdisposition
    have heq := h.verified.permission
    cases hchecked.symm.trans heq
    apply TraceSpecTables.not_violated hpermission
    intro fact hfact
    obtain ⟨c, hc⟩ := List.getElem?_of_mem hfact
    obtain ⟨c', hc', hclause⟩ := forall₂_getElem? hclauses.flip hc
    obtain ⟨hlt, hplace⟩ := List.getElem?_eq_some_iff.mp hc'
    rw [List.getElem_range] at hplace
    subst hplace
    rw [List.length_range, List.length_map, ← h.length] at hlt
    have hrecorded := h.verified.clauses c _ (List.getElem?_eq_getElem hlt)
    cases hclause.symm.trans hrecorded
    exact hfacts _ (List.getElem_mem hlt)
  cases disposition with
  | proven => exact absurd rfl hproven
  | violated => exact absurd rfl hviolated
  | unsupported => exact hdisposition

/-- A conformance left to the runtime is unknown in every alternative, and what is listed is what
is open, each clause once. -/
theorem needsConcrete_open {input : TraceSpecAnalysisInput} (htables : input.analyze = .ok tables)
    {index : ℕ}
    (h : classifyTraceResidual tables.output dispositions index item =
      .ok (.needsConcrete requirement)) :
    ∃ entry, tables.sourceConformances.get index = some entry ∧ entry.item = item ∧
      requirement.typeFactIndex = index ∧ requirement.item = item ∧
      (∀ a < entry.analyzedAlternatives.length,
        tables.checkedAlternativeDisposition index a = .ok .unsupported) ∧
      (requirement.clauses.map TraceResidualClause.site).Nodup ∧
      (∀ a c, (a, c) ∈ requirement.clauses.map TraceResidualClause.site ↔
        ∃ group clause, entry.analyzedAlternatives[a]? = some group ∧ group[c]? = some clause ∧
          tables.Open index a c clause) ∧
      ∀ listed ∈ requirement.clauses, ∃ group clause,
        entry.analyzedAlternatives[listed.alternativeIndex]? = some group ∧
          group[listed.clauseIndex]? = some clause ∧
          clause.sourceClause = some listed.clause := by
  obtain ⟨conformance, hverified, hunsupported, lists, hlists, rfl⟩ :=
    classifyTraceResidual_needsConcrete h
  obtain ⟨hitem, hlength, hlengths, hsource, hrecords, hdisposition⟩ :=
    TraceStaticDispositions.verifiedConformance_ok hverified
  obtain ⟨entry, hfound, hentry⟩ := Option.map_eq_some_iff.mp hsource
  have hcollected : input.Collected index entry := by
    obtain ⟨sourceConformances, hcollect, rfl⟩ := TraceSpecAnalysisInput.analyze_ok htables
    exact TraceSpecAnalysisInput.collected_of_collectSourceConformances hcollect hfound
  have hclauseIds : conformance.source.clauseIds = entry.clauseIds := by rw [← hentry]
  have hgroups : conformance.alternatives.length = entry.analyzedAlternatives.length := by
    rw [hlength, hclauseIds, hcollected.ids, List.length_map]
  have hids : ∀ {a : ℕ} {group : List TraceSpecClause},
      entry.analyzedAlternatives[a]? = some group →
        entry.clauseIds[a]? = some (group.map TraceSpecClause.sourceClause) := by
    intro a group hgroup
    rw [hcollected.ids, List.getElem?_map, hgroup]
    rfl
  have hrecord : ∀ (a : ℕ) (alternative : CheckedTraceStaticAlternative)
      (group : List TraceSpecClause), conformance.alternatives[a]? = some alternative →
        entry.analyzedAlternatives[a]? = some group →
          AlternativeRecord tables index a alternative group := by
    intro a alternative group halternative hgroup
    have hverified := hrecords a alternative halternative
    refine ⟨hverified, ?_, ?_⟩
    · rw [hlengths a alternative _ halternative (hclauseIds ▸ hids hgroup), List.length_map]
    · intro c clause fact hclause hfact
      exact TraceSpecTables.fact_of_checkedClauseFact hcollected hfound hgroup hclause
        (hverified.clauses c fact hfact)
  obtain ⟨hviolated, hplaces, hlisted⟩ := places_of_alternativeClauses hlists
  refine ⟨entry, hfound, ?_, rfl, rfl, ?_, ?_, ?_, ?_⟩
  · rw [← hitem, ← hentry]
  · intro a ha
    have hgroup := List.getElem?_eq_getElem ha
    obtain ⟨alternative, halternative⟩ := exists_getElem? hgroups.symm hgroup
    obtain ⟨hpermission, hfacts⟩ := hviolated alternative (List.mem_of_getElem? halternative)
    exact (hrecord a alternative _ halternative hgroup).unsupported hfound (hids hgroup)
      hpermission hfacts (hunsupported ▸ hdisposition)
  · rw [hplaces]
    exact nodup_openPlaces conformance.alternatives
  · intro a c
    rw [hplaces, mem_openPlaces]
    constructor
    · rintro ⟨alternative, halternative, hopen⟩
      obtain ⟨group, hgroup⟩ := exists_getElem? hgroups halternative
      obtain ⟨clause, hclause, hopen⟩ :=
        (hrecord a alternative group halternative hgroup).mem_openSites.mp hopen
      exact ⟨group, clause, hgroup, hclause, hopen⟩
    · rintro ⟨group, clause, hgroup, hclause, hopen⟩
      obtain ⟨alternative, halternative⟩ := exists_getElem? hgroups.symm hgroup
      exact ⟨alternative, halternative, (hrecord a alternative group halternative
        hgroup).mem_openSites.mpr ⟨clause, hclause, hopen⟩⟩
  · intro listed hmem
    obtain ⟨alternative, halternative, -, fact, hfact, hid⟩ := hlisted listed hmem
    obtain ⟨group, hgroup⟩ := exists_getElem? hgroups halternative
    have hrecord := hrecord _ alternative group halternative hgroup
    obtain ⟨clause, hclause⟩ := exists_getElem? hrecord.length hfact
    exact ⟨group, clause, hgroup, hclause, (hrecord.clause _ _ fact hclause hfact).1 ▸ hid⟩

/-- Trace expressions in three-valued logic. Materialization yields the normal form of an
expression, or says that it is too large; without allow clauses a conformance has the value of its
expression; and what is left to the runtime is what is open in alternatives that are unknown. -/
theorem traceConformance_threeValued :
    (∀ (Site : Type) [DecidableEq Site] (m : TraceSpecMaterializer Site) (sites : Set Site)
      (expr : HirSpecExpr) (clause : HirSpecExpr × List ℕ → TraceSpecClause)
      (state : MaterializerState Site), sites.InjOn m.siteId → m.Recorded sites state →
      (∀ leaf ∈ (expr.formula []).leaves, m.Placed sites leaf) →
      (∀ leaf ∈ (expr.formula []).leaves, m.clauseOf leaf = some (clause leaf)) →
      ∃ result, m.alternativesFromExpr expr state = .ok result ∧
        m.Yields ((expr.formula []).dnf.map (List.map clause)) state result) ∧
    (∀ (input : TraceSpecAnalysisInput) (tables : TraceSpecTables) (index : ℕ)
      (entry : AnalyzedConformance) (summary : TraceActionSummary) (expr : HirSpecExpr)
      (clause : HirSpecExpr × List ℕ → TraceSpecClause), input.NormalizesAllow →
      input.Located tables index entry summary → (input.defaultActions entry.item).isSome →
      entry.analyzedAlternatives = (expr.formula []).dnf.map (List.map clause) →
      Formula.size entry.analyzedAlternatives ≤ input.limits.nodes →
      (∀ leaf ∈ (expr.formula []).leaves, (clause leaf).isAllow = false) →
      ∃ disposition, tables.checkedConformanceDisposition index = .ok disposition ∧
        disposition.truth = (expr.formula []).eval fun leaf =>
          (input.dispositionOf summary (clause leaf)).truth) ∧
    ∀ (input : TraceSpecAnalysisInput) (tables : TraceSpecTables)
      (dispositions : TraceStaticDispositions) (index : ℕ) (item : HirItemId)
      (requirement : TraceResidualRequirement), input.analyze = .ok tables →
      classifyTraceResidual tables.output dispositions index item =
        .ok (.needsConcrete requirement) →
      ∃ entry, tables.sourceConformances.get index = some entry ∧ entry.item = item ∧
        requirement.typeFactIndex = index ∧ requirement.item = item ∧
        (∀ a < entry.analyzedAlternatives.length,
          tables.checkedAlternativeDisposition index a = .ok .unsupported) ∧
        (requirement.clauses.map TraceResidualClause.site).Nodup ∧
        (∀ a c, (a, c) ∈ requirement.clauses.map TraceResidualClause.site ↔
          ∃ group clause, entry.analyzedAlternatives[a]? = some group ∧
            group[c]? = some clause ∧ tables.Open index a c clause) ∧
        ∀ listed ∈ requirement.clauses, ∃ group clause,
          entry.analyzedAlternatives[listed.alternativeIndex]? = some group ∧
            group[listed.clauseIndex]? = some clause ∧
            clause.sourceClause = some listed.clause := by
  refine ⟨?_, ?_, ?_⟩
  · intro Site _ m sites expr clause state hsites hrec hplaced hclause
    obtain ⟨result, hrun, -, hyields⟩ :=
      TraceSpecMaterializer.alternativesFromExprAt_yields hsites hclause hplaced hrec
    exact ⟨result, hrun, hyields⟩
  · intro input tables index entry summary expr clause hnormalizes h hdefault halternatives hfits
      hallow
    exact h.checkedConformanceDisposition hnormalizes hdefault halternatives hfits hallow
  · intro input tables dispositions index item requirement htables h
    exact needsConcrete_open htables h

/-! A denial beside a choice of a guard and another denial. -/

def sampleLimits : MetadataLimits := ⟨64, 65536, by decide, by decide⟩

def sampleRef (name : String) : Hir.HirEffectRef :=
  ⟨⟨[name], .unresolved, ⟨0, 0, 4⟩⟩, [], ⟨0, 0, 4⟩⟩

/-- Sending strings or numbers. -/
def sendOf (ty : Types.TypeId) : Effect := .appliedAction ⟨⟨1024, 1024⟩, [.type ty]⟩

def samplePattern (name : String) : TraceSpecPattern :=
  ⟨.closed (if name = "strings" then {sendOf 0} else if name = "numbers" then {sendOf 1} else ∅),
    name, []⟩

def sampleExpr : HirSpecExpr :=
  .and (.deny (sampleRef "strings") ⟨0, 0, 4⟩)
    (.or (.before (.allow (sampleRef "gate") ⟨0, 8, 12⟩) (.allow (sampleRef "numbers") ⟨0, 14, 18⟩)
      ⟨0, 8, 18⟩) (.deny (sampleRef "numbers") ⟨0, 20, 24⟩) ⟨0, 8, 24⟩) ⟨0, 0, 24⟩

def sampleMaterializer : TraceSpecMaterializer (List ℕ) where
  patternFromEffectRef effectRef := .ok (some (samplePattern (effectRef.path.segments.headD "")), [])
  sourceSite _ path := .ok (some path)
  siteId path := path.foldl (fun id operand => 10 * id + operand) 1
  limits := sampleLimits

def sampleClause (leaf : HirSpecExpr × List ℕ) : TraceSpecClause :=
  (sampleMaterializer.clauseOf leaf).getD .limit

def sampleAlternatives : TraceSpecClauseAlternatives :=
  (sampleExpr.formula []).dnf.map (List.map sampleClause)

def sampleSummary (requested : EffectRow) : TraceActionSummary := ⟨false, .empty, requested⟩

def sampleInput (requested : EffectRow) : TraceSpecAnalysisInput where
  limits := sampleLimits
  coverage := sendCoverage
  satisfiesSpec _ _ _ := true
  requireBefore _ _ _ := .unknown
  normalizeAlternative group := some (group.zipIdx.filterMap fun entry =>
    match entry.1 with
    | .allow pattern .. => some (pattern, entry.2)
    | _ => none)
  effectList _ := []
  models :=
    { referencedByItem := Map.insert ∅ 3 [sampleAlternatives]
      referencedFactIndices := Map.insert ∅ 3 [0]
      sourceOwners := Map.insert ∅ 3 (some 1) }
  conformanceFacts := [⟨3, ⟨0, 28, 32⟩⟩]
  recorded := Map.insert ∅ 3 [⟨⟨0, 28, 32⟩, some ⟨5, [], []⟩⟩]
  summary item := if item = 3 then some (sampleSummary requested) else none
  defaultActions item := if item = 3 then some .empty else none
  fingerprint _ := 0

def sampleEntry : AnalyzedConformance where
  item := 3
  sourceOwner := some 1
  sourceInstance := some ⟨5, [], []⟩
  clauseIds := [[some 10, some 110], [some 10, some 111]]
  conformancePosition := 0
  analyzed := 0
  span := ⟨0, 28, 32⟩
  analyzedAlternatives := sampleAlternatives
  clauseKinds := [[.deny, .temporal], [.deny, .deny]]

def sampleTables (requested : EffectRow) : TraceSpecTables :=
  ⟨sampleLimits, (sampleInput requested).summary, Map.insert ∅ 0 sampleEntry,
    (sampleInput requested).clauseOutcomes, (sampleInput requested).permissionOutcomes⟩

/-- Some sending, of what is not known. -/
def anySend : EffectRow := .closed {.action ⟨1024, 1024⟩}

def sampleDispositions : TraceStaticDispositions :=
  Map.insert ∅ 0 (.ok
    { source := sampleEntry.toCheckedTraceSourceConformance
      alternatives := [
        ⟨⟨.proven, anySend, false, false, []⟩,
          [⟨some 10, .unsupported .denialSelector⟩, ⟨some 110, .unsupported .orderedActions⟩]⟩,
        ⟨⟨.proven, anySend, false, false, []⟩,
          [⟨some 10, .unsupported .denialSelector⟩, ⟨some 111, .unsupported .denialSelector⟩]⟩]
      disposition := .unsupported })

theorem analyze_sampleInput (requested : EffectRow) :
    (sampleInput requested).analyze = .ok (sampleTables requested) := by
  rfl

theorem classify_sampleTables :
    classifyTraceResidual (sampleTables anySend).output sampleDispositions 0 3 =
      .ok (.needsConcrete ⟨0, 3, [⟨0, 0, 10, .denialSelector⟩, ⟨0, 1, 110, .orderedActions⟩,
        ⟨1, 0, 10, .denialSelector⟩, ⟨1, 1, 111, .denialSelector⟩]⟩) := by
  rfl

theorem normalizesAllow_sampleInput (requested : EffectRow) :
    (sampleInput requested).NormalizesAllow := by
  intro group permissions h permission hpermission
  cases h
  obtain ⟨⟨clause, c⟩, hmem, hclause⟩ := List.mem_filterMap.mp hpermission
  have hplace : group[c]? = some clause := List.mem_zipIdx_iff_getElem?.mp hmem
  cases clause with
  | allow pattern span path id =>
    cases hclause
    exact ⟨_, hplace, rfl⟩
  | deny | requireBefore | requireAfter | limit => cases hclause

def samplePaths : Set (List ℕ) := {[0], [1, 0], [1, 1]}

theorem injOn_siteId : samplePaths.InjOn sampleMaterializer.siteId := by
  rintro a (rfl | rfl | rfl) b (rfl | rfl | rfl) h
  all_goals first | rfl | exact absurd h (by decide)

theorem placed_sampleExpr (leaf : HirSpecExpr × List ℕ)
    (h : leaf ∈ (sampleExpr.formula []).leaves) : sampleMaterializer.Placed samplePaths leaf := by
  have hpaths : ∀ leaf ∈ (sampleExpr.formula []).leaves,
      leaf.2.length ≤ 2 ∧ (leaf.2 = [0] ∨ leaf.2 = [1, 0] ∨ leaf.2 = [1, 1]) := by decide
  obtain ⟨hdepth, hpath⟩ := hpaths leaf h
  exact ⟨hdepth.trans (by decide), some leaf.2, rfl, fun site hsite => Option.some.inj hsite ▸ hpath⟩

theorem clauseOf_sampleExpr (leaf : HirSpecExpr × List ℕ)
    (h : leaf ∈ (sampleExpr.formula []).leaves) :
    sampleMaterializer.clauseOf leaf = some (sampleClause leaf) := by
  have hsome : ∀ leaf ∈ (sampleExpr.formula []).leaves,
      (sampleMaterializer.clauseOf leaf).isSome = true := by decide
  obtain ⟨clause, hclause⟩ := Option.isSome_iff_exists.mp (hsome leaf h)
  rw [sampleClause, hclause, Option.getD_some]

/-- Strings are denied, and numbers either guarded or denied. Where numbers are sent one alternative
is open and the other is violated; where it is not known what is sent, every clause is left to the
runtime. -/
theorem traceConformance_threeValued_sample :
    (∃ result, sampleMaterializer.alternativesFromExpr sampleExpr ⟨∅, []⟩ = .ok result ∧
      sampleMaterializer.Yields sampleAlternatives ⟨∅, []⟩ result) ∧
    (∃ disposition,
      (sampleTables (.closed {sendOf 1})).checkedConformanceDisposition 0 = .ok disposition ∧
        disposition.truth = 1 ⊓ (0 ⊔ -1)) ∧
    ∃ entry, (sampleTables anySend).sourceConformances.get 0 = some entry ∧
      (∀ a < entry.analyzedAlternatives.length,
        (sampleTables anySend).checkedAlternativeDisposition 0 a = .ok .unsupported) ∧
      ∀ a c, (a, c) ∈ [(0, 0), (0, 1), (1, 0), (1, 1)] ↔
        ∃ group clause, entry.analyzedAlternatives[a]? = some group ∧
          group[c]? = some clause ∧ (sampleTables anySend).Open 0 a c clause := by
  obtain ⟨hmaterialized, hvalue, hlisted⟩ := traceConformance_threeValued
  refine ⟨?_, ?_, ?_⟩
  · refine hmaterialized (List ℕ) sampleMaterializer samplePaths sampleExpr sampleClause ⟨∅, []⟩
      injOn_siteId ?_ placed_sampleExpr clauseOf_sampleExpr
    intro id site hget
    cases hget
  · have h := hvalue (sampleInput (.closed {sendOf 1})) _ 0 sampleEntry _ sampleExpr sampleClause
      (normalizesAllow_sampleInput _) ⟨analyze_sampleInput _, rfl, rfl⟩ rfl rfl (by decide)
      (by decide)
    obtain ⟨disposition, hrun, hvalue⟩ := h
    exact ⟨disposition, hrun, hvalue.trans (by decide)⟩
  · obtain ⟨entry, hentry, -, -, -, hunsupported, -, hopen, -⟩ := hlisted (sampleInput anySend)
      (sampleTables anySend) sampleDispositions 0 3 _ (analyze_sampleInput _) classify_sampleTables
    exact ⟨entry, hentry, hunsupported, hopen⟩

/-- A disjunction of sixty-six clauses that resolve, each in the place of the last operand: it is
small enough, but nested too deeply. -/
theorem not_materialized_deep :
    let expr := TraceSpecMaterializer.orChain (.deny (sampleRef "send") ⟨0, 0, 4⟩) 65
    (∀ leaf ∈ (expr.formula []).leaves, (sampleMaterializer.clauseOf leaf).isSome) ∧
      Formula.size (expr.formula []).dnf ≤ sampleMaterializer.limits.nodes ∧
      sampleMaterializer.alternativesFromExpr expr ⟨∅, []⟩ =
        .ok (none, ⟨∅, [⟨⟨0, 0, 4⟩, depthMessage⟩]⟩) := by
  intro expr
  have hleaf : ∀ path, (HirSpecExpr.deny (sampleRef "send") ⟨0, 0, 4⟩).formula path =
      .leaf (.deny (sampleRef "send") ⟨0, 0, 4⟩, path) := fun _ => rfl
  refine ⟨?_, ?_, ?_⟩
  · rintro ⟨operand, path⟩ hmem
    cases TraceSpecMaterializer.mem_leaves_orChain hleaf hmem
    rfl
  · rw [TraceSpecMaterializer.size_orChain hleaf]
    decide
  · exact TraceSpecMaterializer.alternativesFromExprAt_orChain (by decide) ⟨∅, []⟩

end EtasFrontend.Residual
