import EtasFrontend.Residual.Dispositions
import EtasFrontend.Residual.MaterializeExact
import Mathlib.Data.Sign.Defs

/-! Dispositions as truth values of three-valued logic: a conformance has the value of its
expression. -/
namespace EtasFrontend.Residual
open Lib Effects

/-! Truth values. -/

def CheckedTraceStaticDisposition.truth : CheckedTraceStaticDisposition → SignType
  | .violated => -1
  | .unsupported => 0
  | .proven => 1

def CheckedTracePermissionDisposition.truth : CheckedTracePermissionDisposition → SignType
  | .violated => -1
  | .unsupported => 0
  | .proven => 1

/-- The clauses of a permission are decided together, so each of them is left open. -/
def CheckedTraceClauseDisposition.truth : CheckedTraceClauseDisposition → SignType
  | .violated => -1
  | .unsupported _ => 0
  | .proven | .alternativePermission => 1

namespace TraceSpecTables

theorem truth_alternativeDisposition (permission : CheckedTracePermissionDisposition)
    (facts : List CheckedTraceClauseFact) :
    (alternativeDisposition permission facts).truth =
      permission.truth ⊓ Formula.meet (fun fact => fact.disposition.truth) facts := by
  induction facts with
  | nil => cases permission <;> decide
  | cons fact facts ih =>
    rw [Formula.meet_cons, inf_left_comm, ← ih]
    obtain ⟨id, disposition⟩ := fact
    unfold alternativeDisposition
    rw [List.any_cons, List.any_cons]
    generalize (facts.any fun fact => decide (fact.disposition = .violated)) = anyViolated
    generalize (facts.any fun fact => isUnsupported fact.disposition) = anyUnsupported
    cases permission <;> cases disposition <;> cases anyViolated <;> cases anyUnsupported <;> rfl

theorem truth_conformanceDisposition (dispositions : List CheckedTraceStaticDisposition) :
    (conformanceDisposition dispositions).truth =
      dispositions.foldr (fun disposition value => disposition.truth ⊔ value) ⊥ := by
  induction dispositions with
  | nil => rfl
  | cons disposition dispositions ih =>
    rw [List.foldr_cons, ← ih]
    unfold conformanceDisposition
    rw [List.contains_cons, List.contains_cons]
    generalize dispositions.contains .proven = anyProven
    generalize dispositions.contains .unsupported = anyUnsupported
    cases disposition <;> cases anyProven <;> cases anyUnsupported <;> rfl

end TraceSpecTables

/-! The index of source conformances. -/

variable {group : List TraceSpecClause}

namespace TraceSpecAnalysisInput
variable {input : TraceSpecAnalysisInput}

/-- The kinds of the clauses of a group. -/
def GroupKinds (input : TraceSpecAnalysisInput) (group : List TraceSpecClause)
    (kinds : List SourceClauseKind) : Prop :=
  ∃ permissions, input.normalizeAlternative group = some permissions ∧
    group.mapM (clauseKind permissions) = .ok kinds

/-- What an entry of the index says. -/
structure Collected (input : TraceSpecAnalysisInput) (index : ℕ) (entry : AnalyzedConformance) :
    Prop where
  index : ∃ indices, input.models.referencedFactIndices.get entry.item = some indices ∧
    indices[entry.conformancePosition]? = some index
  alternatives : ∃ conformances, input.models.referencedByItem.get entry.item = some conformances ∧
    conformances[entry.conformancePosition]? = some entry.analyzedAlternatives
  ids : entry.clauseIds = entry.analyzedAlternatives.map (List.map TraceSpecClause.sourceClause)
  kinds : List.Forall₂ input.GroupKinds entry.analyzedAlternatives entry.clauseKinds

theorem groupKinds_of_collectGroup {remaining remaining' : ℕ} {kinds : List SourceClauseKind}
    (h : input.collectGroup remaining group = .ok (remaining', kinds)) :
    input.GroupKinds group kinds := by
  unfold collectGroup at h
  split at h
  · cases h
  · obtain ⟨remaining₁, -, h⟩ := bind_eq_ok.mp h
    split at h
    · cases h
    · rename_i permissions hpermissions
      obtain ⟨remaining₂, -, h⟩ := bind_eq_ok.mp h
      obtain ⟨kinds', hkinds, h⟩ := bind_eq_ok.mp h
      cases h
      exact ⟨permissions, hpermissions, hkinds⟩

theorem groupKinds_of_collectGroups {remaining remaining' : ℕ}
    {groups : TraceSpecClauseAlternatives} {kinds : List (List SourceClauseKind)}
    (h : input.collectGroups remaining groups = .ok (remaining', kinds)) :
    List.Forall₂ input.GroupKinds groups kinds := by
  induction groups generalizing remaining kinds with
  | nil =>
    cases h
    exact .nil
  | cons group groups ih =>
    obtain ⟨⟨remaining₁, groupKinds⟩, hgroup, h⟩ := bind_eq_ok.mp h
    obtain ⟨⟨remaining₂, rest⟩, hrest, h⟩ := bind_eq_ok.mp h
    cases h
    exact .cons (groupKinds_of_collectGroup hgroup) (ih hrest)

variable {recorded : Map (HirItemId × Hir.Span) TraceSpecConformanceModelFact}

variable {state state' : ℕ × Map ℕ AnalyzedConformance}

theorem collectConformance_ok {item : HirItemId} {entry : (ℕ × TraceSpecClauseAlternatives) × ℕ}
    (h : input.collectConformance recorded item state entry = .ok state') :
    ∃ new : AnalyzedConformance, state'.2 = state.2.insert entry.1.1 new ∧ new.item = item ∧
      new.conformancePosition = entry.2 ∧ new.analyzedAlternatives = entry.1.2 ∧
      new.clauseIds = entry.1.2.map (List.map TraceSpecClause.sourceClause) ∧
      List.Forall₂ input.GroupKinds entry.1.2 new.clauseKinds := by
  unfold collectConformance at h
  obtain ⟨remaining₁, -, h⟩ := bind_eq_ok.mp h
  split at h
  · cases h
  · rename_i fact hfact
    dsimp only at h
    by_cases hitem : fact.item ≠ item
    · rw [if_pos hitem] at h
      cases h
    · rw [if_neg hitem] at h
      split at h
      · cases h
      · cases h
      · obtain ⟨remaining₂, -, h⟩ := bind_eq_ok.mp h
        obtain ⟨remaining₃, -, h⟩ := bind_eq_ok.mp h
        obtain ⟨⟨remaining₄, kinds⟩, hkinds, h⟩ := bind_eq_ok.mp h
        dsimp only at h
        by_cases hdup : (state.2.get entry.1.1).isSome = true
        · rw [if_pos hdup] at h
          cases h
        · rw [if_neg hdup] at h
          cases h
          exact ⟨_, rfl, rfl, rfl, rfl, rfl, groupKinds_of_collectGroups hkinds⟩

/-- Every entry is about the conformance at its position. -/
def Indexed (input : TraceSpecAnalysisInput) (state : ℕ × Map ℕ AnalyzedConformance) : Prop :=
  ∀ index entry, state.2.get index = some entry → input.Collected index entry

theorem indexed_collectItem {item : HirItemId}
    (hmem : (input.models.referencedFactIndices.get item).isSome) (hs : input.Indexed state)
    (h : input.collectItem recorded state item = .ok state') : input.Indexed state' := by
  obtain ⟨indices, hindices⟩ := Option.isSome_iff_exists.mp hmem
  unfold collectItem at h
  rw [hindices, Option.getD_some] at h
  dsimp only at h
  split at h
  · cases h
  · rename_i alternatives halternatives
    split at h
    · cases h
    · refine foldlM_ok_keeps_mem ?_ hs h
      intro entry hentry s s' hs hstep index new hget
      obtain ⟨new', hinsert, hitem, hposition, hgroups, hids, hkinds⟩ :=
        collectConformance_ok hstep
      obtain ⟨hindex, hgroup⟩ := List.getElem?_zip_eq_some.mp
        (List.mem_zipIdx_iff_getElem?.mp hentry)
      rw [hinsert, Map.get_insert] at hget
      split_ifs at hget with heq
      · cases hget
        subst hitem
        exact ⟨⟨indices, hindices, hposition ▸ heq ▸ hindex⟩,
          ⟨alternatives, halternatives, hposition ▸ hgroups ▸ hgroup⟩,
          hgroups ▸ hids, hgroups ▸ hkinds⟩
      · exact hs index new hget

theorem collected_of_collectSourceConformances {result : Map ℕ AnalyzedConformance}
    (h : input.collectSourceConformances = .ok result) {index : ℕ} {entry : AnalyzedConformance}
    (hget : result.get index = some entry) : input.Collected index entry := by
  unfold collectSourceConformances at h
  obtain ⟨⟨remaining, recorded⟩, -, h⟩ := bind_eq_ok.mp h
  obtain ⟨⟨remaining', result'⟩, hfold, h⟩ := bind_eq_ok.mp h
  cases h
  have hempty : input.Indexed (remaining, ∅) := by
    intro index entry hget
    rw [Map.get_empty] at hget
    cases hget
  have hindexed : input.Indexed (remaining', result) := by
    refine foldlM_ok_keeps_mem ?_ hempty hfold
    intro item hitem s s' hs hstep
    refine indexed_collectItem ?_ hs hstep
    obtain ⟨⟨item', indices⟩, hmem, rfl⟩ := List.mem_map.mp (List.mem_insertionSort _ |>.mp hitem)
    rw [Map.mem_toList.mp hmem]
    rfl
  exact hindexed index entry hget

end TraceSpecAnalysisInput

def TraceSpecClause.isAllow : TraceSpecClause → Bool
  | .allow .. => true
  | _ => false

namespace TraceSpecAnalysisInput

/-- What is known of a clause on its own. -/
def dispositionOf (input : TraceSpecAnalysisInput) (summary : TraceActionSummary) :
    TraceSpecClause → CheckedTraceClauseDisposition
  | .allow .. => .alternativePermission
  | .deny pattern .. => TraceSpecTables.denialDisposition
    (analyzeDenial input.coverage input.satisfiesSpec pattern summary.actionTrace
      summary.requestedActions)
  | .requireBefore guard target .. => TraceSpecTables.temporalDisposition
    (.fromMonitor (input.requireBefore summary.actionTrace guard target)
      summary.requestedActions.openVar.isSome)
  | .requireAfter target obligation .. => TraceSpecTables.temporalDisposition
    (.fromMonitor (input.requireBefore summary.actionTrace target obligation)
      summary.requestedActions.openVar.isSome)
  | .limit => .unsupported .unsupportedLimit

def factOf (input : TraceSpecAnalysisInput) (summary : TraceActionSummary)
    (clause : TraceSpecClause) : CheckedTraceClauseFact :=
  ⟨clause.sourceClause, input.dispositionOf summary clause⟩

/-- An entry of the tables of an analysis, for an item with a complete summary. -/
structure Located (input : TraceSpecAnalysisInput) (tables : TraceSpecTables) (index : ℕ)
    (entry : AnalyzedConformance) (summary : TraceActionSummary) : Prop where
  analyzed : input.analyze = .ok tables
  found : tables.sourceConformances.get index = some entry
  complete : input.completeSummary entry.item = some summary

variable {input : TraceSpecAnalysisInput} {tables : TraceSpecTables} {index : ℕ}
  {entry : AnalyzedConformance} {summary : TraceActionSummary}

theorem analyze_ok (h : input.analyze = .ok tables) :
    ∃ sourceConformances, input.collectSourceConformances = .ok sourceConformances ∧
      tables = ⟨input.limits, input.summary, sourceConformances, input.clauseOutcomes,
        input.permissionOutcomes⟩ := by
  obtain ⟨sourceConformances, hcollect, h⟩ := bind_eq_ok.mp h
  cases h
  exact ⟨sourceConformances, hcollect, rfl⟩

theorem Located.collected (h : input.Located tables index entry summary) :
    input.Collected index entry := by
  obtain ⟨sourceConformances, hcollect, rfl⟩ := analyze_ok h.analyzed
  exact collected_of_collectSourceConformances hcollect h.found

theorem Located.ids (h : input.Located tables index entry summary) {a : ℕ}
    (hgroup : entry.analyzedAlternatives[a]? = some group) :
    entry.clauseIds[a]? = some (group.map TraceSpecClause.sourceClause) := by
  rw [h.collected.ids, List.getElem?_map, hgroup]
  rfl

variable {clause : TraceSpecClause}

theorem Located.clauseOutcome (h : input.Located tables index entry summary) {a c : ℕ}
    (hgroup : entry.analyzedAlternatives[a]? = some group) (hclause : group[c]? = some clause) :
    tables.clauseOutcome entry.item entry.conformancePosition a c =
      some (input.analyzeClause summary clause) := by
  obtain ⟨sourceConformances, hcollect, rfl⟩ := analyze_ok h.analyzed
  obtain ⟨conformances, hitem, hposition⟩ := h.collected.alternatives
  simp [TraceSpecTables.clauseOutcome, clauseOutcomes, hitem, h.complete, hposition, hgroup,
    hclause]

theorem clauseDisposition_eq {permissions : List (TraceSpecPattern × ℕ)} {kind : SourceClauseKind}
    (hkind : clauseKind permissions clause = .ok kind) (hallow : clause.isAllow = false) (a : ℕ) :
    tables.clauseDisposition entry a clause.sourceClause kind
      (input.analyzeClause summary clause) = some (input.dispositionOf summary clause) := by
  cases clause with
  | allow pattern span path id => cases hallow
  | deny pattern span path id =>
    cases hkind
    exact if_pos rfl
  | requireBefore guard target span path id =>
    cases hkind
    exact if_pos rfl
  | requireAfter target obligation span path id =>
    cases hkind
    exact if_pos rfl
  | limit =>
    cases hkind
    rfl

theorem Located.checkedClauseFact (h : input.Located tables index entry summary) {a c : ℕ}
    (hgroup : entry.analyzedAlternatives[a]? = some group) (hclause : group[c]? = some clause)
    (hallow : clause.isAllow = false) :
    tables.checkedClauseFact index a c = .ok (input.factOf summary clause) := by
  obtain ⟨kinds, hkinds, permissions, -, hmap⟩ :=
    forall₂_getElem? h.collected.kinds hgroup
  obtain ⟨kind, hkind, hclauseKind⟩ := forall₂_getElem? (mapM_ok hmap) hclause
  have hid : (group.map TraceSpecClause.sourceClause)[c]? = some clause.sourceClause := by
    rw [List.getElem?_map, hclause]
    rfl
  have hdisposition : tables.clauseDisposition entry a clause.sourceClause kind
      (input.analyzeClause summary clause) = some (input.dispositionOf summary clause) :=
    clauseDisposition_eq hclauseKind hallow a
  simp [TraceSpecTables.checkedClauseFact, h.found, hkinds, hkind, h.ids hgroup, hid,
    h.clauseOutcome hgroup hclause, hdisposition, factOf, -List.getElem?_map]

/-! Expressions without allow clauses. -/

/-- The permissions of a normalized alternative come from its allow clauses. -/
def NormalizesAllow (input : TraceSpecAnalysisInput) : Prop :=
  ∀ group permissions, input.normalizeAlternative group = some permissions →
    ∀ permission ∈ permissions, ∃ clause, group[permission.2]? = some clause ∧
      clause.isAllow = true

section Group
variable (h : input.Located tables index entry summary) (hnormalizes : input.NormalizesAllow)
  (hdefault : (input.defaultActions entry.item).isSome) {a : ℕ}
  (hgroup : entry.analyzedAlternatives[a]? = some group)
  (hallow : ∀ clause ∈ group, clause.isAllow = false)
include h hnormalizes hdefault hgroup hallow

theorem Located.checkedPermissionFact :
    ∃ permission, tables.checkedPermissionFact index a = .ok permission ∧
      permission.disposition = .proven := by
  obtain ⟨defaultActions, hdefault⟩ := Option.isSome_iff_exists.mp hdefault
  obtain ⟨kinds, -, permissions, hpermissions, -⟩ := forall₂_getElem? h.collected.kinds hgroup
  have hnone : permissions = [] := by
    apply List.eq_nil_iff_forall_not_mem.mpr
    intro permission hmem
    obtain ⟨clause, hclause, hisAllow⟩ := hnormalizes group permissions hpermissions permission hmem
    rw [hallow clause (List.mem_of_getElem? hclause)] at hisAllow
    cases hisAllow
  rw [hnone] at hpermissions
  have hids := h.ids hgroup
  have hfound := h.found
  obtain ⟨sourceConformances, hcollect, rfl⟩ := analyze_ok h.analyzed
  obtain ⟨conformances, hitem, hposition⟩ := h.collected.alternatives
  let requested := input.coverage.subtractHandled summary.requestedActions defaultActions
  let outcome : PermissionOutcome :=
    ⟨[], requested, summary.actionTrace.hasParameterCalls, [], false⟩
  have hanalyze : input.analyzePermissions group [] requested
      summary.actionTrace.hasParameterCalls = some outcome := by
    simp [analyzePermissions, uncoveredActions, outcome]
  refine ⟨outcome.fact, ?_, rfl⟩
  simp [TraceSpecTables.checkedPermissionFact, TraceSpecTables.permissionOutcome,
    permissionOutcomes, hfound, hids, hitem, h.complete, hdefault, hposition, hgroup, hpermissions,
    hanalyze, requested]

theorem Located.checkedAlternativeDisposition (hne : group ≠ [])
    (hfits : group.length ≤ input.limits.nodes) :
    tables.checkedAlternativeDisposition index a =
      .ok (TraceSpecTables.alternativeDisposition .proven (group.map (input.factOf summary))) := by
  obtain ⟨permission, hpermission, hproven⟩ :=
    h.checkedPermissionFact hnormalizes hdefault hgroup hallow
  have hfacts : (List.range group.length).mapM (tables.checkedClauseFact index a) =
      .ok (group.map (input.factOf summary)) := by
    apply mapM_range_eq_ok
    intro c clause hclause
    exact h.checkedClauseFact hgroup hclause (hallow clause (List.mem_of_getElem? hclause))
  have hlimits : tables.limits = input.limits := by
    obtain ⟨sourceConformances, -, rfl⟩ := analyze_ok h.analyzed
    rfl
  unfold TraceSpecTables.checkedAlternativeDisposition
  rw [h.found]
  dsimp only
  rw [h.ids hgroup]
  dsimp only
  rw [if_neg (by simpa using hne), List.length_map, hlimits, if_neg (by omega), hpermission,
    hfacts]
  change Except.ok _ = _
  rw [hproven]

end Group

theorem alternativeDispositions_eq {value : List TraceSpecClause → CheckedTraceStaticDisposition}
    {groups : TraceSpecClauseAlternatives} {remaining start : ℕ}
    (hvalue : ∀ i group, groups[i]? = some group →
      tables.checkedAlternativeDisposition index (start + i) = .ok (value group))
    (hfits : Formula.size groups ≤ remaining) (hlt : remaining < 2 ^ 64) :
    tables.alternativeDispositions index remaining start
      (groups.map (List.map TraceSpecClause.sourceClause)) = .ok (groups.map value) := by
  induction groups generalizing remaining start with
  | nil => rfl
  | cons group groups ih =>
    have hsize : Formula.size (group :: groups) = group.length + 1 + Formula.size groups := by
      unfold Formula.size
      rw [Formula.clauseCount_cons, List.length_cons]
      omega
    have hcost : min (group.length + 1) (2 ^ 64 - 1) = group.length + 1 := by omega
    have hhead := hvalue 0 group rfl
    have hrest : tables.alternativeDispositions index (remaining - (group.length + 1)) (start + 1)
        (groups.map (List.map TraceSpecClause.sourceClause)) = .ok (groups.map value) := by
      apply ih
      · intro i other hother
        have hi := hvalue (i + 1) other hother
        rw [Nat.add_assoc, Nat.add_comm 1 i]
        exact hi
      · omega
      · omega
    rw [List.map_cons, TraceSpecTables.alternativeDispositions, List.length_map, hcost,
      if_neg (by omega), hrest]
    rw [Nat.add_zero] at hhead
    rw [hhead]
    rfl

theorem join_truth (input : TraceSpecAnalysisInput) (summary : TraceActionSummary)
    (groups : TraceSpecClauseAlternatives) :
    (TraceSpecTables.conformanceDisposition (groups.map fun group =>
      TraceSpecTables.alternativeDisposition .proven (group.map (input.factOf summary)))).truth =
      Formula.join (fun clause => (input.dispositionOf summary clause).truth) groups := by
  rw [TraceSpecTables.truth_conformanceDisposition, List.foldr_map]
  unfold Formula.join
  congr 1
  funext group value
  have hgroup : Formula.meet (fun fact : CheckedTraceClauseFact => fact.disposition.truth)
      (group.map (input.factOf summary)) =
      Formula.meet (fun clause => (input.dispositionOf summary clause).truth) group := by
    unfold Formula.meet
    rw [List.foldr_map]
    rfl
  have hproven : CheckedTracePermissionDisposition.proven.truth = ⊤ := rfl
  rw [TraceSpecTables.truth_alternativeDisposition, hgroup, hproven, top_inf_eq]

/-- A conformance whose alternatives are the normal form of an expression without allow clauses has
the value of the expression in three-valued logic. -/
theorem Located.checkedConformanceDisposition (h : input.Located tables index entry summary)
    (hnormalizes : input.NormalizesAllow) (hdefault : (input.defaultActions entry.item).isSome)
    {expr : HirSpecExpr} {clause : HirSpecExpr × List ℕ → TraceSpecClause}
    (halternatives : entry.analyzedAlternatives = (expr.formula []).dnf.map (List.map clause))
    (hfits : Formula.size entry.analyzedAlternatives ≤ input.limits.nodes)
    (hallow : ∀ leaf ∈ (expr.formula []).leaves, (clause leaf).isAllow = false) :
    ∃ disposition, tables.checkedConformanceDisposition index = .ok disposition ∧
      disposition.truth = (expr.formula []).eval fun leaf =>
        (input.dispositionOf summary (clause leaf)).truth := by
  have hgroups : ∀ group ∈ entry.analyzedAlternatives,
      group ≠ [] ∧ ∀ c ∈ group, c.isAllow = false := by
    intro group hgroup
    rw [halternatives] at hgroup
    obtain ⟨leaves, hleaves, rfl⟩ := List.mem_map.mp hgroup
    obtain ⟨hne, hmem⟩ := Formula.mem_dnf hleaves
    constructor
    · simpa using hne
    · intro c hc
      obtain ⟨leaf, hleaf, rfl⟩ := List.mem_map.mp hc
      exact hallow leaf (hmem leaf hleaf)
  have hne : entry.clauseIds ≠ [] := by
    rw [h.collected.ids, halternatives]
    simpa using dnf_map_ne_nil clause (expr.formula [])
  have hlimits : tables.limits = input.limits := by
    obtain ⟨sourceConformances, -, rfl⟩ := analyze_ok h.analyzed
    rfl
  have hdispositions : tables.alternativeDispositions index input.limits.nodes 0 entry.clauseIds =
      .ok (entry.analyzedAlternatives.map fun group =>
        TraceSpecTables.alternativeDisposition .proven (group.map (input.factOf summary))) := by
    rw [h.collected.ids]
    refine alternativeDispositions_eq ?_ hfits input.limits.nodes_lt
    intro i group hgroup
    have hmem := List.mem_of_getElem? hgroup
    have hle := Formula.length_le_clauseCount hmem
    rw [Nat.zero_add]
    apply h.checkedAlternativeDisposition hnormalizes hdefault hgroup (hgroups group hmem).2
      (hgroups group hmem).1
    unfold Formula.size at hfits
    omega
  have hresult : tables.checkedConformanceDisposition index =
      .ok (TraceSpecTables.conformanceDisposition (entry.analyzedAlternatives.map fun group =>
        TraceSpecTables.alternativeDisposition .proven (group.map (input.factOf summary)))) := by
    unfold TraceSpecTables.checkedConformanceDisposition
    rw [h.found]
    dsimp only
    rw [if_neg hne, hlimits, hdispositions]
    rfl
  have htruth := join_truth input summary entry.analyzedAlternatives
  rw [halternatives, Formula.join_map, Formula.join_dnf, ← halternatives] at htruth
  exact ⟨_, hresult, htruth⟩

end TraceSpecAnalysisInput
end EtasFrontend.Residual
