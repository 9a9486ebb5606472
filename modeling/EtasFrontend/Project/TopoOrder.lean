import EtasFrontend.Project.ImportGraph
import Mathlib.Data.List.Destutter

/-! The order in which modules are declared: Kahn's algorithm over the import graph. -/
namespace EtasFrontend.Project
open Lib Relation

structure ModuleTopoOrder where
  modules : List ModuleId
  cyclicModules : List ModuleId
  deriving DecidableEq

def sortById (l : List ModuleId) : List ModuleId := l.insertionSort (· ≤ ·)

/-- One edge counts towards the module it leaves. Self imports are skipped. -/
def countEdge (s : Map ModuleId ℕ × Map ModuleId (List ModuleId)) (edge : ImportEdge) :
    Map ModuleId ℕ × Map ModuleId (List ModuleId) :=
  match edge.resolved with
  | none => s
  | some dependency =>
    if dependency = edge.fromModule then s
    else (s.1.insert edge.fromModule ((s.1.get edge.fromModule).getD 0 + 1),
      s.2.insert dependency ((s.2.get dependency).getD [] ++ [edge.fromModule]))

structure TopoState where
  indegree : Map ModuleId ℕ
  ready : List ModuleId
  ordered : List ModuleId

/-- A failed lookup and a count below zero panic in the source. -/
def release (s : TopoState) (dependent : ModuleId) : Option TopoState :=
  match s.indegree.get dependent with
  | none => none
  | some 0 => none
  | some (count + 1) =>
    let indegree := s.indegree.insert dependent count
    if count = 0 then
      some { s with indegree := indegree, ready := sortById (s.ready ++ [dependent]) }
    else some { s with indegree := indegree }

/-- The loop over the modules that are ready. -/
def drain (dependents : Map ModuleId (List ModuleId)) : ℕ → TopoState → Option TopoState
  | 0, _ => none
  | fuel + 1, s =>
    match s.ready with
    | [] => some s
    | m :: ready =>
      (((dependents.get m).getD []).foldlM release
        { s with ready := ready, ordered := s.ordered ++ [m] }).bind (drain dependents fuel)

def initialIndegree (index : ModuleIndex) : Map ModuleId ℕ :=
  Map.ofList ((List.range index.modules.length).map fun m => (m, 0))

def modulesWith (p : ℕ → Bool) (indegree : Map ModuleId ℕ) : List ModuleId :=
  sortById ((indegree.toList.filter fun e => p e.2).map Prod.fst)

def topoInput (index : ModuleIndex) (graph : ImportGraph) :
    Map ModuleId ℕ × Map ModuleId (List ModuleId) :=
  let counted := graph.edges.foldl countEdge (initialIndegree index, ∅)
  (counted.1, counted.2.mapValues fun modules => (sortById modules).destutter (· ≠ ·))

/-- `ComputeModuleTopoOrderPass::run`. -/
def computeModuleTopoOrder (index : ModuleIndex) (graph : ImportGraph) : Option ModuleTopoOrder :=
  let (indegree, dependents) := topoInput index graph
  let start : TopoState := ⟨indegree, modulesWith (· == 0) indegree, []⟩
  -- every turn orders one more of the modules that have an entry
  (drain dependents (index.modules.length + graph.edges.length + 1) start).map fun s =>
    let cyclic := modulesWith (0 < ·) s.indegree
    ⟨s.ordered ++ cyclic, cyclic⟩

/-- `m` imports the other module `d`. -/
def ImportGraph.Imports (graph : ImportGraph) (m d : ModuleId) : Prop :=
  d ≠ m ∧ ∃ e ∈ graph.edges, e.fromModule = m ∧ e.resolved = some d

/-- The two ends of an edge between distinct modules. -/
def ImportEdge.pair (e : ImportEdge) : Option (ModuleId × ModuleId) :=
  e.resolved.bind fun d => if d = e.fromModule then none else some (e.fromModule, d)

def ImportGraph.pairs (graph : ImportGraph) : List (ModuleId × ModuleId) :=
  graph.edges.filterMap ImportEdge.pair

variable {m d : ModuleId}

theorem pair_eq_some {e : ImportEdge} :
    e.pair = some (m, d) ↔ d ≠ m ∧ e.fromModule = m ∧ e.resolved = some d := by
  simp only [ImportEdge.pair, Option.bind_eq_some_iff]
  constructor
  · rintro ⟨d', hd', heq⟩
    split_ifs at heq with h
    cases heq
    exact ⟨h, rfl, hd'⟩
  · rintro ⟨hne, rfl, hd⟩
    exact ⟨d, hd, by simp [hne]⟩

theorem mem_pairs {graph : ImportGraph} : (m, d) ∈ graph.pairs ↔ graph.Imports m d := by
  simp only [ImportGraph.pairs, ImportGraph.Imports, List.mem_filterMap, pair_eq_some]
  constructor
  · rintro ⟨e, he, hne, hm, hd⟩
    exact ⟨hne, e, he, hm, hd⟩
  · rintro ⟨hne, e, he, hm, hd⟩
    exact ⟨e, he, hne, hm, hd⟩

section Counting
variable (graph : ImportGraph)

/-- How many edges leave `m` for another module. -/
def ImportGraph.weight (m : ModuleId) : ℕ := graph.pairs.countP fun e => e.1 == m

/-- The other modules `m` imports. -/
def ImportGraph.deps (m : ModuleId) : Finset ModuleId :=
  ((graph.pairs.filter fun e => e.1 == m).map Prod.snd).toFinset

variable {graph}

theorem mem_deps : d ∈ graph.deps m ↔ graph.Imports m d := by
  rw [← mem_pairs]
  simp [ImportGraph.deps]

theorem card_deps_le (m : ModuleId) : (graph.deps m).card ≤ graph.weight m := by
  have h := List.toFinset_card_le ((graph.pairs.filter fun e => e.1 == m).map Prod.snd)
  rwa [List.length_map, ← List.countP_eq_length_filter] at h

private theorem count_targets (graph : ImportGraph) (h : d ≠ m) :
    ((graph.pairs.filter fun e => e.1 == m).map Prod.snd).count d =
      graph.edges.countP fun e => e.fromModule == m && e.resolved == some d := by
  unfold ImportGraph.pairs
  induction graph.edges with
  | nil => rfl
  | cons e edges ih =>
    rw [List.countP_cons, ← ih]
    cases hp : e.pair with
    | none =>
      have hne : ¬ (e.fromModule = m ∧ e.resolved = some d) := by
        intro hh
        rw [pair_eq_some.mpr ⟨h, hh⟩] at hp
        cases hp
      rw [List.filterMap_cons_none hp]
      simpa using hne
    | some p =>
      obtain ⟨m', d'⟩ := p
      obtain ⟨-, hm, hd⟩ := pair_eq_some.mp hp
      rw [List.filterMap_cons_some hp]
      by_cases hmm : m' = m
      · simp [hm, hd, hmm, List.count_cons]
      · simp [hm, hmm]

theorem weight_eq_card_deps {m : ModuleId} :
    graph.weight m = (graph.deps m).card ↔
      ∀ d, d ≠ m → graph.edges.countP (fun e => e.fromModule == m && e.resolved == some d) ≤ 1 := by
  have hlen : graph.weight m = ((graph.pairs.filter fun e => e.1 == m).map Prod.snd).length := by
    rw [List.length_map, ← List.countP_eq_length_filter]
    rfl
  have hself : ((graph.pairs.filter fun e => e.1 == m).map Prod.snd).count m = 0 := by
    rw [List.count_eq_zero]
    intro hm
    exact (mem_deps.mp (List.mem_toFinset.mpr hm)).1 rfl
  have hnodup : graph.weight m = (graph.deps m).card ↔
      ((graph.pairs.filter fun e => e.1 == m).map Prod.snd).Nodup := by
    rw [hlen, eq_comm]
    exact Multiset.toFinset_card_eq_card_iff_nodup (m := Multiset.ofList _)
  rw [hnodup, List.nodup_iff_count_le_one]
  constructor
  · intro h d hd
    rw [← count_targets graph hd]
    exact h d
  · intro h d
    by_cases hd : d = m
    · rw [hd, hself]
      omega
    · rw [count_targets graph hd]
      exact h d hd

end Counting

section Input

variable {s : Map ModuleId ℕ × Map ModuleId (List ModuleId)}

theorem countEdge_of_pair {e : ImportEdge} (h : e.pair = some (m, d)) :
    countEdge s e = (s.1.insert m ((s.1.get m).getD 0 + 1),
      s.2.insert d ((s.2.get d).getD [] ++ [m])) := by
  obtain ⟨hne, rfl, hd⟩ := pair_eq_some.mp h
  simp only [countEdge, hd, if_neg hne]

theorem countEdge_of_no_pair {e : ImportEdge} (h : e.pair = none) : countEdge s e = s := by
  unfold countEdge
  cases hd : e.resolved with
  | none => rfl
  | some d =>
    by_cases hne : d = e.fromModule
    · simp [hne]
    · rw [pair_eq_some.mpr ⟨hne, rfl, hd⟩] at h
      cases h

theorem foldl_countEdge_indegree (edges : List ImportEdge)
    (s : Map ModuleId ℕ × Map ModuleId (List ModuleId))
    (hs : ∀ p ∈ edges.filterMap ImportEdge.pair, (s.1.get p.1).isSome) (m : ModuleId) :
    (edges.foldl countEdge s).1.get m =
      (s.1.get m).map (· + (edges.filterMap ImportEdge.pair).countP fun p => p.1 == m) := by
  induction edges generalizing s with
  | nil => simp
  | cons e edges ih =>
    rw [List.foldl_cons]
    cases hp : e.pair with
    | none =>
      rw [List.filterMap_cons_none hp] at hs ⊢
      rw [countEdge_of_no_pair hp]
      exact ih s hs
    | some p =>
      obtain ⟨m', d'⟩ := p
      rw [List.filterMap_cons_some hp] at hs ⊢
      obtain ⟨c, hc⟩ := Option.isSome_iff_exists.mp (hs _ List.mem_cons_self)
      rw [countEdge_of_pair hp, ih]
      · by_cases hm : m = m'
        · subst hm
          simp [hc, Nat.add_assoc, Nat.add_comm 1]
        · simp [Map.get_insert_ne _ hm, Ne.symm hm]
      · intro q hq
        rw [Map.get_insert]
        split_ifs
        · rfl
        · exact hs q (List.mem_cons_of_mem _ hq)

theorem mem_foldl_countEdge_dependents (edges : List ImportEdge)
    (s : Map ModuleId ℕ × Map ModuleId (List ModuleId)) :
    m ∈ ((edges.foldl countEdge s).2.get d).getD [] ↔
      m ∈ (s.2.get d).getD [] ∨ (m, d) ∈ edges.filterMap ImportEdge.pair := by
  induction edges generalizing s with
  | nil => simp
  | cons e edges ih =>
    rw [List.foldl_cons, ih]
    cases hp : e.pair with
    | none => rw [countEdge_of_no_pair hp, List.filterMap_cons_none hp]
    | some p =>
      obtain ⟨m', d'⟩ := p
      rw [countEdge_of_pair hp, List.filterMap_cons_some hp]
      by_cases hd : d = d'
      · subst hd
        simp [or_assoc]
      · simp [Map.get_insert_ne _ hd, hd]

theorem get_initialIndegree (index : ModuleIndex) (m : ModuleId) :
    (initialIndegree index).get m = if m < index.modules.length then some 0 else none := by
  have hmem : ∀ v, (m, v) ∈ (List.range index.modules.length).map (fun m => (m, 0)) ↔
      m < index.modules.length ∧ v = 0 := by
    intro v
    simp [eq_comm]
  split_ifs with hm
  · exact Map.get_ofList_of_unique ((hmem 0).mpr ⟨hm, rfl⟩) fun w hw => ((hmem w).mp hw).2
  · cases h : (initialIndegree index).get m with
    | none => rfl
    | some v => exact absurd ((hmem v).mp (Map.get_ofList_eq_some h)).1 hm

variable {index : ModuleIndex} {graph : ImportGraph}

theorem Imports.bounds (hw : graph.WellFormed index) (h : graph.Imports m d) :
    m < index.modules.length ∧ d < index.modules.length := by
  obtain ⟨-, e, he, rfl, hd⟩ := h
  exact ⟨(hw e he).1, (hw e he).2 d hd⟩

theorem topoInput_indegree (hw : graph.WellFormed index) (m : ModuleId) :
    (topoInput index graph).1.get m =
      if m < index.modules.length then some (graph.weight m) else none := by
  have hkeys : ∀ p ∈ graph.edges.filterMap ImportEdge.pair,
      ((initialIndegree index).get p.1).isSome := by
    intro p hp
    rw [get_initialIndegree, if_pos (Imports.bounds hw (mem_pairs.mp hp)).1]
    rfl
  change (graph.edges.foldl countEdge (initialIndegree index, ∅)).1.get m = _
  rw [foldl_countEdge_indegree _ _ hkeys, get_initialIndegree]
  split_ifs
  · simp [ImportGraph.weight, ImportGraph.pairs]
  · rfl

private theorem topoInput_dependents (d : ModuleId) :
    ((topoInput index graph).2.get d).getD [] =
      (sortById (((graph.edges.foldl countEdge (initialIndegree index, ∅)).2.get d).getD [])).dedup
      := by
  have hsort : ∀ l : List ModuleId, (sortById l).destutter (· ≠ ·) = (sortById l).dedup :=
    fun l => (List.pairwise_insertionSort (· ≤ ·) l).destutter_eq_dedup
  simp only [topoInput, Map.get_mapValues, hsort]
  cases (graph.edges.foldl countEdge (initialIndegree index, ∅)).2.get d <;> rfl

theorem mem_topoInput_dependents :
    m ∈ ((topoInput index graph).2.get d).getD [] ↔ graph.Imports m d := by
  rw [topoInput_dependents, List.mem_dedup, sortById, List.mem_insertionSort,
    mem_foldl_countEdge_dependents, ← mem_pairs]
  simp [ImportGraph.pairs]

theorem nodup_topoInput_dependents (d : ModuleId) :
    (((topoInput index graph).2.get d).getD []).Nodup := by
  rw [topoInput_dependents]
  exact List.nodup_dedup _

end Input

section Drain

theorem foldlM_release {ds : List ModuleId} (hn : ds.Nodup) {s : TopoState} {c : ModuleId → ℕ}
    (hc : ∀ d ∈ ds, s.indegree.get d = some (c d + 1)) :
    ∃ s', ds.foldlM release s = some s' ∧ s'.ordered = s.ordered ∧
      (∀ x, s'.indegree.get x = if x ∈ ds then some (c x) else s.indegree.get x) ∧
      s'.ready.Perm (s.ready ++ ds.filter fun d => c d = 0) := by
  induction ds generalizing s with
  | nil => exact ⟨s, rfl, rfl, by simp, by simp⟩
  | cons d ds ih =>
    obtain ⟨hd, hn⟩ := List.nodup_cons.mp hn
    obtain ⟨s₁, hs₁, hord, hget, hready⟩ : ∃ s₁, release s d = some s₁ ∧ s₁.ordered = s.ordered ∧
        s₁.indegree = s.indegree.insert d (c d) ∧
        s₁.ready.Perm (s.ready ++ [d].filter fun d => c d = 0) := by
      simp only [release, hc d List.mem_cons_self]
      by_cases h0 : c d = 0
      · simp only [h0, if_true, Option.some.injEq, exists_eq_left', true_and]
        simpa [h0, sortById] using List.perm_insertionSort _ _
      · simp [h0]
    have hc₁ : ∀ x ∈ ds, s₁.indegree.get x = some (c x + 1) := by
      intro x hx
      have hxd : x ≠ d := fun h => hd (h ▸ hx)
      rw [hget, Map.get_insert_ne _ hxd, hc x (List.mem_cons_of_mem _ hx)]
    obtain ⟨s', hs', hord', hget', hready'⟩ := ih hn hc₁
    refine ⟨s', ?_, hord'.trans hord, ?_, ?_⟩
    · rw [List.foldlM_cons, hs₁]
      exact hs'
    · intro x
      rw [hget', hget, Map.get_insert]
      by_cases hx : x ∈ ds
      · simp [hx]
      · by_cases hxd : x = d
        · simp [hxd]
        · simp [hx, hxd]
    · have hcons : (d :: ds).filter (fun d => c d = 0) =
          [d].filter (fun d => c d = 0) ++ ds.filter fun d => c d = 0 := by
        rw [← List.filter_append, List.singleton_append]
      rw [hcons, ← List.append_assoc]
      exact hready'.trans (hready.append_right _)

/-- The edges out of `m` that the modules of the list do not answer. Each listed module answers
one edge, however many lead to it. -/
def ImportGraph.unanswered (graph : ImportGraph) (l : List ModuleId) (m : ModuleId) : ℕ :=
  graph.weight m - (graph.deps m ∩ l.toFinset).card

theorem unanswered_snoc (graph : ImportGraph) {l : List ModuleId} {a : ModuleId} (ha : a ∉ l)
    (m : ModuleId) :
    graph.unanswered l m =
      graph.unanswered (l ++ [a]) m + if a ∈ graph.deps m then 1 else 0 := by
  have hset : (l ++ [a]).toFinset = insert a l.toFinset := by
    rw [List.toFinset_append, Finset.union_comm]
    rfl
  have hle : (graph.deps m ∩ (insert a l.toFinset)).card ≤ graph.weight m :=
    (Finset.card_le_card Finset.inter_subset_left).trans (card_deps_le m)
  unfold ImportGraph.unanswered
  rw [hset]
  split_ifs with hm
  · rw [Finset.inter_insert_of_mem hm, Finset.card_insert_of_notMem (by simp [ha])] at hle ⊢
    omega
  · rw [Finset.inter_insert_of_notMem hm, Nat.add_zero]

variable (index : ModuleIndex) (graph : ImportGraph)

/-- A module is listed as soon as its count is zero. -/
structure DrainInv (s : TopoState) : Prop where
  counts : ∀ m, s.indegree.get m = if m < index.modules.length then
    some (graph.unanswered s.ordered m) else none
  nodup : (s.ordered ++ s.ready).Nodup
  listed : ∀ m, m ∈ s.ordered ++ s.ready ↔ s.indegree.get m = some 0
  topological : Topological graph.Imports s.ordered

variable {index graph} {s : TopoState}

theorem DrainInv.bound (h : DrainInv index graph s) {m : ModuleId} (hm : m ∈ s.ordered ++ s.ready) :
    m < index.modules.length := by
  have h0 := (h.listed m).mp hm
  rw [h.counts] at h0
  by_contra hlt
  simp [hlt] at h0

theorem DrainInv.answered (h : DrainInv index graph s) {m : ModuleId}
    (hm : m ∈ s.ordered ++ s.ready) :
    graph.weight m = (graph.deps m).card ∧ graph.deps m ⊆ s.ordered.toFinset := by
  have h0 := (h.listed m).mp hm
  rw [h.counts, if_pos (h.bound hm), Option.some.injEq, ImportGraph.unanswered] at h0
  have hle : (graph.deps m).card ≤ graph.weight m := card_deps_le m
  have hsub : (graph.deps m ∩ s.ordered.toFinset).card ≤ (graph.deps m).card :=
    Finset.card_le_card Finset.inter_subset_left
  refine ⟨by omega, ?_⟩
  rw [← Finset.inter_eq_left]
  exact Finset.eq_of_subset_of_card_le Finset.inter_subset_left (by omega)

theorem DrainInv.length_le (h : DrainInv index graph s) : s.ordered.length ≤ index.modules.length := by
  have hsub : s.ordered ⊆ List.range index.modules.length :=
    fun m hm => List.mem_range.mpr (h.bound (List.mem_append_left _ hm))
  simpa using ((List.nodup_append.mp h.nodup).1.subperm hsub).length_le

theorem DrainInv.step (hw : graph.WellFormed index) (h : DrainInv index graph s) {a : ModuleId}
    {ready : List ModuleId} (hr : s.ready = a :: ready) :
    ∃ s', (((topoInput index graph).2.get a).getD []).foldlM release
        { s with ready := ready, ordered := s.ordered ++ [a] } = some s' ∧
      DrainInv index graph s' ∧ s'.ordered = s.ordered ++ [a] := by
  have hnd := h.nodup
  rw [hr] at hnd
  have hao : a ∉ s.ordered := fun hao => (List.nodup_append.mp hnd).2.2 a hao a (by simp) rfl
  have hdeps : ∀ m, m ∈ ((topoInput index graph).2.get a).getD [] ↔ a ∈ graph.deps m :=
    fun m => mem_topoInput_dependents.trans mem_deps.symm
  have hold : ∀ m, m ∈ s.ordered ++ a :: ready ↔ s.indegree.get m = some 0 := by
    intro m
    rw [← hr]
    exact h.listed m
  have hc : ∀ m ∈ ((topoInput index graph).2.get a).getD [],
      s.indegree.get m = some (graph.unanswered (s.ordered ++ [a]) m + 1) := by
    intro m hm
    have hlt := (Imports.bounds hw (mem_topoInput_dependents.mp hm)).1
    rw [h.counts, if_pos hlt, unanswered_snoc graph hao, if_pos ((hdeps m).mp hm)]
  obtain ⟨s', hs', hord, hget, hready⟩ := foldlM_release (nodup_topoInput_dependents a)
    (s := { s with ready := ready, ordered := s.ordered ++ [a] }) hc
  have hlisted : ∀ m, m ∈ s'.ordered ++ s'.ready ↔ m ∈ s.ordered ++ a :: ready ∨
      (m ∈ ((topoInput index graph).2.get a).getD [] ∧
        graph.unanswered (s.ordered ++ [a]) m = 0) := by
    intro m
    rw [hord, List.mem_append, hready.mem_iff]
    simp [or_assoc]
  refine ⟨s', hs', ⟨?_, ?_, ?_, ?_⟩, hord⟩
  · intro m
    rw [hget, hord]
    split_ifs with hm hlt
    · rfl
    · exact absurd (Imports.bounds hw (mem_topoInput_dependents.mp hm)).1 hlt
    · rw [h.counts, if_pos ‹_›, unanswered_snoc graph hao, if_neg (mt (hdeps m).mpr hm)]
      rfl
    · rw [h.counts, if_neg ‹_›]
  · have hperm : (s'.ordered ++ s'.ready).Perm ((s.ordered ++ a :: ready) ++
        (((topoInput index graph).2.get a).getD []).filter
          fun m => graph.unanswered (s.ordered ++ [a]) m = 0) := by
      rw [hord, List.append_assoc, List.append_assoc]
      exact (hready.cons a).append_left _
    rw [hperm.nodup_iff, List.nodup_append]
    refine ⟨hnd, (nodup_topoInput_dependents a).filter _, ?_⟩
    intro m hm m' hm' heq
    subst heq
    have h1 := hc m (List.mem_of_mem_filter hm')
    rw [(hold m).mp hm] at h1
    cases h1
  · intro m
    rw [hlisted, hget, hold]
    split_ifs with hm
    · simp [hm, hc m hm]
    · simp [hm]
  · rw [hord]
    refine h.topological.snoc fun b hb => ?_
    exact List.mem_toFinset.mp ((h.answered (by simp [hr])).2 (mem_deps.mpr hb))

theorem drain_run (hw : graph.WellFormed index) (h : DrainInv index graph s) {fuel : ℕ}
    (hf : index.modules.length < fuel + s.ordered.length) :
    ∃ s', drain (topoInput index graph).2 fuel s = some s' ∧ DrainInv index graph s' ∧
      s'.ready = [] := by
  induction fuel generalizing s with
  | zero =>
    have := h.length_le
    omega
  | succ fuel ih =>
    cases hr : s.ready with
    | nil => exact ⟨s, by simp [drain, hr], h, hr⟩
    | cons a ready =>
      obtain ⟨s₁, hs₁, hinv, hord⟩ := h.step hw hr
      have hlen : index.modules.length < fuel + s₁.ordered.length := by
        rw [hord, List.length_append, List.length_singleton]
        omega
      obtain ⟨s', hs', hinv', hr'⟩ := ih hinv hlen
      refine ⟨s', ?_, hinv', hr'⟩
      simp only [drain, hr, hs₁, Option.bind_some, hs']

theorem mem_modulesWith {p : ℕ → Bool} {indegree : Map ModuleId ℕ} {m : ModuleId} :
    m ∈ modulesWith p indegree ↔ ∃ c, indegree.get m = some c ∧ p c = true := by
  simp only [modulesWith, sortById, List.mem_insertionSort, List.mem_map, List.mem_filter]
  constructor
  · rintro ⟨⟨m', c⟩, ⟨hmem, hp⟩, rfl⟩
    exact ⟨c, Map.mem_toList.mp hmem, hp⟩
  · rintro ⟨c, hget, hp⟩
    exact ⟨(m, c), ⟨Map.mem_toList.mpr hget, hp⟩, rfl⟩

theorem nodup_modulesWith (p : ℕ → Bool) (indegree : Map ModuleId ℕ) :
    (modulesWith p indegree).Nodup := by
  rw [modulesWith, sortById, (List.perm_insertionSort _ _).nodup_iff]
  refine List.Nodup.map_on ?_ (indegree.nodup_toList.filter _)
  rintro ⟨m, c⟩ hc ⟨m', c'⟩ hc' hm
  obtain rfl : m = m' := hm
  have h1 := Map.mem_toList.mp (List.mem_of_mem_filter hc)
  have h2 := Map.mem_toList.mp (List.mem_of_mem_filter hc')
  rw [h1] at h2
  cases h2
  rfl

theorem drainInv_start (hw : graph.WellFormed index) :
    DrainInv index graph
      ⟨(topoInput index graph).1, modulesWith (· == 0) (topoInput index graph).1, []⟩ := by
  refine ⟨fun m => ?_, ?_, fun m => ?_, .nil⟩
  · rw [topoInput_indegree hw]
    simp [ImportGraph.unanswered]
  · rw [List.nil_append]
    exact nodup_modulesWith (· == 0) (topoInput index graph).1
  · rw [List.nil_append, mem_modulesWith]
    simp

theorem computeModuleTopoOrder_returns (hw : graph.WellFormed index) :
    ∃ s, DrainInv index graph s ∧ s.ready = [] ∧
      computeModuleTopoOrder index graph =
        some ⟨s.ordered ++ modulesWith (0 < ·) s.indegree, modulesWith (0 < ·) s.indegree⟩ := by
  obtain ⟨s, hs, hinv, hr⟩ := drain_run hw (drainInv_start hw)
    (show index.modules.length < (index.modules.length + graph.edges.length + 1) + 0 by omega)
  exact ⟨s, hinv, hr, by simp [computeModuleTopoOrder, hs]⟩

end Drain

/-- What the order is for: every module once, the modules away from import cycles after all they
import, the others reported. -/
structure TopoOrderSpec (index : ModuleIndex) (graph : ImportGraph) (order : ModuleTopoOrder) :
    Prop where
  nodup : order.modules.Nodup
  mem_modules : ∀ m, m ∈ order.modules ↔ m < index.modules.length
  after_imports : ∀ m < index.modules.length, ¬ MeetsCycle graph.Imports m →
    m ∉ order.cyclicModules ∧
      ∀ d, graph.Imports m d → order.modules.idxOf d < order.modules.idxOf m
  mem_cyclic : ∀ m, m ∈ order.cyclicModules ↔
    m < index.modules.length ∧ MeetsCycle graph.Imports m

/-- Two edges lead from `m` to the same other module. -/
def ImportGraph.HasParallel (graph : ImportGraph) (m : ModuleId) : Prop :=
  ∃ d, d ≠ m ∧ 2 ≤ graph.edges.countP fun e => e.fromModule == m && e.resolved == some d

section Correct
variable {index : ModuleIndex} {graph : ImportGraph} {s : TopoState} {m : ModuleId}

theorem weight_eq_iff_not_parallel :
    graph.weight m = (graph.deps m).card ↔ ¬ graph.HasParallel m := by
  rw [weight_eq_card_deps]
  simp only [ImportGraph.HasParallel, not_exists, not_and, not_le]
  constructor
  · intro h d hd
    have := h d hd
    omega
  · intro h d hd
    have := h d hd
    omega

theorem DrainInv.mem_ordered_iff (h : DrainInv index graph s) (hr : s.ready = [])
    (hm : m < index.modules.length) :
    m ∈ s.ordered ↔ ¬ graph.HasParallel m ∧ ∀ d, graph.Imports m d → d ∈ s.ordered := by
  have hlist : s.ordered ++ s.ready = s.ordered := by rw [hr, List.append_nil]
  constructor
  · intro hmo
    rw [← hlist] at hmo
    obtain ⟨hw, hsub⟩ := h.answered hmo
    exact ⟨weight_eq_iff_not_parallel.mp hw,
      fun d hd => List.mem_toFinset.mp (hsub (mem_deps.mpr hd))⟩
  · rintro ⟨hp, hall⟩
    have hsub : graph.deps m ⊆ s.ordered.toFinset :=
      fun d hd => List.mem_toFinset.mpr (hall d (mem_deps.mp hd))
    rw [← hlist, h.listed, h.counts, if_pos hm, ImportGraph.unanswered,
      Finset.inter_eq_left.mpr hsub, weight_eq_iff_not_parallel.mpr hp, Nat.sub_self]

theorem DrainInv.not_meetsCycle (h : DrainInv index graph s) (hm : m ∈ s.ordered) :
    ¬ MeetsCycle graph.Imports m :=
  not_meetsCycle_of_acc (h.topological.acc hm)

theorem DrainInv.mem_ordered (hw : graph.WellFormed index) (h : DrainInv index graph s)
    (hr : s.ready = []) (hp : ∀ m, graph.HasParallel m → MeetsCycle graph.Imports m)
    (hm : m < index.modules.length) (hc : ¬ MeetsCycle graph.Imports m) :
    m ∈ s.ordered := by
  have hacc := acc_of_not_meetsCycle (Set.finite_lt_nat index.modules.length)
    (fun a b hab => (Imports.bounds hw hab).1) hc
  induction hacc with
  | intro m _ ih =>
    rw [h.mem_ordered_iff hr hm]
    refine ⟨mt (hp m) hc, fun d hd => ?_⟩
    exact ih d hd (Imports.bounds hw hd).2 fun hd' => hc (hd'.head hd)

theorem DrainInv.mem_cyclic (h : DrainInv index graph s) (hr : s.ready = []) :
    m ∈ modulesWith (0 < ·) s.indegree ↔ m < index.modules.length ∧ m ∉ s.ordered := by
  have hlist : m ∈ s.ordered ↔ s.indegree.get m = some 0 := by
    rw [← h.listed, hr, List.append_nil]
  rw [mem_modulesWith, hlist, h.counts]
  by_cases hm : m < index.modules.length
  · simp [hm, Nat.pos_iff_ne_zero]
  · simp [hm]

theorem DrainInv.nodup_order (h : DrainInv index graph s) (hr : s.ready = []) :
    (s.ordered ++ modulesWith (0 < ·) s.indegree).Nodup := by
  rw [List.nodup_append]
  refine ⟨(List.nodup_append.mp h.nodup).1, nodup_modulesWith _ _, ?_⟩
  intro m hm m' hm' heq
  exact ((h.mem_cyclic hr).mp hm').2 (heq ▸ hm)

theorem DrainInv.mem_order (h : DrainInv index graph s) (hr : s.ready = []) (m : ModuleId) :
    m ∈ s.ordered ++ modulesWith (0 < ·) s.indegree ↔ m < index.modules.length := by
  rw [List.mem_append, h.mem_cyclic hr]
  constructor
  · rintro (hm | hm)
    · exact h.bound (List.mem_append_left _ hm)
    · exact hm.1
  · intro hm
    by_cases hmo : m ∈ s.ordered
    · exact Or.inl hmo
    · exact Or.inr ⟨hm, hmo⟩

theorem ImportGraph.HasParallel.lt (h : graph.HasParallel m)
    (hw : graph.WellFormed index) : m < index.modules.length := by
  obtain ⟨d, -, hd⟩ := h
  obtain ⟨e, he, hm⟩ := List.countP_pos_iff.mp (Nat.lt_of_lt_of_le Nat.zero_lt_two hd)
  simp only [Bool.and_eq_true, beq_iff_eq] at hm
  exact hm.1 ▸ (hw e he).1

/-- The pass computes a correct order exactly when parallel imports only occur in modules that
meet an import cycle anyway. -/
theorem computeModuleTopoOrder_correct_iff (hw : graph.WellFormed index) :
    (∃ order, computeModuleTopoOrder index graph = some order ∧ TopoOrderSpec index graph order) ↔
      ∀ m, graph.HasParallel m → MeetsCycle graph.Imports m := by
  obtain ⟨s, h, hr, hrun⟩ := computeModuleTopoOrder_returns hw
  constructor
  · rintro ⟨order, horder, hspec⟩ m hp
    obtain rfl := Option.some.inj (horder.symm.trans hrun)
    have hm := hp.lt hw
    by_contra hc
    have hdrained : m ∈ s.ordered := by
      by_contra hmo
      exact (hspec.after_imports m hm hc).1 ((h.mem_cyclic hr).mpr ⟨hm, hmo⟩)
    exact ((h.mem_ordered_iff hr hm).mp hdrained).1 hp
  · intro hp
    have hmem : ∀ m, m < index.modules.length → (m ∉ s.ordered ↔ MeetsCycle graph.Imports m) := by
      intro m hm
      constructor
      · intro hmo
        by_contra hc
        exact hmo (h.mem_ordered hw hr hp hm hc)
      · intro hc hmo
        exact h.not_meetsCycle hmo hc
    refine ⟨_, hrun, ⟨h.nodup_order hr, h.mem_order hr, ?_, ?_⟩⟩
    · intro m hm hc
      have hmo : m ∈ s.ordered := not_not.mp (mt (hmem m hm).mp hc)
      refine ⟨fun hcyc => ((h.mem_cyclic hr).mp hcyc).2 hmo, fun d hd => ?_⟩
      change (s.ordered ++ _).idxOf d < (s.ordered ++ _).idxOf m
      rw [List.idxOf_append_of_mem hmo,
        List.idxOf_append_of_mem (h.topological.mem_of_rel hmo hd)]
      exact h.topological.idxOf_lt (List.nodup_append.mp h.nodup).1 hmo hd
    · intro m
      change m ∈ modulesWith (0 < ·) s.indegree ↔ _
      rw [h.mem_cyclic hr]
      constructor
      · rintro ⟨hm, hmo⟩
        exact ⟨hm, (hmem m hm).mp hmo⟩
      · rintro ⟨hm, hc⟩
        exact ⟨hm, (hmem m hm).mpr hc⟩

/-- The imports of a module lead to a cycle, or to a module with parallel imports. -/
def ImportGraph.Blocked (graph : ImportGraph) (m : ModuleId) : Prop :=
  ∃ c, ReflTransGen graph.Imports m c ∧ (TransGen graph.Imports c c ∨ graph.HasParallel c)

theorem DrainInv.mem_ordered_iff_not_blocked (hw : graph.WellFormed index)
    (h : DrainInv index graph s) (hr : s.ready = []) (hm : m < index.modules.length) :
    m ∈ s.ordered ↔ ¬ graph.Blocked m := by
  constructor
  · rintro hmo ⟨c, hmc, hc⟩
    have hco : c ∈ s.ordered := by
      clear hc
      induction hmc with
      | refl => exact hmo
      | tail _ hd ih => exact h.topological.mem_of_rel ih hd
    rcases hc with hc | hp
    · exact h.not_meetsCycle hco ⟨c, .refl, hc⟩
    · exact ((h.mem_ordered_iff hr (hp.lt hw)).mp hco).1 hp
  · intro hb
    have hcycle : ¬ MeetsCycle graph.Imports m := fun ⟨c, hmc, hc⟩ => hb ⟨c, hmc, Or.inl hc⟩
    have hacc := acc_of_not_meetsCycle (Set.finite_lt_nat index.modules.length)
      (fun a b hab => (Imports.bounds hw hab).1) hcycle
    induction hacc with
    | intro m _ ih =>
      rw [h.mem_ordered_iff hr hm]
      refine ⟨fun hp => hb ⟨m, .refl, Or.inr hp⟩, fun d hd => ?_⟩
      have hdb : ¬ graph.Blocked d := fun ⟨c, hdc, hc⟩ => hb ⟨c, hdc.head hd, hc⟩
      exact ih d hd (Imports.bounds hw hd).2 hdb fun ⟨c, hdc, hc⟩ => hdb ⟨c, hdc, Or.inl hc⟩

/-- The order that the pass computes, whatever the imports are. -/
theorem computeModuleTopoOrder_blocked (hw : graph.WellFormed index) :
    ∃ order ordered, computeModuleTopoOrder index graph = some order ∧
      order.modules = ordered ++ order.cyclicModules ∧ order.modules.Nodup ∧
      (∀ m, m ∈ order.modules ↔ m < index.modules.length) ∧
      (∀ m, m ∈ order.cyclicModules ↔ m < index.modules.length ∧ graph.Blocked m) ∧
      Topological graph.Imports ordered := by
  obtain ⟨s, h, hr, hrun⟩ := computeModuleTopoOrder_returns hw
  refine ⟨_, s.ordered, hrun, rfl, h.nodup_order hr, h.mem_order hr, fun m => ?_, h.topological⟩
  change m ∈ modulesWith (0 < ·) s.indegree ↔ _
  rw [h.mem_cyclic hr]
  refine and_congr_right fun hm => ?_
  rw [h.mem_ordered_iff_not_blocked hw hr hm, not_not]

end Correct

/-- `b` imports two names of `a`, in two imports. -/
def twoImports : ResolvedImports :=
  ⟨[⟨1, .sourceItem 0 "x"⟩, ⟨1, .sourceItem 0 "y"⟩], [], ∅⟩

def twoModules : ModuleIndex := ⟨[⟨⟨["a"]⟩⟩, ⟨⟨["b"]⟩⟩]⟩

private theorem twoImports_imports (h : (buildImportGraph twoModules twoImports).Imports m d) :
    m = 1 ∧ d = 0 := by
  obtain ⟨-, e, he, rfl, hd⟩ := h
  have hedges : (buildImportGraph twoModules twoImports).edges =
    [⟨1, ⟨["a"]⟩, some 0⟩, ⟨1, ⟨["a"]⟩, some 0⟩] := rfl
  rw [hedges] at he
  simp only [List.mem_cons, List.not_mem_nil, or_false, or_self] at he
  subst he
  exact ⟨rfl, (Option.some.inj hd).symm⟩

theorem twoImports_acyclic (m : ModuleId) :
    ¬ MeetsCycle (buildImportGraph twoModules twoImports).Imports m := by
  rintro ⟨c, -, hc⟩
  obtain ⟨b, hcb, -⟩ := TransGen.head'_iff.mp hc
  obtain ⟨b', -, hbc⟩ := TransGen.tail'_iff.mp hc
  exact absurd ((twoImports_imports hcb).1.symm.trans (twoImports_imports hbc).2) (by decide)

/-- Two imports of one module are enough for the importing module to be reported as cyclic. -/
theorem computeModuleTopoOrder_two_imports :
    ¬ ∃ order, computeModuleTopoOrder twoModules (buildImportGraph twoModules twoImports) =
        some order ∧
      TopoOrderSpec twoModules (buildImportGraph twoModules twoImports) order := by
  rintro ⟨order, horder, hspec⟩
  have hrun : computeModuleTopoOrder twoModules (buildImportGraph twoModules twoImports) =
    some ⟨[0, 1], [1]⟩ := by decide
  obtain rfl := Option.some.inj (horder.symm.trans hrun)
  exact (hspec.after_imports 1 (by decide) (twoImports_acyclic 1)).1 (by decide)

/-- One import of the module is handled. -/
theorem computeModuleTopoOrder_one_import :
    ∃ order, computeModuleTopoOrder twoModules
        (buildImportGraph twoModules ⟨[⟨0, .sourceItem 1 "x"⟩], [], ∅⟩) = some order ∧
      TopoOrderSpec twoModules
        (buildImportGraph twoModules ⟨[⟨0, .sourceItem 1 "x"⟩], [], ∅⟩) order := by
  refine (computeModuleTopoOrder_correct_iff
    (buildImportGraph_wellFormed (by decide) (by decide))).mpr ?_
  rintro m ⟨d, -, hd⟩
  have hlen : 2 ≤ 1 := hd.trans List.countP_le_length
  omega

end EtasFrontend.Project
