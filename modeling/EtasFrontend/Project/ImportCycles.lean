import EtasFrontend.Hir.Program
import EtasFrontend.Lib.Fallible
import EtasFrontend.Lib.StableSort
import EtasFrontend.Project.TopoOrder
import Mathlib.Data.Finset.Sort

/-! The pass that reports import cycles: a depth-first search that keeps its stack of calls. -/
namespace EtasFrontend.Project
open Lib Relation
open Hir (Span)

/-- The targets of the edges that leave a module, each with the index of its edge. -/
abbrev Adjacency := Map ModuleId (List (ModuleId × ℕ))

def addEdge (adjacency : Adjacency) (edge : ImportEdge × ℕ) : Adjacency :=
  match edge.1.resolved with
  | some target => adjacency.insert edge.1.fromModule
      ((adjacency.get edge.1.fromModule).getD [] ++ [(target, edge.2)])
  | none => adjacency

def ImportGraph.adjacency (graph : ImportGraph) : Adjacency :=
  (graph.edges.zipIdx.foldl addEdge ∅).mapValues (sortByKey Prod.fst)

structure CycleSearch where
  visiting : Finset ModuleId
  visited : Finset ModuleId
  stack : List (ModuleId × Option ℕ)
  cycleEdges : Finset ℕ

namespace CycleSearch

def empty : CycleSearch := ⟨∅, ∅, [], ∅⟩

def enter (s : CycleSearch) (module : ModuleId) (incomingEdge : Option ℕ) : CycleSearch :=
  { s with
    visiting := insert module s.visiting
    stack := s.stack ++ [(module, incomingEdge)] }

def leave (s : CycleSearch) (module : ModuleId) : CycleSearch :=
  { s with
    visiting := s.visiting.erase module
    visited := insert module s.visited
    stack := s.stack.dropLast }

/-- The edge back to the module at `cycleStart` of the stack, and those on the stack above it. -/
def closeCycle (s : CycleSearch) (edge cycleStart : ℕ) : CycleSearch :=
  { s with
    cycleEdges := ((s.stack.drop (cycleStart + 1)).filterMap Prod.snd).foldl
      (fun edges incoming => insert incoming edges) (insert edge s.cycleEdges) }

end CycleSearch

/-- The body of the loop over the edges of a module, where `detect` is the search itself. -/
def followEdge (detect : ModuleId → Option ℕ → CycleSearch → Option CycleSearch)
    (s : CycleSearch) (next : ModuleId × ℕ) : Option CycleSearch :=
  match s.stack.findIdx? (·.1 == next.1) with
  | some cycleStart => some (s.closeCycle next.2 cycleStart)
  | none => detect next.1 (some next.2) s

section Search
variable (adjacency : Adjacency)

/-- The depth of the recursion is bounded by the argument. -/
def detectCyclesFrom : ℕ → ModuleId → Option ℕ → CycleSearch → Option CycleSearch
  | 0, _, _, _ => none
  | n + 1, module, incomingEdge, s =>
    if module ∈ s.visited then some s
    else if module ∈ s.visiting then some s
    else do
      let s ← ((adjacency.get module).getD []).foldlM (followEdge (detectCyclesFrom n))
        (s.enter module incomingEdge)
      return s.leave module

end Search

structure Diagnostic where
  span : Span
  message : String

def projectDiagnostic (span : Span) (message : String) : Diagnostic where
  span := if span.start = span.stop then ⟨span.source, 0, 0⟩ else span
  message := message

def modulePathText (path : ModulePath) : String := ".".intercalate path.segments

def cycleDiagnostic (span : Span) (edge : ImportEdge) : Diagnostic :=
  projectDiagnostic span
    ("import cycle detected involving module `" ++ modulePathText edge.candidate ++ "`")

/-- The edges the pass finds. Every call enters one more module that has an edge. -/
def ImportGraph.cycleEdges (graph : ImportGraph) : Option (Finset ℕ) :=
  ((sortById (graph.adjacency.toList.map Prod.fst)).foldlM
    (fun s module => detectCyclesFrom graph.adjacency (2 * graph.edges.length + 1) module none s)
    CycleSearch.empty).map CycleSearch.cycleEdges

/-- `DetectImportCyclesPass::run`. The set of edges is read in the order of `iterate`; `span` says
where an edge was written. -/
def detectImportCycles (iterate : Finset ℕ → List ℕ) (span : ℕ → Span) (graph : ImportGraph) :
    Option (List Diagnostic) := do
  let edges ← graph.cycleEdges
  let diagnostics ← (iterate edges).mapM fun i =>
    graph.edges[i]?.map fun edge => cycleDiagnostic (span i) edge
  return sortByKey (fun diagnostic => diagnostic.span.start) diagnostics

section Invariant
variable (adjacency : Adjacency)

/-- Edge `i` leads from `m` to `d`. -/
def Joins (i : ℕ) (m d : ModuleId) : Prop := (d, i) ∈ (adjacency.get m).getD []

def Leads (m d : ModuleId) : Prop := ∃ i, Joins adjacency i m d

def OnCycle (i : ℕ) : Prop := ∃ m d, Joins adjacency i m d ∧ ReflTransGen (Leads adjacency) d m

/-- The upper module of the stack was entered by its edge from the lower one. -/
def Entered (lower upper : ModuleId × Option ℕ) : Prop :=
  ∃ i, upper.2 = some i ∧ Joins adjacency i lower.1 upper.1

/-- All that is reached from a visited module is visited, and without a cycle. -/
def Finished (visited : Finset ModuleId) : Prop :=
  ∃ l, Topological (Leads adjacency) l ∧ ∀ m, m ∈ l ↔ m ∈ visited

/-- What any part of the search keeps, while the calls on the stack last. -/
structure Keeps (s s' : CycleSearch) : Prop where
  stack : s'.stack = s.stack
  visiting : s'.visiting = s.visiting
  visited : s.visited ⊆ s'.visited
  cycleEdges : s.cycleEdges ⊆ s'.cycleEdges
  sound : (∀ i ∈ s.cycleEdges, OnCycle adjacency i) → ∀ i ∈ s'.cycleEdges, OnCycle adjacency i
  finished : s'.cycleEdges = ∅ → Finished adjacency s.visited → Finished adjacency s'.visited

variable {adjacency} {s s' s'' : CycleSearch}

theorem Keeps.refl : Keeps adjacency s s := ⟨rfl, rfl, subset_rfl, subset_rfl, id, fun _ => id⟩

theorem Keeps.trans (h : Keeps adjacency s s') (h' : Keeps adjacency s' s'') :
    Keeps adjacency s s'' where
  stack := h'.stack.trans h.stack
  visiting := h'.visiting.trans h.visiting
  visited := h.visited.trans h'.visited
  cycleEdges := h.cycleEdges.trans h'.cycleEdges
  sound := h'.sound ∘ h.sound
  finished hempty := by
    have hempty' : s'.cycleEdges = ∅ := Finset.subset_empty.mp (hempty ▸ h'.cycleEdges)
    exact h'.finished hempty ∘ h.finished hempty'

/-- Along the stack every module is entered from below and leads to the top. -/
theorem entered_of_stack {bottom top : ModuleId × Option ℕ} {l : List (ModuleId × Option ℕ)}
    (hchain : List.IsChain (Entered adjacency) (bottom :: l))
    (htop : (bottom :: l).getLast? = some top) :
    ReflTransGen (Leads adjacency) bottom.1 top.1 ∧
      ∀ entry ∈ l, ∃ i m, entry.2 = some i ∧ Joins adjacency i m entry.1 ∧
        ReflTransGen (Leads adjacency) bottom.1 m ∧
        ReflTransGen (Leads adjacency) entry.1 top.1 := by
  induction l generalizing bottom with
  | nil =>
    obtain rfl : bottom = top := by simpa using htop
    exact ⟨.refl, nofun⟩
  | cons entry l ih =>
    obtain ⟨⟨i, hi, hjoins⟩, hchain⟩ := List.isChain_cons_cons.mp hchain
    obtain ⟨hup, hall⟩ := ih hchain (by simpa using htop)
    have hstep : Leads adjacency bottom.1 entry.1 := ⟨i, hjoins⟩
    refine ⟨hup.head hstep, fun e he => ?_⟩
    obtain rfl | he := List.mem_cons.mp he
    · exact ⟨i, bottom.1, hi, hjoins, .refl, hup⟩
    · obtain ⟨j, m, hj, hm, hbelow, habove⟩ := hall e he
      exact ⟨j, m, hj, hm, hbelow.head hstep, habove⟩

theorem mem_closeCycle {s : CycleSearch} {edge cycleStart i : ℕ} :
    i ∈ (s.closeCycle edge cycleStart).cycleEdges ↔
      i ∈ s.cycleEdges ∨ i = edge ∨ ∃ entry ∈ s.stack.drop (cycleStart + 1), entry.2 = some i := by
  have hfold (l : List ℕ) (edges : Finset ℕ) :
      i ∈ l.foldl (fun edges incoming => insert incoming edges) edges ↔ i ∈ edges ∨ i ∈ l := by
    induction l generalizing edges with
    | nil => simp
    | cons j l ih =>
      rw [List.foldl_cons, ih, Finset.mem_insert, List.mem_cons]
      tauto
  rw [CycleSearch.closeCycle, hfold, Finset.mem_insert, List.mem_filterMap]
  tauto

theorem closeCycle_keeps {m : ModuleId} {incoming : Option ℕ} {next : ModuleId × ℕ}
    {cycleStart : ℕ} (hchain : List.IsChain (Entered adjacency) s.stack)
    (htop : s.stack.getLast? = some (m, incoming)) (hnext : Joins adjacency next.2 m next.1)
    (hstart : s.stack.findIdx? (·.1 == next.1) = some cycleStart) :
    Keeps adjacency s (s.closeCycle next.2 cycleStart) := by
  obtain ⟨hlt, hfound, -⟩ := List.findIdx?_eq_some_iff_getElem.mp hstart
  have hdrop : s.stack.drop cycleStart =
      s.stack[cycleStart] :: s.stack.drop (cycleStart + 1) := List.drop_eq_getElem_cons hlt
  have hbottom : (s.stack[cycleStart]).1 = next.1 := by simpa using hfound
  have hlast : (s.stack.drop cycleStart).getLast? = some (m, incoming) := by
    rw [List.getLast?_drop, if_neg (by omega), htop]
  obtain ⟨hup, hall⟩ := entered_of_stack (hdrop ▸ hchain.drop cycleStart) (hdrop ▸ hlast)
  rw [hbottom] at hup hall
  refine ⟨rfl, rfl, subset_rfl, fun i hi => mem_closeCycle.mpr (.inl hi), fun hsound i hi => ?_,
    fun hempty => ?_⟩
  · obtain hi | rfl | ⟨entry, hentry, hi⟩ := mem_closeCycle.mp hi
    · exact hsound i hi
    · exact ⟨m, next.1, hnext, hup⟩
    · obtain ⟨j, b, hj, hjoins, hbelow, habove⟩ := hall entry hentry
      obtain rfl : j = i := Option.some.inj (hj.symm.trans hi)
      exact ⟨b, entry.1, hjoins, habove.trans (hbelow.head ⟨next.2, hnext⟩)⟩
  · have : next.2 ∈ (s.closeCycle next.2 cycleStart).cycleEdges := mem_closeCycle.mpr (by simp)
    simp [hempty] at this

variable (adjacency s) in
/-- The modules being visited are those on the stack. -/
structure Ready : Prop where
  visiting : ∀ m, m ∈ s.visiting ↔ ∃ entry ∈ s.stack, entry.1 = m
  chain : List.IsChain (Entered adjacency) s.stack

theorem Keeps.ready (h : Keeps adjacency s s') (hready : Ready adjacency s) :
    Ready adjacency s' where
  visiting := by
    rw [h.visiting, h.stack]
    exact hready.visiting
  chain := h.stack ▸ hready.chain

/-- Every edge of the module on top leads to a visited module, or to the stack. -/
theorem foldlM_followEdge {detect : ModuleId → Option ℕ → CycleSearch → Option CycleSearch}
    {m : ModuleId} {incoming : Option ℕ} {edges : List (ModuleId × ℕ)}
    (hedges : ∀ next ∈ edges, Joins adjacency next.2 m next.1)
    (hdetect : ∀ next ∈ edges, ∀ s', Keeps adjacency s s' → next.1 ∉ s'.visiting →
      ∃ s'', detect next.1 (some next.2) s' = some s'' ∧ Keeps adjacency s' s'' ∧
        next.1 ∈ s''.visited)
    (hready : Ready adjacency s) (htop : s.stack.getLast? = some (m, incoming)) :
    ∃ s', edges.foldlM (followEdge detect) s = some s' ∧ Keeps adjacency s s' ∧
      (s'.cycleEdges = ∅ → ∀ next ∈ edges, next.1 ∈ s'.visited) := by
  induction edges generalizing s with
  | nil => exact ⟨s, rfl, .refl, fun _ => nofun⟩
  | cons next edges ih =>
    have hjoins := hedges next List.mem_cons_self
    have hfirst : ∃ s₁, followEdge detect s next = some s₁ ∧ Keeps adjacency s s₁ ∧
        (s₁.cycleEdges = ∅ → next.1 ∈ s₁.visited) := by
      unfold followEdge
      cases hstart : s.stack.findIdx? (·.1 == next.1) with
      | some cycleStart =>
        refine ⟨_, rfl, closeCycle_keeps hready.chain htop hjoins hstart, fun hempty => ?_⟩
        have : next.2 ∈ (s.closeCycle next.2 cycleStart).cycleEdges := mem_closeCycle.mpr (by simp)
        simp [hempty] at this
      | none =>
        have hnew : next.1 ∉ s.visiting := by
          rw [hready.visiting]
          rintro ⟨entry, hentry, heq⟩
          have := List.findIdx?_eq_none_iff.mp hstart entry hentry
          simp [heq] at this
        obtain ⟨s₁, hrun, hkeeps, hvisited⟩ := hdetect next List.mem_cons_self s .refl hnew
        exact ⟨s₁, hrun, hkeeps, fun _ => hvisited⟩
    obtain ⟨s₁, hrun, hkeeps, hnext⟩ := hfirst
    obtain ⟨s', hrun', hkeeps', hrest⟩ := ih (s := s₁)
      (fun e he => hedges e (List.mem_cons_of_mem _ he))
      (fun e he s₂ h₂ => hdetect e (List.mem_cons_of_mem _ he) s₂ (hkeeps.trans h₂))
      (hkeeps.ready hready) (hkeeps.stack ▸ htop)
    refine ⟨s', by rw [List.foldlM_cons, hrun]; exact hrun', hkeeps.trans hkeeps', ?_⟩
    intro hempty e he
    obtain rfl | he := List.mem_cons.mp he
    · have hempty₁ : s₁.cycleEdges = ∅ := Finset.subset_empty.mp (hempty ▸ hkeeps'.cycleEdges)
      exact hkeeps'.visited (hnext hempty₁)
    · exact hrest hempty e he

/-- The modules the search may still enter. -/
def unentered (modules : Finset ModuleId) (s : CycleSearch) : Finset ModuleId :=
  modules \ (s.visited ∪ s.visiting)

theorem Keeps.unentered (h : Keeps adjacency s s') (modules : Finset ModuleId) :
    unentered modules s' ⊆ unentered modules s := by
  unfold Project.unentered
  rw [h.visiting]
  exact Finset.sdiff_subset_sdiff subset_rfl (Finset.union_subset_union_left h.visited)

variable {modules : Finset ModuleId} {m : ModuleId} {incoming : Option ℕ}

theorem Ready.enter (hready : Ready adjacency s)
    (hchain : List.IsChain (Entered adjacency) (s.stack ++ [(m, incoming)])) :
    Ready adjacency (s.enter m incoming) := by
  refine ⟨fun d => ?_, hchain⟩
  simp only [CycleSearch.enter, Finset.mem_insert, hready.visiting, List.mem_append,
    List.mem_singleton]
  constructor
  · rintro (rfl | ⟨entry, hentry, rfl⟩)
    · exact ⟨_, .inr rfl, rfl⟩
    · exact ⟨entry, .inl hentry, rfl⟩
  · rintro ⟨entry, hentry | rfl, rfl⟩
    · exact .inr ⟨entry, hentry, rfl⟩
    · exact .inl rfl

variable (incoming) in
theorem unentered_enter (hm : m ∈ modules) (hvisited : m ∉ s.visited) (hvisiting : m ∉ s.visiting) :
    (unentered modules (s.enter m incoming)).card < (unentered modules s).card := by
  refine Finset.card_lt_card (Finset.ssubset_iff_subset_ne.mpr ⟨?_, fun heq => ?_⟩)
  · refine Finset.sdiff_subset_sdiff subset_rfl (Finset.union_subset_union_right ?_)
    exact Finset.subset_insert m s.visiting
  · have hin : m ∈ unentered modules s := by simp [unentered, hm, hvisited, hvisiting]
    rw [← heq] at hin
    simp [unentered, CycleSearch.enter] at hin

theorem Keeps.leave (h : Keeps adjacency (s.enter m incoming) s') (hvisiting : m ∉ s.visiting)
    (hall : s'.cycleEdges = ∅ → ∀ d, Leads adjacency m d → d ∈ s'.visited) :
    Keeps adjacency s (s'.leave m) where
  stack := by simp [CycleSearch.leave, h.stack, CycleSearch.enter]
  visiting := by simp [CycleSearch.leave, h.visiting, CycleSearch.enter, hvisiting]
  visited := h.visited.trans (Finset.subset_insert m s'.visited)
  cycleEdges := h.cycleEdges
  sound := h.sound
  finished hempty hfinished := by
    obtain ⟨l, hl, hmem⟩ := h.finished hempty hfinished
    refine ⟨l ++ [m], hl.snoc fun d hd => (hmem d).mpr (hall hempty d hd), fun d => ?_⟩
    simp [CycleSearch.leave, hmem, or_comm]

theorem detectCyclesFrom_keeps (hmodules : ∀ m d, Leads adjacency m d → d ∈ modules) {n : ℕ}
    (hm : m ∈ modules) (hready : Ready adjacency s)
    (hchain : List.IsChain (Entered adjacency) (s.stack ++ [(m, incoming)]))
    (hn : (unentered modules s).card < n) :
    ∃ s', detectCyclesFrom adjacency n m incoming s = some s' ∧ Keeps adjacency s s' ∧
      (m ∉ s.visiting → m ∈ s'.visited) := by
  induction n generalizing s m incoming with
  | zero => omega
  | succ n ih =>
    rw [detectCyclesFrom]
    by_cases hvisited : m ∈ s.visited
    · exact ⟨s, if_pos hvisited, .refl, fun _ => hvisited⟩
    rw [if_neg hvisited]
    by_cases hvisiting : m ∈ s.visiting
    · exact ⟨s, if_pos hvisiting, .refl, fun h => absurd hvisiting h⟩
    rw [if_neg hvisiting]
    have hfewer := unentered_enter incoming hm hvisited hvisiting
    have hdetect (next : ModuleId × ℕ) (hnext : next ∈ (adjacency.get m).getD [])
        (s' : CycleSearch) (hs' : Keeps adjacency (s.enter m incoming) s')
        (hnew : next.1 ∉ s'.visiting) :
        ∃ s'', detectCyclesFrom adjacency n next.1 (some next.2) s' = some s'' ∧
          Keeps adjacency s' s'' ∧ next.1 ∈ s''.visited := by
      have hjoins : Joins adjacency next.2 m next.1 := hnext
      have hpushed : List.IsChain (Entered adjacency) (s'.stack ++ [(next.1, some next.2)]) := by
        rw [hs'.stack]
        refine List.isChain_append.mpr ⟨hchain, List.isChain_singleton _, ?_⟩
        simp only [CycleSearch.enter, List.getLast?_append, List.getLast?_singleton, Option.some_or,
          List.head?_cons, Option.mem_def, Option.some.injEq]
        rintro lower rfl upper rfl
        exact ⟨next.2, rfl, hjoins⟩
      have hcard := Finset.card_le_card (hs'.unentered modules)
      obtain ⟨s'', hrun, hkeeps, hin⟩ := ih (hmodules m next.1 ⟨next.2, hjoins⟩)
        (hs'.ready (hready.enter hchain)) hpushed (by omega)
      exact ⟨s'', hrun, hkeeps, hin hnew⟩
    have htop : (s.enter m incoming).stack.getLast? = some (m, incoming) := by
      simp [CycleSearch.enter]
    obtain ⟨s₁, hrun, hkeeps, hall⟩ := foldlM_followEdge (fun next hnext => hnext) hdetect
      (hready.enter hchain) htop
    refine ⟨s₁.leave m, by rw [hrun]; rfl, ?_, fun _ => Finset.mem_insert_self m s₁.visited⟩
    refine hkeeps.leave hvisiting fun hempty d hd => ?_
    obtain ⟨i, hi⟩ := hd
    exact hall hempty (d, i) hi

/-- The calls for every module that has an edge. -/
theorem foldlM_detectCyclesFrom (hmodules : ∀ m d, Leads adjacency m d → d ∈ modules) {n : ℕ}
    {roots : List ModuleId} (hroots : ∀ m ∈ roots, m ∈ modules) (hstack : s.stack = [])
    (hready : Ready adjacency s) (hn : (unentered modules s).card < n) :
    ∃ s', roots.foldlM (fun s m => detectCyclesFrom adjacency n m none s) s = some s' ∧
      Keeps adjacency s s' ∧ ∀ m ∈ roots, m ∈ s'.visited := by
  induction roots generalizing s with
  | nil => exact ⟨s, rfl, .refl, nofun⟩
  | cons m roots ih =>
    have hnone : m ∉ s.visiting := by simp [hready.visiting, hstack]
    have hchain : List.IsChain (Entered adjacency) (s.stack ++ [(m, none)]) := by simp [hstack]
    obtain ⟨s₁, hrun, hkeeps, hvisited⟩ := detectCyclesFrom_keeps hmodules
      (hroots m List.mem_cons_self) hready hchain hn
    have hcard := Finset.card_le_card (hkeeps.unentered modules)
    obtain ⟨s', hrun', hkeeps', hall⟩ := ih (fun d hd => hroots d (List.mem_cons_of_mem _ hd))
      (hkeeps.stack.trans hstack) (hkeeps.ready hready) (by omega)
    refine ⟨s', by rw [List.foldlM_cons, hrun]; exact hrun', hkeeps.trans hkeeps', ?_⟩
    intro d hd
    obtain rfl | hd := List.mem_cons.mp hd
    · exact hkeeps'.visited (hvisited hnone)
    · exact hall d hd

end Invariant

/-! The search over the edges of a graph. -/

variable {graph : ImportGraph}

/-- `m` imports `d`, which may be `m` itself. -/
def ImportGraph.Edge (graph : ImportGraph) (m d : ModuleId) : Prop :=
  ∃ edge ∈ graph.edges, edge.fromModule = m ∧ edge.resolved = some d

variable {m d : ModuleId}

theorem mem_addEdge {adjacency : Adjacency} {edge : ImportEdge × ℕ} {i : ℕ} :
    (d, i) ∈ ((addEdge adjacency edge).get m).getD [] ↔
      (d, i) ∈ (adjacency.get m).getD [] ∨
        edge.2 = i ∧ edge.1.fromModule = m ∧ edge.1.resolved = some d := by
  unfold addEdge
  cases edge.1.resolved with
  | none => simp
  | some target =>
    by_cases hm : m = edge.1.fromModule
    · subst hm
      simp [and_comm, eq_comm]
    · simp [Map.get_insert_ne _ hm, Ne.symm hm]

theorem mem_foldl_addEdge (edges : List (ImportEdge × ℕ)) (adjacency : Adjacency) {i : ℕ} :
    (d, i) ∈ ((edges.foldl addEdge adjacency).get m).getD [] ↔
      (d, i) ∈ (adjacency.get m).getD [] ∨
        ∃ edge, (edge, i) ∈ edges ∧ edge.fromModule = m ∧ edge.resolved = some d := by
  induction edges generalizing adjacency with
  | nil => simp
  | cons e edges ih =>
    rw [List.foldl_cons, ih, mem_addEdge, or_assoc]
    refine or_congr_right ⟨?_, ?_⟩
    · rintro (⟨rfl, hm, hd⟩ | ⟨edge, hedge, h⟩)
      · exact ⟨e.1, List.mem_cons_self, hm, hd⟩
      · exact ⟨edge, List.mem_cons_of_mem _ hedge, h⟩
    · rintro ⟨edge, hedge, h⟩
      obtain rfl | hedge := List.mem_cons.mp hedge
      · exact .inl ⟨rfl, h⟩
      · exact .inr ⟨edge, hedge, h⟩

theorem joins_adjacency {i : ℕ} :
    Joins graph.adjacency i m d ↔
      ∃ edge, graph.edges[i]? = some edge ∧ edge.fromModule = m ∧ edge.resolved = some d := by
  have hsort : Joins graph.adjacency i m d ↔
      (d, i) ∈ ((graph.edges.zipIdx.foldl addEdge ∅).get m).getD [] := by
    rw [Joins, ImportGraph.adjacency, Map.get_mapValues]
    cases (graph.edges.zipIdx.foldl addEdge ∅).get m with
    | none => rfl
    | some edges => exact mem_sortByKey
  rw [hsort, mem_foldl_addEdge]
  simp [List.mk_mem_zipIdx_iff_getElem?]

theorem leads_adjacency : Leads graph.adjacency m d ↔ graph.Edge m d := by
  simp only [Leads, joins_adjacency, ImportGraph.Edge]
  constructor
  · rintro ⟨i, edge, hi, h⟩
    exact ⟨edge, List.mem_of_getElem? hi, h⟩
  · rintro ⟨edge, hedge, h⟩
    obtain ⟨i, hi⟩ := List.getElem?_of_mem hedge
    exact ⟨i, edge, hi, h⟩

theorem leads_eq_edge : Leads graph.adjacency = graph.Edge := by
  funext m d
  exact propext leads_adjacency

/-- The modules at the ends of the edges. -/
def ImportGraph.ends (graph : ImportGraph) : Finset ModuleId :=
  (graph.edges.flatMap fun edge => edge.fromModule :: edge.resolved.toList).toFinset

theorem card_ends_le : graph.ends.card ≤ 2 * graph.edges.length := by
  refine (List.toFinset_card_le _).trans ?_
  induction graph.edges with
  | nil => rfl
  | cons edge edges ih =>
    have hedge : (edge.fromModule :: edge.resolved.toList).length ≤ 2 := by
      cases edge.resolved <;> simp
    have hlen : (edge :: edges).length = edges.length + 1 := rfl
    rw [List.flatMap_cons, List.length_append]
    omega

theorem mem_ends_of_edge (h : graph.Edge m d) : m ∈ graph.ends ∧ d ∈ graph.ends := by
  obtain ⟨edge, hedge, rfl, hd⟩ := h
  simp only [ImportGraph.ends, List.mem_toFinset, List.mem_flatMap]
  exact ⟨⟨edge, hedge, by simp⟩, edge, hedge, by simp [hd]⟩

theorem foldl_addEdge_ne_nil (edges : List (ImportEdge × ℕ)) {adjacency : Adjacency}
    (h : ∀ m, adjacency.get m ≠ some []) (m : ModuleId) :
    (edges.foldl addEdge adjacency).get m ≠ some [] := by
  induction edges generalizing adjacency with
  | nil => exact h m
  | cons e edges ih =>
    refine ih fun m => ?_
    unfold addEdge
    cases e.1.resolved with
    | none => exact h m
    | some target =>
      rw [Map.get_insert]
      split_ifs
      · simp
      · exact h m

theorem mem_roots {m : ModuleId} :
    m ∈ sortById (graph.adjacency.toList.map Prod.fst) ↔ ∃ d, Leads graph.adjacency m d := by
  simp only [sortById, List.mem_insertionSort, List.mem_map, Prod.exists, Map.mem_toList]
  constructor
  · rintro ⟨_, edges, h, rfl⟩
    rename_i m
    cases edges with
    | cons next edges => exact ⟨next.1, next.2, by simp [Joins, h]⟩
    | nil =>
      obtain ⟨edges, hedges, hsort⟩ := Option.map_eq_some_iff.mp
        ((Map.get_mapValues _ (sortByKey Prod.fst) m).symm.trans h)
      have hperm : (sortByKey Prod.fst edges).Perm edges := sortByKey_perm edges
      obtain rfl : edges = [] := by simpa [hsort] using hperm.symm
      exact absurd hedges (foldl_addEdge_ne_nil _ (by simp) m)
  · rintro ⟨d, i, h⟩
    unfold Joins at h
    cases hget : graph.adjacency.get m with
    | none => simp [hget] at h
    | some edges => exact ⟨m, edges, hget, rfl⟩

theorem cycleEdges_exact (graph : ImportGraph) :
    ∃ edges, graph.cycleEdges = some edges ∧
      (edges ≠ ∅ ↔ ∃ m, TransGen graph.Edge m m) ∧
      ∀ i ∈ edges, OnCycle graph.adjacency i := by
  have hends {m d : ModuleId} (h : Leads graph.adjacency m d) : m ∈ graph.ends ∧ d ∈ graph.ends :=
    mem_ends_of_edge (leads_adjacency.mp h)
  have hready : Ready graph.adjacency .empty := ⟨by simp [CycleSearch.empty], .nil⟩
  have hcard : (unentered graph.ends .empty).card < 2 * graph.edges.length + 1 := by
    have hsub : (unentered graph.ends .empty).card ≤ graph.ends.card :=
      Finset.card_le_card Finset.sdiff_subset
    have hends : graph.ends.card ≤ 2 * graph.edges.length := card_ends_le
    omega
  obtain ⟨s, hrun, hkeeps, hall⟩ := foldlM_detectCyclesFrom (fun m d h => (hends h).2)
    (fun m hm => (hends (mem_roots.mp hm).choose_spec).1) rfl hready hcard
  have hsound := hkeeps.sound (by simp [CycleSearch.empty])
  refine ⟨s.cycleEdges, by rw [ImportGraph.cycleEdges, hrun]; rfl, ⟨fun hne => ?_, ?_⟩, hsound⟩
  · obtain ⟨i, hi⟩ := Finset.nonempty_iff_ne_empty.mpr hne
    obtain ⟨m, d, hjoins, hback⟩ := hsound i hi
    exact ⟨m, leads_eq_edge ▸ TransGen.head' ⟨i, hjoins⟩ hback⟩
  · -- without an edge found, what is visited has no cycle, and all roots are visited
    rintro ⟨m, hcycle⟩ hempty
    rw [← leads_eq_edge] at hcycle
    obtain ⟨l, hl, hmem⟩ := hkeeps.finished hempty ⟨[], .nil, by simp [CycleSearch.empty]⟩
    obtain ⟨d, hd, -⟩ := TransGen.head'_iff.mp hcycle
    have hm := (hmem m).mpr (hall m (mem_roots.mpr ⟨d, hd⟩))
    exact not_meetsCycle_of_acc (hl.acc hm) ⟨m, .refl, hcycle⟩

/-- One report for each edge that the search finds. -/
theorem detectImportCycles_of_edges {iterate : Finset ℕ → List ℕ}
    (hiterate : ∀ edges i, i ∈ iterate edges ↔ i ∈ edges) (span : ℕ → Span) {graph : ImportGraph}
    {edges : Finset ℕ} (hedges : graph.cycleEdges = some edges)
    (hsound : ∀ i ∈ edges, OnCycle graph.adjacency i) :
    ∃ diagnostics, detectImportCycles iterate span graph = some diagnostics ∧
      (diagnostics ≠ [] ↔ edges ≠ ∅) ∧
      ∀ diagnostic ∈ diagnostics, ∃ i edge target, graph.edges[i]? = some edge ∧
        edge.resolved = some target ∧ diagnostic = cycleDiagnostic (span i) edge ∧
        ReflTransGen graph.Edge target edge.fromModule := by
  have hreport (i : ℕ) (hi : i ∈ iterate edges) :
      ∃ edge target, graph.edges[i]? = some edge ∧ edge.resolved = some target ∧
        ReflTransGen graph.Edge target edge.fromModule := by
    obtain ⟨m, d, hjoins, hback⟩ := hsound i ((hiterate edges i).mp hi)
    obtain ⟨edge, hedge, rfl, hd⟩ := joins_adjacency.mp hjoins
    exact ⟨edge, d, hedge, hd, leads_eq_edge ▸ hback⟩
  obtain ⟨diagnostics, hmap, hlen, hall⟩ := mapM_of_isSome (l := iterate edges)
    (f := fun i => graph.edges[i]?.map fun edge => cycleDiagnostic (span i) edge) fun i hi => by
      obtain ⟨edge, _, hedge, -⟩ := hreport i hi
      simp [hedge]
  have hrun : detectImportCycles iterate span graph =
      some (sortByKey (fun diagnostic => diagnostic.span.start) diagnostics) := by
    rw [detectImportCycles, hedges]
    simp only [Option.bind_eq_bind, Option.bind_some, hmap]
    rfl
  refine ⟨_, hrun, ?_, fun diagnostic hd => ?_⟩
  · rw [← Finset.nonempty_iff_ne_empty, ← List.length_pos_iff,
      (sortByKey_perm diagnostics).length_eq, hlen, List.length_pos_iff_exists_mem]
    exact exists_congr (hiterate edges)
  · obtain ⟨i, hi, hf⟩ := hall diagnostic (mem_sortByKey.mp hd)
    obtain ⟨edge, target, hedge, htarget, hback⟩ := hreport i hi
    refine ⟨i, edge, target, hedge, htarget, ?_, hback⟩
    simpa [hedge, eq_comm] using hf

/-- The pass reports something exactly if the imports of some module lead back to it, and each
report is about an edge from whose target they lead back. -/
theorem detectImportCycles_exact {iterate : Finset ℕ → List ℕ}
    (hiterate : ∀ edges i, i ∈ iterate edges ↔ i ∈ edges) (span : ℕ → Span) (graph : ImportGraph) :
    ∃ diagnostics, detectImportCycles iterate span graph = some diagnostics ∧
      (diagnostics ≠ [] ↔ ∃ m, TransGen graph.Edge m m) ∧
      ∀ diagnostic ∈ diagnostics, ∃ i edge target, graph.edges[i]? = some edge ∧
        edge.resolved = some target ∧ diagnostic = cycleDiagnostic (span i) edge ∧
        ReflTransGen graph.Edge target edge.fromModule := by
  obtain ⟨edges, hedges, hexact, hsound⟩ := cycleEdges_exact graph
  have hrun := detectImportCycles_of_edges hiterate span hedges hsound
  rwa [hexact] at hrun

theorem ImportGraph.Imports.edge (h : graph.Imports m d) : graph.Edge m d := h.2

/-- A path of edges is one of imports between distinct modules. -/
theorem imports_of_edges (h : ReflTransGen graph.Edge m d) : ReflTransGen graph.Imports m d := by
  induction h with
  | refl => exact .refl
  | @tail a b _ hab ih =>
    by_cases hne : b = a
    · exact hne ▸ ih
    · exact ih.tail ⟨hne, hab⟩

/-- The two passes over the graph of a project. The order is one of all modules, and the modules it
lists as cyclic are those whose imports lead to a cycle or to parallel imports; the others come
after what they import. Without a reported cycle only parallel imports are left as a reason, and
without cyclic modules only self-imports are reported. -/
theorem importPasses_agree {index : ModuleIndex} {imports : ResolvedImports}
    (hi : ∀ i ∈ imports.imports, i.fromModule < index.modules.length)
    (hw : ∀ i ∈ imports.wildcardImports, i.fromModule < index.modules.length)
    {iterate : Finset ℕ → List ℕ} (hiterate : ∀ edges i, i ∈ iterate edges ↔ i ∈ edges)
    (span : ℕ → Span) :
    ∃ order diagnostics,
      computeModuleTopoOrder index (buildImportGraph index imports) = some order ∧
      detectImportCycles iterate span (buildImportGraph index imports) = some diagnostics ∧
      order.modules.Nodup ∧ (∀ m, m ∈ order.modules ↔ m < index.modules.length) ∧
      (∀ m, m ∈ order.cyclicModules ↔
        m < index.modules.length ∧ (buildImportGraph index imports).Blocked m) ∧
      (∀ m ∈ order.modules, m ∉ order.cyclicModules →
        ∀ d, (buildImportGraph index imports).Imports m d →
          order.modules.idxOf d < order.modules.idxOf m) ∧
      (diagnostics = [] → ∀ m ∈ order.cyclicModules, ∃ c,
        ReflTransGen (buildImportGraph index imports).Imports m c ∧
          (buildImportGraph index imports).HasParallel c) ∧
      (order.cyclicModules = [] → ∀ diagnostic ∈ diagnostics, ∃ i edge,
        (buildImportGraph index imports).edges[i]? = some edge ∧
          edge.resolved = some edge.fromModule ∧ diagnostic = cycleDiagnostic (span i) edge) := by
  have hwf := buildImportGraph_wellFormed hi hw
  generalize buildImportGraph index imports = graph at hwf ⊢
  obtain ⟨order, ordered, horder, hsplit, hnodup, hmem, hcyclic, htopo⟩ :=
    computeModuleTopoOrder_blocked hwf
  obtain ⟨edges, hfound, hexact, hsound⟩ := cycleEdges_exact graph
  obtain ⟨diagnostics, hdetect, hreports, hedges⟩ :=
    detectImportCycles_of_edges hiterate span hfound hsound
  refine ⟨order, diagnostics, horder, hdetect, hnodup, hmem, hcyclic, ?_, ?_, ?_⟩
  · intro m hm hmc d hd
    rw [hsplit] at hm hnodup ⊢
    have hmo : m ∈ ordered := (List.mem_append.mp hm).resolve_right hmc
    rw [List.idxOf_append_of_mem hmo, List.idxOf_append_of_mem (htopo.mem_of_rel hmo hd)]
    exact htopo.idxOf_lt (List.nodup_append.mp hnodup).1 hmo hd
  · intro hnone m hm
    obtain ⟨c, hmc, hc⟩ := ((hcyclic m).mp hm).2
    have hacyclic : ¬ TransGen graph.Imports c c := by
      intro hcycle
      have hedge : TransGen graph.Edge c c := TransGen.mono (fun _ _ h => h.edge) c c hcycle
      exact hreports.mpr (hexact.mpr ⟨c, hedge⟩) hnone
    exact ⟨c, hmc, hc.resolve_left hacyclic⟩
  · intro hnone diagnostic hd
    obtain ⟨i, edge, target, hedge, htarget, heq, hback⟩ := hedges diagnostic hd
    refine ⟨i, edge, hedge, ?_, heq⟩
    by_contra hne
    have hmem := List.mem_of_getElem? hedge
    have himports : graph.Imports edge.fromModule target :=
      ⟨fun h => hne (h ▸ htarget), edge, hmem, rfl, htarget⟩
    have hblocked : graph.Blocked edge.fromModule :=
      ⟨edge.fromModule, .refl, Or.inl (.head' himports (imports_of_edges hback))⟩
    have hin := (hcyclic _).mpr ⟨(hwf edge hmem).1, hblocked⟩
    rw [hnone] at hin
    cases hin

theorem importPasses_agree_two_imports : ∃ order diagnostics,
    computeModuleTopoOrder twoModules (buildImportGraph twoModules twoImports) = some order ∧
      detectImportCycles (·.sort (· ≤ ·)) (fun _ => ⟨0, 0, 1⟩)
        (buildImportGraph twoModules twoImports) = some diagnostics ∧
      ∀ m, m ∈ order.cyclicModules ↔
        m < 2 ∧ (buildImportGraph twoModules twoImports).Blocked m := by
  obtain ⟨order, diagnostics, horder, hdetect, -, -, hcyclic, -⟩ :=
    @importPasses_agree twoModules twoImports (by decide) (by decide) (·.sort (· ≤ ·))
      (fun _ _ => Finset.mem_sort _) fun _ => ⟨0, 0, 1⟩
  exact ⟨order, diagnostics, horder, hdetect, hcyclic⟩

/-- A module that imports itself, beside one that imports it. -/
def selfImport : ImportGraph where
  edges := [⟨0, ⟨["a"]⟩, some 0⟩, ⟨1, ⟨["a"]⟩, some 0⟩]
  reverseEdges := ∅

theorem detectImportCycles_selfImport :
    ∃ diagnostics, detectImportCycles (·.sort (· ≤ ·)) (fun _ => ⟨0, 0, 1⟩) selfImport =
        some diagnostics ∧
      (diagnostics ≠ [] ↔ ∃ m, TransGen selfImport.Edge m m) ∧
      ∀ diagnostic ∈ diagnostics, ∃ (i : ℕ) (edge : ImportEdge) (target : ModuleId),
        selfImport.edges[i]? = some edge ∧ edge.resolved = some target ∧
        diagnostic = cycleDiagnostic ⟨0, 0, 1⟩ edge ∧
          ReflTransGen selfImport.Edge target edge.fromModule :=
  detectImportCycles_exact (fun _ _ => Finset.mem_sort _) (fun _ => ⟨0, 0, 1⟩) selfImport

end EtasFrontend.Project
