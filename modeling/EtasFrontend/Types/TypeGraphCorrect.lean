import EtasFrontend.Types.TypeGraph
import Mathlib.Algebra.GroupWithZero.Nat
import Mathlib.Algebra.Order.BigOperators.Group.Finset

/-! The enumeration of a type graph visits every reachable id once, and fails for its depth exactly
when some id is further from the roots than the limit. -/
namespace EtasFrontend.Types
open Lib

/-! What a list of actions comes to. -/

def edgesOf (actions : List GraphAction) : List TypeId :=
  actions.filterMap fun
    | .edge id => some id
    | _ => none

def GraphAction.cost : GraphAction → ℕ
  | .charge amount => amount
  | .edge _ => 1
  | .fail _ => 0

def costOf (actions : List GraphAction) : ℕ := (actions.map GraphAction.cost).sum

/-- No check in the list fails. -/
def Passes (actions : List GraphAction) : Prop := ∀ e, .fail e ∉ actions

@[simp] theorem edgesOf_nil : edgesOf [] = [] := rfl

@[simp] theorem edgesOf_charge (n : ℕ) (actions : List GraphAction) :
    edgesOf (.charge n :: actions) = edgesOf actions := rfl

@[simp] theorem edgesOf_edge (id : TypeId) (actions : List GraphAction) :
    edgesOf (.edge id :: actions) = id :: edgesOf actions := rfl

theorem length_edgesOf_le (actions : List GraphAction) :
    (edgesOf actions).length ≤ costOf actions := by
  induction actions with
  | nil => exact le_rfl
  | cons action actions ih =>
    have hcost : costOf (action :: actions) = action.cost + costOf actions := by
      rw [costOf, List.map_cons, List.sum_cons, costOf]
    cases action with
    | charge n =>
      rw [edgesOf_charge, hcost]
      omega
    | edge id =>
      rw [edgesOf_edge, List.length_cons, hcost]
      simp only [GraphAction.cost]
      omega
    | fail e =>
      change (edgesOf actions).length ≤ _
      rw [hcost]
      omega

theorem passes_rowActions (row : EffectRowRef) : Passes (rowActions row) := by
  intro e h
  obtain ⟨effect, -, h⟩ := List.mem_flatMap.mp h
  rcases List.mem_cons.mp h with h | h
  · cases h
  · obtain ⟨arg, -, h⟩ := List.mem_flatMap.mp h
    cases arg <;> simp at h

theorem passes_startActions (roots : List TypeId) (rows : List EffectRowRef) :
    Passes (startActions roots rows) := by
  intro e h
  rcases List.mem_append.mp h with h | h
  · obtain ⟨_, -, h⟩ := List.mem_map.mp h
    cases h
  · obtain ⟨row, -, h⟩ := List.mem_flatMap.mp h
    exact passes_rowActions row e h

theorem performAll_ok {actions : List GraphAction} (hpass : Passes actions) (depth : ℕ)
    (walker : Walker) (hfit : walker.budget.edges + costOf actions ≤ walker.budget.maxEdges) :
    walker.performAll depth actions = .ok { walker with
      queue := walker.queue ++ ((edgesOf actions).filter (· ∉ walker.seen)).map (·, depth)
      budget := { walker.budget with edges := walker.budget.edges + costOf actions } } := by
  induction actions generalizing walker with
  | nil => simp [Walker.performAll, costOf]
  | cons action actions ih =>
    have hrest : Passes actions := fun e he => hpass e (List.mem_cons_of_mem _ he)
    have hcost : costOf (action :: actions) = action.cost + costOf actions := by
      rw [costOf, List.map_cons, List.sum_cons, costOf]
    rw [hcost] at hfit ⊢
    unfold Walker.performAll
    cases action with
    | charge n =>
      have hcharge : walker.budget.chargeEdges n =
          .ok { walker.budget with edges := walker.budget.edges + n } := by
        simp only [GraphAction.cost] at hfit
        unfold TypeSubstitutionBudget.chargeEdges
        rw [if_neg (by omega)]
      have hperform : walker.perform depth (.charge n) =
          .ok { walker with budget := { walker.budget with edges := walker.budget.edges + n } } := by
        simp only [Walker.perform, hcharge]
        rfl
      rw [hperform]
      dsimp only
      rw [ih hrest _ (by simp only [GraphAction.cost] at hfit ⊢; omega)]
      simp [GraphAction.cost, Nat.add_assoc]
    | edge id =>
      have hcharge : walker.budget.chargeEdges 1 =
          .ok { walker.budget with edges := walker.budget.edges + 1 } := by
        simp only [GraphAction.cost] at hfit
        unfold TypeSubstitutionBudget.chargeEdges
        rw [if_neg (by omega)]
      have hperform : walker.perform depth (.edge id) = .ok { walker with
          queue := walker.queue ++ (if id ∈ walker.seen then [] else [(id, depth)])
          budget := { walker.budget with edges := walker.budget.edges + 1 } } := by
        simp only [Walker.perform, Walker.edge, hcharge]
        by_cases hseen : id ∈ walker.seen
        · simp [hseen, bind, Except.bind, pure, Except.pure]
        · simp [hseen, bind, Except.bind, pure, Except.pure]
      rw [hperform]
      dsimp only
      rw [ih hrest _ (by simp only [GraphAction.cost] at hfit ⊢; omega)]
      by_cases hseen : id ∈ walker.seen
      · simp [GraphAction.cost, Nat.add_assoc, hseen]
      · simp [GraphAction.cost, Nat.add_assoc, hseen]
    | fail e => exact absurd List.mem_cons_self (hpass e)

section
variable (store : TypeStore) (facts : GraphFacts) (checkedDeclarations : Map TypeId TypeId)

/-- The actions at a node; a declaration of the identity bridge is a leaf. -/
def actionsAt (id : TypeId) : List GraphAction :=
  match store.get id with
  | none => []
  | some ty => if (checkedDeclarations.get id).isSome then [] else nodeActions facts id ty

def successors (id : TypeId) : List TypeId := edgesOf (actionsAt store facts checkedDeclarations id)

variable (roots : List TypeId) (rows : List EffectRowRef)

/-- A path of `n` edges leads from the roots, or from an argument of a row, to the id. -/
def TypeLevel (n : ℕ) (id : TypeId) : Prop :=
  Level (successors store facts checkedDeclarations) (edgesOf (startActions roots rows)) n id

def TypeReachable (id : TypeId) : Prop :=
  ∃ n, TypeLevel store facts checkedDeclarations roots rows n id

/-- Nothing but the depth can stop the enumeration: the ids it can come to are stored, their layouts
and parameters pass the checks, and the budget is enough for all of them. -/
structure Sufficient (budget : TypeSubstitutionBudget) (ids : Finset TypeId) : Prop where
  reachable : ∀ id, id ∈ ids ↔ TypeReachable store facts checkedDeclarations roots rows id
  stored : ∀ id ∈ ids, (store.get id).isSome
  passes : ∀ id ∈ ids, Passes (actionsAt store facts checkedDeclarations id)
  nodes : budget.nodes + ids.card ≤ budget.maxNodes
  edges : budget.edges + costOf (startActions roots rows) +
    ∑ id ∈ ids, costOf (actionsAt store facts checkedDeclarations id) ≤ budget.maxEdges

end

section
variable (store : TypeStore) (facts : GraphFacts) (checkedDeclarations : Map TypeId TypeId)

/-- A node that is stored, passes its checks and fits in the budget is visited. -/
theorem visitNode_ok (walker : Walker) {id : TypeId} (depth : ℕ)
    (hstored : (store.get id).isSome)
    (hpass : Passes (actionsAt store facts checkedDeclarations id))
    (hnode : walker.budget.nodes + 1 ≤ walker.budget.maxNodes)
    (hedges : walker.budget.edges + costOf (actionsAt store facts checkedDeclarations id) ≤
      walker.budget.maxEdges) :
    visitNode store facts checkedDeclarations walker id depth = .ok {
      queue := walker.queue ++ ((successors store facts checkedDeclarations id).filter
        (· ∉ walker.seen)).map (·, depth + 1)
      seen := walker.seen
      visited := walker.visited ++ [id]
      budget := { walker.budget with
        nodes := walker.budget.nodes + 1
        edges := walker.budget.edges +
          costOf (actionsAt store facts checkedDeclarations id) } } := by
  have hcharge : walker.budget.chargeNode =
      .ok { walker.budget with nodes := walker.budget.nodes + 1 } := by
    unfold TypeSubstitutionBudget.chargeNode
    rw [if_neg (by omega)]
  obtain ⟨ty, hty⟩ := Option.isSome_iff_exists.mp hstored
  unfold visitNode
  rw [hcharge]
  simp only [bind, Except.bind, hty]
  unfold successors
  unfold actionsAt at hpass hedges ⊢
  simp only [hty] at hpass hedges ⊢
  by_cases hdeclared : (checkedDeclarations.get id).isSome
  · simp [hdeclared, costOf, pure, Except.pure]
  · simp only [hdeclared, if_false, Bool.false_eq_true] at hpass hedges ⊢
    exact performAll_ok hpass (depth + 1) _ hedges

variable (roots : List TypeId) (rows : List EffectRowRef) (maxDepth : ℕ)

/-- What holds of the walker before each round of the loop. -/
structure Walk (budget : TypeSubstitutionBudget) (d : ℕ) (walker : Walker) : Prop where
  leveled : Leveled (successors store facts checkedDeclarations) (edgesOf (startActions roots rows))
    d walker.queue walker.seen
  same : ∀ id, id ∈ walker.seen ↔ id ∈ walker.visited
  nodup : walker.visited.Nodup
  near : ∀ id ∈ walker.visited,
    ∃ k ≤ maxDepth, TypeLevel store facts checkedDeclarations roots rows k id
  maxNodes : walker.budget.maxNodes = budget.maxNodes
  maxEdges : walker.budget.maxEdges = budget.maxEdges
  nodes : walker.budget.nodes = budget.nodes + walker.visited.length
  edges : walker.budget.edges = budget.edges + costOf (startActions roots rows) +
    (walker.visited.map fun id => costOf (actionsAt store facts checkedDeclarations id)).sum

end

section
variable {store : TypeStore} {facts : GraphFacts} {checkedDeclarations : Map TypeId TypeId}
  {roots : List TypeId} {rows : List EffectRowRef} {maxDepth : ℕ}
  {budget : TypeSubstitutionBudget} {ids : Finset TypeId}

/-- The round of the loop that visits a new id. -/
theorem walkGraph_take (n : ℕ) {id : TypeId} {depth : ℕ} {queue : List (TypeId × ℕ)}
    {seen visited : List TypeId} {current : TypeSubstitutionBudget} {walker : Walker}
    (hseen : id ∉ seen) (hdeep : ¬ maxDepth < depth)
    (hvisit : visitNode store facts checkedDeclarations ⟨queue, id :: seen, visited, current⟩ id
      depth = .ok walker) :
    walkGraph store facts checkedDeclarations maxDepth (n + 1)
        ⟨(id, depth) :: queue, seen, visited, current⟩ =
      walkGraph store facts checkedDeclarations maxDepth n walker := by
  simp only [walkGraph, hseen, hdeep, if_false, hvisit]

variable (hs : Sufficient store facts checkedDeclarations roots rows budget ids)
include hs

/-- An enough budget is still enough for one more of the ids. -/
theorem Sufficient.fits {visited : List TypeId} {id : TypeId} (hnodup : (id :: visited).Nodup)
    (hmem : ∀ v ∈ id :: visited, v ∈ ids) :
    budget.nodes + visited.length + 1 ≤ budget.maxNodes ∧
    budget.edges + costOf (startActions roots rows) +
      (visited.map fun v => costOf (actionsAt store facts checkedDeclarations v)).sum +
      costOf (actionsAt store facts checkedDeclarations id) ≤ budget.maxEdges := by
  have hsub : (id :: visited).toFinset ⊆ ids := by
    intro v hv
    exact hmem v (List.mem_toFinset.mp hv)
  have hcard : visited.length + 1 ≤ ids.card := by
    have h := Finset.card_le_card hsub
    rwa [List.toFinset_card_of_nodup hnodup, List.length_cons] at h
  have hsum : costOf (actionsAt store facts checkedDeclarations id) +
      (visited.map fun v => costOf (actionsAt store facts checkedDeclarations v)).sum ≤
      ∑ v ∈ ids, costOf (actionsAt store facts checkedDeclarations v) := by
    have h := Finset.sum_le_sum_of_subset
      (f := fun v => costOf (actionsAt store facts checkedDeclarations v)) hsub
    rwa [List.sum_toFinset _ hnodup, List.map_cons, List.sum_cons] at h
  have hnodes := hs.nodes
  have hedges := hs.edges
  exact ⟨by omega, by omega⟩

theorem TypeLevel.mem {n : ℕ} {id : TypeId}
    (h : TypeLevel store facts checkedDeclarations roots rows n id) :
    id ∈ ids :=
  (hs.reachable id).mpr ⟨n, h⟩

/-- A new id that is near enough is visited, and what is left to do gets less. -/
theorem Walk.take {d depth : ℕ} {id : TypeId} {queue : List (TypeId × ℕ)}
    {seen visited : List TypeId} {current : TypeSubstitutionBudget}
    (h : Walk store facts checkedDeclarations roots rows maxDepth budget d
      ⟨(id, depth) :: queue, seen, visited, current⟩)
    (hseen : id ∉ seen) (hdeep : ¬ maxDepth < depth) :
    ∃ walker, visitNode store facts checkedDeclarations ⟨queue, id :: seen, visited, current⟩ id
        depth = .ok walker ∧
      Walk store facts checkedDeclarations roots rows maxDepth budget depth walker ∧
      walker.budget.maxEdges - walker.budget.edges + walker.queue.length <
        current.maxEdges - current.edges + (queue.length + 1) := by
  obtain ⟨hlevel, -⟩ := h.leveled.shortest hseen
  have hvisited : id ∉ visited := fun hid => hseen ((h.same id).mpr hid)
  have hnodup : (id :: visited).Nodup := List.nodup_cons.mpr ⟨hvisited, h.nodup⟩
  have hmem : ∀ v ∈ id :: visited, v ∈ ids := by
    intro v hv
    rcases List.mem_cons.mp hv with rfl | hv
    · exact TypeLevel.mem hs hlevel
    · obtain ⟨k, -, hk⟩ := h.near v hv
      exact TypeLevel.mem hs hk
  have hid : id ∈ ids := hmem id List.mem_cons_self
  obtain ⟨hnodes, hedges⟩ := hs.fits hnodup hmem
  have hcount := h.nodes
  have hspent := h.edges
  have hmaxNodes := h.maxNodes
  have hmaxEdges := h.maxEdges
  dsimp only at hcount hspent hmaxNodes hmaxEdges
  have hvisit := visitNode_ok store facts checkedDeclarations
    ⟨queue, id :: seen, visited, current⟩ depth (hs.stored id hid)
    (hs.passes id hid) (by dsimp only; omega) (by dsimp only; omega)
  refine ⟨_, hvisit, ?_, ?_⟩
  · exact {
      leveled := h.leveled.take (id :: seen) fun b => List.mem_cons
      same := fun b => by
        have hb := h.same b
        simp only [List.mem_cons, List.mem_append, List.not_mem_nil, or_false] at hb ⊢
        rw [hb, or_comm]
      nodup := List.nodup_append_comm.mp hnodup
      near := fun b hb => by
        rcases List.mem_append.mp hb with hb | hb
        · exact h.near b hb
        · cases List.mem_singleton.mp hb
          exact ⟨depth, by omega, hlevel⟩
      maxNodes := hmaxNodes
      maxEdges := hmaxEdges
      nodes := by
        simp only [List.length_append, List.length_cons, List.length_nil]
        omega
      edges := by
        simp only [List.map_append, List.map_cons, List.map_nil, List.sum_append,
          List.sum_cons, List.sum_nil]
        omega }
  · have hnew := length_edgesOf_le (actionsAt store facts checkedDeclarations id)
    have hfilter := List.length_filter_le (fun b => decide (b ∉ id :: seen))
      (successors store facts checkedDeclarations id)
    unfold successors at hfilter
    dsimp only
    rw [List.length_append, List.length_map]
    unfold successors
    omega

/-- The loop either meets an id that is too far, or visits all ids. -/
theorem walkGraph_spec (n d : ℕ) (walker : Walker)
    (h : Walk store facts checkedDeclarations roots rows maxDepth budget d walker)
    (hfuel : walker.budget.maxEdges - walker.budget.edges + walker.queue.length < n) :
    (walkGraph store facts checkedDeclarations maxDepth n walker =
        some (.error (.expansionDepth maxDepth)) ∧
      ∃ id, TypeReachable store facts checkedDeclarations roots rows id ∧
        ∀ k, TypeLevel store facts checkedDeclarations roots rows k id → maxDepth < k) ∨
    ∃ out, walkGraph store facts checkedDeclarations maxDepth n walker = some (.ok out) ∧
      out.Nodup ∧
      (∀ id, id ∈ out ↔ TypeReachable store facts checkedDeclarations roots rows id) ∧
      ∀ id, TypeReachable store facts checkedDeclarations roots rows id →
        ∃ k ≤ maxDepth, TypeLevel store facts checkedDeclarations roots rows k id := by
  induction n generalizing d walker with
  | zero => omega
  | succ n ih =>
    obtain ⟨queue, seen, visited, current⟩ := walker
    cases queue with
    | nil =>
      right
      have hall : ∀ id, TypeReachable store facts checkedDeclarations roots rows id →
          id ∈ visited := by
        intro id hid
        obtain ⟨k, hk⟩ := hid
        exact (h.same id).mp (h.leveled.complete hk)
      refine ⟨visited, rfl, h.nodup, fun id => ⟨fun hid => ?_, hall id⟩, fun id hid => ?_⟩
      · obtain ⟨k, -, hk⟩ := h.near id hid
        exact ⟨k, hk⟩
      · exact h.near id (hall id hid)
    | cons entry queue =>
      obtain ⟨id, depth⟩ := entry
      simp only [List.length_cons] at hfuel
      by_cases hseen : id ∈ seen
      · have hstep : walkGraph store facts checkedDeclarations maxDepth (n + 1)
            ⟨(id, depth) :: queue, seen, visited, current⟩ =
            walkGraph store facts checkedDeclarations maxDepth n
              ⟨queue, seen, visited, current⟩ := by
          simp only [walkGraph, hseen, if_true]
        rw [hstep]
        refine ih depth ⟨queue, seen, visited, current⟩ ?_ (by dsimp only; omega)
        exact { h with leveled := h.leveled.skip hseen }
      · obtain ⟨hlevel, hshortest⟩ := h.leveled.shortest hseen
        by_cases hdeep : maxDepth < depth
        · left
          refine ⟨by simp only [walkGraph, hseen, hdeep, if_true, if_false], id,
            ⟨depth, hlevel⟩, fun k hk => ?_⟩
          have := hshortest k hk
          omega
        · obtain ⟨next, hvisit, hnext, hless⟩ := Walk.take hs h hseen hdeep
          rw [walkGraph_take n hseen hdeep hvisit]
          exact ih depth next hnext (by omega)

end

/-- With a budget that is enough, the enumeration fails for its depth exactly when a reachable id is
at no distance from the roots within the limit, and else returns each reachable id once. -/
theorem checkedTypeGraph_spec {store : TypeStore} {facts : GraphFacts}
    {checkedDeclarations : Map TypeId TypeId} {roots : List TypeId} {rows : List EffectRowRef}
    (maxDepth : ℕ) {budget : TypeSubstitutionBudget} {ids : Finset TypeId}
    (hs : Sufficient store facts checkedDeclarations roots rows budget ids) :
    (checkedTypeGraph store facts checkedDeclarations maxDepth roots rows budget =
        some (.error (.expansionDepth maxDepth)) ↔
      ∃ id, TypeReachable store facts checkedDeclarations roots rows id ∧
        ∀ n, TypeLevel store facts checkedDeclarations roots rows n id → maxDepth < n) ∧
    ((∀ id, TypeReachable store facts checkedDeclarations roots rows id →
        ∃ n ≤ maxDepth, TypeLevel store facts checkedDeclarations roots rows n id) →
      ∃ out, checkedTypeGraph store facts checkedDeclarations maxDepth roots rows budget =
          some (.ok out) ∧
        out.Nodup ∧
        ∀ id, id ∈ out ↔ TypeReachable store facts checkedDeclarations roots rows id) := by
  have hedges := hs.edges
  have hstart := performAll_ok (passes_startActions roots rows) 0 ⟨[], [], [], budget⟩
    (by dsimp only; omega)
  have hlength := length_edgesOf_le (startActions roots rows)
  have hrun : checkedTypeGraph store facts checkedDeclarations maxDepth roots rows budget =
      walkGraph store facts checkedDeclarations maxDepth (budget.maxEdges + 1)
        ⟨(edgesOf (startActions roots rows)).map (·, 0), [], [],
          { budget with edges := budget.edges + costOf (startActions roots rows) }⟩ := by
    unfold checkedTypeGraph
    rw [hstart]
    simp
  have hwalk : Walk store facts checkedDeclarations roots rows maxDepth budget 0
      ⟨(edgesOf (startActions roots rows)).map (·, 0), [], [],
        { budget with edges := budget.edges + costOf (startActions roots rows) }⟩ := {
    leveled := Leveled.init _ _
    same := fun id => Iff.rfl
    nodup := List.nodup_nil
    near := fun id hid => by cases hid
    maxNodes := rfl
    maxEdges := rfl
    nodes := rfl
    edges := rfl }
  have hspec := walkGraph_spec hs (budget.maxEdges + 1) 0 _ hwalk
    (by dsimp only; rw [List.length_map]; omega)
  rw [← hrun] at hspec
  rcases hspec with ⟨herror, hfar⟩ | ⟨out, hout, hnodup, hmem, hnear⟩
  · refine ⟨⟨fun _ => hfar, fun _ => herror⟩, fun hall => ?_⟩
    obtain ⟨id, hid, hfar⟩ := hfar
    obtain ⟨n, hn, hl⟩ := hall id hid
    have := hfar n hl
    omega
  · refine ⟨⟨fun herror => ?_, fun hfar => ?_⟩, fun _ => ⟨out, hout, hnodup, hmem⟩⟩
    · rw [hout] at herror
      cases herror
    · obtain ⟨id, hid, hfar⟩ := hfar
      obtain ⟨n, hn, hl⟩ := hnear id hid
      have := hfar n hl
      omega

/-- A nominal `Node` whose representation refers to it. -/
def nodeStore : TypeStore :=
  ⟨none, [.nominal ⟨"Node", [], some 1, false⟩, .record ⟨[⟨"next", 0⟩]⟩], ∅, ∅, ∅⟩

theorem nodeStore_reachable (id : TypeId) :
    TypeReachable nodeStore ⟨∅, ∅⟩ ∅ [0] [] id ↔ id ∈ ({0, 1} : Finset TypeId) := by
  have hzero : TypeLevel nodeStore ⟨∅, ∅⟩ ∅ [0] [] 0 0 := .root (by decide)
  have hone : TypeLevel nodeStore ⟨∅, ∅⟩ ∅ [0] [] 1 1 := .step hzero (by decide)
  constructor
  · rintro ⟨n, h⟩
    induction h with
    | @root a ha =>
      have ha : a ∈ [0] := ha
      simp at ha
      simp [ha]
    | @step n a b ha hb ih =>
      rcases Finset.mem_insert.mp ih with rfl | ih
      · have hb : b ∈ [1] := hb
        simp at hb
        simp [hb]
      · cases Finset.mem_singleton.mp ih
        have hb : b ∈ [0] := hb
        simp at hb
        simp [hb]
  · intro h
    rcases Finset.mem_insert.mp h with rfl | h
    · exact ⟨0, hzero⟩
    · cases Finset.mem_singleton.mp h
      exact ⟨1, hone⟩

theorem nodeStore_sufficient : Sufficient nodeStore ⟨∅, ∅⟩ ∅ [0] [] (.new 2 3) {0, 1} where
  reachable id := (nodeStore_reachable id).symm
  stored := by decide
  passes id hid e he := by
    rcases Finset.mem_insert.mp hid with rfl | hid
    · have he : GraphAction.fail e ∈ [.charge 0, .edge 1] := he
      simp at he
    · cases Finset.mem_singleton.mp hid
      have he : GraphAction.fail e ∈ [.edge 0] := he
      simp at he
  nodes := by decide
  edges := by decide

theorem checkedTypeGraph_spec_node :
    (checkedTypeGraph nodeStore ⟨∅, ∅⟩ ∅ 0 [0] [] (.new 2 3) =
        some (.error (.expansionDepth 0)) ↔
      ∃ id, TypeReachable nodeStore ⟨∅, ∅⟩ ∅ [0] [] id ∧
        ∀ n, TypeLevel nodeStore ⟨∅, ∅⟩ ∅ [0] [] n id → 0 < n) ∧
    ((∀ id, TypeReachable nodeStore ⟨∅, ∅⟩ ∅ [0] [] id →
        ∃ n ≤ 0, TypeLevel nodeStore ⟨∅, ∅⟩ ∅ [0] [] n id) →
      ∃ out, checkedTypeGraph nodeStore ⟨∅, ∅⟩ ∅ 0 [0] [] (.new 2 3) = some (.ok out) ∧
        out.Nodup ∧ ∀ id, id ∈ out ↔ TypeReachable nodeStore ⟨∅, ∅⟩ ∅ [0] [] id) :=
  checkedTypeGraph_spec 0 nodeStore_sufficient

/-- The edges are charged too: without a budget for them the root alone is refused, with room for
both ids and a limit above their depth. -/
theorem checkedTypeGraph_edges :
    (∀ id, TypeReachable nodeStore ⟨∅, ∅⟩ ∅ [0] [] id ↔ id ∈ ({0, 1} : Finset TypeId)) ∧
    checkedTypeGraph nodeStore ⟨∅, ∅⟩ ∅ 5 [0] [] (.new 2 0) =
      some (.error (.workLimit "edges" 0)) :=
  ⟨nodeStore_reachable, by decide⟩

end EtasFrontend.Types
