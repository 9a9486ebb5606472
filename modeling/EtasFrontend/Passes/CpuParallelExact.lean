import EtasFrontend.Passes.CpuParallel

/-! Which flows are eligible, and when these are the flows that share no global state. -/
namespace EtasFrontend.Passes
open Lib Hir Relation
open Effects (SummaryData EffectSummary)
open EtasFrontend.Types (TypeId TypeStore FieldType)

/-! Freezable types. -/

/-- The parts that have to be freezable, too. -/
def freezableParts (store : TypeStore) (ty : TypeId) : List TypeId :=
  match store.get ty with
  | some (.array inner) | some (.option inner) => [inner]
  | some (.tuple parts) => parts
  | some (.record record) => record.fields.map FieldType.ty
  | _ => []

/-- Neither a primitive type nor an integer literal, nor made of parts. -/
def neverFreezable (store : TypeStore) (ty : TypeId) : Bool :=
  match store.get ty with
  | some (.primitive _) | some (.integerLiteral _) | some (.array _) | some (.option _)
  | some (.tuple _) | some (.record _) => false
  | _ => true

/-- Data without handles, callables or other state in it. -/
def Freezable (store : TypeStore) (ty : TypeId) : Prop :=
  ∀ part, Below (freezableParts store) ty part → neverFreezable store part = false

theorem allM_freezableType (store : TypeStore) (fuel : ℕ) (parts : List TypeId) :
    Except.map not (parts.allM (freezableType store fuel)) =
      parts.anyM fun part => Except.map not (freezableType store fuel part) := by
  induction parts with
  | nil => rfl
  | cons part parts ih =>
    rw [List.allM_cons, List.anyM_cons]
    cases freezableType store fuel part with
    | error halt => rfl
    | ok freezable =>
      cases freezable with
      | true => exact ih
      | false => rfl

theorem searchStep_freezableType (store : TypeStore) (ty : TypeId) :
    SearchStep (freezableParts store) (neverFreezable store)
      (fun fuel ty => Except.map not (freezableType store fuel ty)) ty := by
  intro fuel
  cases hget : store.get ty with
  | none => simp [freezableType, neverFreezable, hget, Except.map]
  | some data =>
    simp only [freezableType, freezableParts, neverFreezable, hget]
    cases data with
    | array inner | option inner => exact (anyM_singleton _ _).symm
    | tuple parts => exact allM_freezableType store fuel parts
    | record record => exact allM_freezableType store fuel _
    | _ => rfl

/-- Parts of array, option, tuple and record types end. -/
def PartsEnd (store : TypeStore) : Prop :=
  WellFounded fun part ty => part ∈ freezableParts store ty

theorem freezableType_returns {store : TypeStore} (h : PartsEnd store) (ty : TypeId) :
    ∃ freezable, (∃ bound, ∀ fuel ≥ bound, freezableType store fuel ty = .ok freezable) ∧
      (freezable = true ↔ Freezable store ty) := by
  obtain ⟨found, ⟨bound, hfound⟩, hiff⟩ := search_returns _ (h.apply ty)
    fun part _ => searchStep_freezableType store part
  refine ⟨!found, ⟨bound, ?_⟩, ?_⟩
  · intro fuel hfuel
    have hnot : Except.map not (freezableType store fuel ty) = .ok found := hfound fuel hfuel
    cases hf : freezableType store fuel ty with
    | error halt => simp [hf, Except.map] at hnot
    | ok freezable =>
      rw [hf] at hnot
      cases hnot
      rw [Bool.not_not]
  · rw [Bool.not_eq_true', ← Bool.not_eq_true, hiff]
    simp only [Freezable, not_exists, not_and, Bool.not_eq_true]

section
variable {D : SummaryData} (program : CheckedProgram D)

/-- The expressions of the bodies of an item. -/
def InBodies (item : HirItemId) (expr : HirExprId) : Prop :=
  Below (frameChildren program.hir program.index) (.item item) (.node (.expr expr))

def pathItems (expr : HirExprId) : List HirItemId :=
  match program.hir.exprs[expr]? with
  | some (.path path) => (resolvedItem program path.resolution).toList
  | _ => []

def shorthandItem : HirFieldInit → Option HirItemId
  | .shorthand _ resolution => resolvedItem program resolution
  | .named _ _ => none

/-- Items that an expression names without a path: by a shorthand field, or by a method call that
is checked to call a flow. -/
def otherItems (methodCalls : HirExprId → Option HirItemId) (expr : HirExprId) : List HirItemId :=
  (methodCalls expr).toList ++
    match program.hir.exprs[expr]? with
    | some (.record _ fields) => fields.filterMap (shorthandItem program)
    | _ => []

def referencedItems (methodCalls : HirExprId → Option HirItemId) (expr : HirExprId) :
    List HirItemId :=
  pathItems program expr ++ otherItems program methodCalls expr

def IsTopLevelLet (item : HirItemId) : Prop :=
  ∃ value, program.hir.items[item]? = some (.topLevelLet value)

def IsFlow (item : HirItemId) : Prop := ∃ decl, program.hir.items[item]? = some (.flow decl)

variable (via : HirExprId → List HirItemId)

def Names (item target : HirItemId) : Prop := ∃ expr, InBodies program item expr ∧ target ∈ via expr

def References (item target : HirItemId) : Prop :=
  Names program via item target ∧ IsFlow program target

/-- The summary is not rejected, the output is freezable, and no top-level let is read. -/
structure Acceptable (item : HirItemId) : Prop where
  summary : ∃ summary, (item, summary) ∈ program.itemEffects ∧ rejection summary = none
  output : ∃ output, program.itemSignatures.get item = some (.flow output) ∧
    Freezable program.store output
  noLet : ∀ target, Names program via item target → ¬ IsTopLevelLet program target

/-- A flow and all that it references are acceptable. -/
def SharesNothing (item : HirItemId) : Prop :=
  ∀ flow, ReflTransGen (References program via) item flow → Acceptable program via flow

/-- Where the flows that paths reach are acceptable, what they name otherwise is no top-level let,
and no flow that shares something. -/
def OthersShareNothing (methodCalls : HirExprId → Option HirItemId) (item : HirItemId) : Prop :=
  SharesNothing program (pathItems program) item →
    ∀ flow, ReflTransGen (References program (pathItems program)) item flow →
      ∀ target, Names program (otherItems program methodCalls) flow target →
        ¬ IsTopLevelLet program target ∧
          (IsFlow program target →
            SharesNothing program (referencedItems program methodCalls) target)

/-- A program with checked types and effects: every flow that a path of a summarised item names is
summarised, too. -/
structure Checked : Prop where
  formed : program.hir.Formed
  itemsEnd : ItemsEnd program.index
  partsEnd : PartsEnd program.store
  keys : (program.itemEffects.map Prod.fst).Nodup
  items : ∀ item ∈ program.itemEffects.map Prod.fst, item < program.hir.items.length
  summarized : ∀ item ∈ program.itemEffects.map Prod.fst, ∀ target,
    References program (pathItems program) item target →
      target ∈ program.itemEffects.map Prod.fst

end

variable {D : SummaryData} {program : CheckedProgram D}

def frameItems (program : CheckedProgram D) : WalkFrame → List HirItemId
  | .node (.expr expr) => pathItems program expr
  | _ => []

variable {item target : HirItemId}

theorem names_pathItems :
    Names program (pathItems program) item target ↔
      ∃ frame, Below (frameChildren program.hir program.index) (.item item) frame ∧
        target ∈ frameItems program frame := by
  constructor
  · rintro ⟨expr, hin, ht⟩
    exact ⟨.node (.expr expr), hin, ht⟩
  · rintro ⟨frame, hb, ht⟩
    cases frame with
    | item _ | body _ => cases ht
    | node node =>
      cases node with
      | expr expr => exact ⟨expr, hb, ht⟩
      | _ => cases ht

/-- What a captured item adds. -/
structure Captured (program : CheckedProgram D) (captures captures' : CallableCaptures)
    (items : List HirItemId) : Prop where
  hasGlobal : captures'.hasGlobal = true ↔ captures.hasGlobal = true ∨
    ∃ target ∈ items, IsTopLevelLet program target
  dependencies : ∀ target, target ∈ captures'.dependencies ↔ target ∈ captures.dependencies ∨
    target ∈ items ∧ IsFlow program target

theorem captured_nil (captures : CallableCaptures) : Captured program captures captures [] :=
  ⟨by simp, by simp⟩

theorem Captured.append {a b c : CallableCaptures} {items items' : List HirItemId}
    (hab : Captured program a b items) (hbc : Captured program b c items') :
    Captured program a c (items ++ items') := by
  constructor
  · rw [hbc.hasGlobal, hab.hasGlobal]
    simp only [List.mem_append, or_and_right, exists_or, or_assoc]
  · intro target
    rw [hbc.dependencies, hab.dependencies]
    simp only [List.mem_append, or_and_right, or_assoc]

theorem captured_capture (captures : CallableCaptures) (item : HirItemId) :
    Captured program captures (capture program captures item) [item] := by
  cases hitem : program.hir.items[item]? with
  | none => constructor <;> simp [capture, hitem, IsTopLevelLet, IsFlow]
  | some data =>
    cases data with
    | flow decl =>
      constructor
      · simp [capture, hitem, IsTopLevelLet]
      · intro target
        simp only [capture, hitem, List.mem_append, List.mem_singleton]
        refine or_congr_right ⟨?_, And.left⟩
        rintro rfl
        exact ⟨rfl, decl, hitem⟩
    | _ => constructor <;> simp [capture, hitem, IsTopLevelLet, IsFlow]

theorem captured_visitFrame (captures : CallableCaptures) (frame : WalkFrame) :
    Captured program captures (visitFrame program captures frame) (frameItems program frame) := by
  cases frame with
  | item _ | body _ => exact captured_nil captures
  | node node =>
    cases node with
    | expr expr =>
      simp only [visitFrame, frameItems, enterExpr, pathItems]
      cases program.hir.exprs[expr]? with
      | none => exact captured_nil captures
      | some data =>
        cases data with
        | path path =>
          dsimp only
          cases resolvedItem program path.resolution with
          | none => exact captured_nil captures
          | some item => exact captured_capture captures item
        | _ => exact captured_nil captures
    | _ => exact captured_nil captures

theorem captured_foldl {D : SummaryData} (program : CheckedProgram D) (visited : List WalkFrame)
    (captures : CallableCaptures) :
    Captured program captures (visited.foldl (visitFrame program) captures)
      (visited.flatMap (frameItems program)) := by
  induction visited generalizing captures with
  | nil => exact captured_nil captures
  | cons frame visited ih =>
    rw [List.foldl_cons, List.flatMap_cons]
    exact (captured_visitFrame captures frame).append (ih _)

variable {item : HirItemId}

/-- The walk of an item captures what the paths of its bodies name. -/
theorem walkItem_captures (h : Checked program) (hitem : item < program.hir.items.length) :
    ∃ captures bound, (∀ fuel ≥ bound,
        walkItem program.hir program.index (visitFrame program) fuel item ⟨[], false⟩ =
          .ok captures) ∧
      (captures.hasGlobal = true ↔
        ∃ target, Names program (pathItems program) item target ∧ IsTopLevelLet program target) ∧
      ∀ target, target ∈ captures.dependencies ↔
        References program (pathItems program) item target := by
  obtain ⟨visited, hmem, hwalk⟩ :=
    walkItem_visits h.formed h.itemsEnd hitem (visitFrame program) ⟨[], false⟩
  have hcaptured := captured_foldl program visited ⟨[], false⟩
  have hnames : ∀ target, target ∈ visited.flatMap (frameItems program) ↔
      Names program (pathItems program) item target := by
    intro target
    rw [names_pathItems, List.mem_flatMap]
    simp only [hmem]
  refine ⟨_, visited.length, hwalk, ?_, ?_⟩
  · rw [hcaptured.hasGlobal]
    simp [hnames]
  · intro target
    rw [hcaptured.dependencies, hnames]
    simp [References]

theorem Checked.summary_unique (h : Checked program) {summary summary' : EffectSummary D}
    (hs : (item, summary) ∈ program.itemEffects) (hs' : (item, summary') ∈ program.itemEffects) :
    summary = summary' :=
  (Prod.mk.inj (List.inj_on_of_nodup_map h.keys hs hs' rfl)).2

/-- What is recorded of a callable. -/
structure Analyzed (program : CheckedProgram D) (item : HirItemId) (c : Callable) : Prop where
  callable : c.fact.callable = item
  eligible : c.fact.eligible = true ↔ Acceptable program (pathItems program) item
  dependencies : ∀ target, target ∈ c.dependencies ↔
    References program (pathItems program) item target

theorem signatureRejection_returns (h : Checked program) (item : HirItemId) (hasGlobal : Bool) :
    ∃ rejected bound, (∀ fuel ≥ bound,
        signatureRejection program fuel item hasGlobal = .ok rejected) ∧
      (rejected = none ↔ hasGlobal = false ∧ ∃ output,
        program.itemSignatures.get item = some (.flow output) ∧
          Freezable program.store output) := by
  cases hsig : program.itemSignatures.get item with
  | none => exact ⟨_, 0, fun fuel _ => by simp [signatureRejection, hsig]; rfl, by simp⟩
  | some signature =>
    cases signature with
    | flow output =>
      cases hasGlobal with
      | true => exact ⟨_, 0, fun fuel _ => by simp [signatureRejection, hsig]; rfl, by simp⟩
      | false =>
        obtain ⟨freezable, ⟨bound, hreturns⟩, hiff⟩ := freezableType_returns h.partsEnd output
        refine ⟨if freezable then none else some .nonFreezableCapture, bound, ?_, ?_⟩
        · intro fuel hfuel
          simp [signatureRejection, hsig, hreturns fuel hfuel, bind, Except.bind]
        · cases freezable <;> simp [← hiff]
    | _ => exact ⟨_, 0, fun fuel _ => by simp [signatureRejection, hsig]; rfl, by simp⟩

theorem analyzeCallable_returns (h : Checked program) {entry : HirItemId × EffectSummary D}
    (hentry : entry ∈ program.itemEffects) :
    ∃ callable bound, (∀ fuel ≥ bound, analyzeCallable program fuel entry = .ok callable) ∧
      Analyzed program entry.1 callable := by
  obtain ⟨captures, bound, hwalk, hglobal, hdeps⟩ :=
    walkItem_captures h (h.items entry.1 (List.mem_map_of_mem hentry))
  obtain ⟨rejected, bound', hsig, hnone⟩ :=
    signatureRejection_returns h entry.1 captures.hasGlobal
  have hlet : captures.hasGlobal = false ↔
      ∀ target, Names program (pathItems program) entry.1 target →
        ¬ IsTopLevelLet program target := by
    rw [← Bool.not_eq_true, hglobal]
    simp
  cases hr : rejection entry.2 with
  | some reason =>
    refine ⟨⟨⟨entry.1, (some reason).isNone, some reason, program.work entry.1⟩,
      captures.dependencies⟩, bound, fun fuel hfuel => ?_, rfl, ?_, hdeps⟩
    · simp only [analyzeCallable, hwalk fuel hfuel, hr, bind, Except.bind]
    · refine iff_of_false (by simp) ?_
      rintro ⟨⟨summary, hs, hnone⟩, -, -⟩
      rw [h.summary_unique hs hentry, hr] at hnone
      cases hnone
  | none =>
    refine ⟨⟨⟨entry.1, rejected.isNone, rejected, program.work entry.1⟩,
      captures.dependencies⟩, max bound bound', fun fuel hfuel => ?_, rfl, ?_, hdeps⟩
    · simp only [analyzeCallable, hwalk fuel (by omega), hr, hsig fuel (by omega), bind,
        Except.bind]
    · rw [Option.isNone_iff_eq_none, hnone, hlet]
      constructor
      · exact fun ⟨hno, hout⟩ => ⟨⟨entry.2, hentry, hr⟩, hout, hno⟩
      · exact fun hacc => ⟨hacc.noLet, hacc.output⟩

theorem mapM_analyzeCallable (h : Checked program)
    (entries : List (HirItemId × EffectSummary D)) (hsub : entries ⊆ program.itemEffects) :
    ∃ callables bound, (∀ fuel ≥ bound,
        entries.mapM (analyzeCallable program fuel) = .ok callables) ∧
      List.Forall₂ (fun entry callable => Analyzed program entry.1 callable) entries callables := by
  induction entries with
  | nil => exact ⟨[], 0, fun _ _ => rfl, .nil⟩
  | cons entry entries ih =>
    obtain ⟨callable, bound, hcallable, ha⟩ := analyzeCallable_returns h (hsub List.mem_cons_self)
    obtain ⟨callables, bound', hcallables, hall⟩ :=
      ih fun other hother => hsub (List.mem_cons_of_mem entry hother)
    refine ⟨callable :: callables, max bound bound', fun fuel hfuel => ?_, .cons ha hall⟩
    rw [List.mapM_cons, hcallable fuel (by omega), hcallables fuel (by omega)]
    rfl

/-- The dependencies of the callable of an item. -/
def dependenciesOf (callables : List Callable) (item : HirItemId) : List HirItemId :=
  callables.flatMap fun callable =>
    if callable.fact.callable = item then callable.dependencies else []

variable {callables : List Callable}

theorem mem_dependenciesOf :
    target ∈ dependenciesOf callables item ↔
      ∃ callable ∈ callables, callable.fact.callable = item ∧ target ∈ callable.dependencies := by
  simp [dependenciesOf, List.mem_ite_nil_right]

theorem ineligible_iff :
    ineligible callables item = true ↔
      ∃ callable ∈ callables, callable.fact.callable = item ∧ callable.fact.eligible = false := by
  simp [ineligible]

theorem mem_rejectedItems :
    item ∈ rejectedItems callables ↔ ∃ callable ∈ callables, callable.fact.callable = item ∧
      callable.fact.eligible = true ∧ ∃ target ∈ callable.dependencies,
        ineligible callables target = true := by
  simp only [rejectedItems, List.mem_map, List.mem_filter, Bool.and_eq_true, List.any_eq_true]
  constructor
  · rintro ⟨callable, ⟨hm, he, hd⟩, rfl⟩
    exact ⟨callable, hm, rfl, he, hd⟩
  · rintro ⟨callable, hm, rfl, he, hd⟩
    exact ⟨callable, ⟨hm, he, hd⟩, rfl⟩

/-- A round changes verdicts only. -/
structure SameGraph (callables callables' : List Callable) : Prop where
  items : callables'.map (fun c => c.fact.callable) = callables.map fun c => c.fact.callable
  dependencies : ∀ item, dependenciesOf callables' item = dependenciesOf callables item

theorem sameGraph_rejectItems (items : List HirItemId) (callables : List Callable) :
    SameGraph callables (rejectItems items callables) := by
  constructor
  · rw [rejectItems, List.map_map]
    apply List.map_congr_left
    intro callable _
    simp only [Function.comp_apply]
    split_ifs <;> rfl
  · intro item
    rw [dependenciesOf, rejectItems, List.flatMap_map]
    apply List.flatMap_congr
    intro callable _
    split_ifs <;> rfl

theorem ineligible_rejectItems {items : List HirItemId}
    (hitems : ∀ item ∈ items, ∃ c ∈ callables, c.fact.callable = item) :
    ineligible (rejectItems items callables) item = true ↔
      ineligible callables item = true ∨ item ∈ items := by
  rw [ineligible_iff, ineligible_iff]
  constructor
  · rintro ⟨callable', hm, rfl, he⟩
    obtain ⟨callable, hcallable, rfl⟩ := List.mem_map.mp hm
    by_cases hin : callable.fact.callable ∈ items
    · exact .inr (by simp [hin])
    · left
      simp only [hin, List.contains_eq_mem, decide_false, Bool.false_eq_true, if_false] at he ⊢
      exact ⟨callable, hcallable, rfl, he⟩
  · have hmap : ∀ callable ∈ callables,
        (callable.fact.eligible = false ∨ callable.fact.callable ∈ items) →
        ∃ c ∈ rejectItems items callables, c.fact.callable = callable.fact.callable ∧
          c.fact.eligible = false := by
      intro callable hcallable hor
      refine ⟨_, List.mem_map_of_mem hcallable, ?_, ?_⟩
      · dsimp only
        split_ifs <;> rfl
      · dsimp only
        split_ifs with hin
        · rfl
        · exact hor.resolve_right fun hm => hin (List.contains_iff_mem.mpr hm)
    rintro (⟨callable, hcallable, rfl, he⟩ | hin)
    · exact hmap callable hcallable (.inl he)
    · obtain ⟨callable, hcallable, rfl⟩ := hitems item hin
      exact hmap callable hcallable (.inr hin)

theorem sameGraph_spreadRejection (callables : List Callable) :
    SameGraph callables (spreadRejection callables) := by
  fun_induction spreadRejection callables with
  | case1 callables _ => exact ⟨rfl, fun _ => rfl⟩
  | case2 callables _ ih =>
    have hround := sameGraph_rejectItems (rejectedItems callables) callables
    exact ⟨ih.items.trans hround.items,
      fun item => (ih.dependencies item).trans (hround.dependencies item)⟩

theorem ineligible_round :
    ineligible (rejectItems (rejectedItems callables) callables) item = true ↔
      ineligible callables item = true ∨ item ∈ rejectedItems callables := by
  apply ineligible_rejectItems
  intro item hitem
  obtain ⟨callable, hm, hc, _⟩ := mem_rejectedItems.mp hitem
  exact ⟨callable, hm, hc⟩

theorem ineligible_spread_of_ineligible (h : ineligible callables item = true) :
    ineligible (spreadRejection callables) item = true := by
  fun_induction spreadRejection callables with
  | case1 callables _ => exact h
  | case2 callables _ ih => exact ih (ineligible_round.mpr (.inl h))

theorem ineligible_spread_from (h : ineligible (spreadRejection callables) item = true) :
    ∃ target, Below (dependenciesOf callables) item target ∧
      ineligible callables target = true := by
  fun_induction spreadRejection callables with
  | case1 callables _ => exact ⟨item, .refl, h⟩
  | case2 callables _ ih =>
    obtain ⟨target, hb, ht⟩ := ih h
    have hsame := sameGraph_rejectItems (rejectedItems callables) callables
    have hb : Below (dependenciesOf callables) item target :=
      hb.mono fun a => hsame.dependencies a ▸ List.Subset.refl _
    rcases ineligible_round.mp ht with ht | ht
    · exact ⟨target, hb, ht⟩
    · obtain ⟨callable, hm, hc, _, next, hnext, hn⟩ := mem_rejectedItems.mp ht
      exact ⟨next, hb.tail (mem_dependenciesOf.mpr ⟨callable, hm, hc, hnext⟩), hn⟩

theorem rejectedItems_spread (callables : List Callable) :
    rejectedItems (spreadRejection callables) = [] := by
  fun_induction spreadRejection callables with
  | case1 callables h => exact h
  | case2 callables _ ih => exact ih

theorem ineligible_spread_iff :
    ineligible (spreadRejection callables) item = true ↔
      ∃ target, Below (dependenciesOf callables) item target ∧
        ineligible callables target = true := by
  refine spread_iff (fun item => ineligible (spreadRejection callables) item = true) ?_ ?_ ?_ item
  · exact fun item h => ineligible_spread_of_ineligible h
  · exact fun item h => ineligible_spread_from h
  · intro item target htarget hmarked
    rw [← (sameGraph_spreadRejection callables).dependencies] at htarget
    obtain ⟨callable, hm, hc, ht⟩ := mem_dependenciesOf.mp htarget
    cases he : callable.fact.eligible with
    | false => exact ineligible_iff.mpr ⟨callable, hm, hc, he⟩
    | true =>
      have hrejected : item ∈ rejectedItems (spreadRejection callables) :=
        mem_rejectedItems.mpr ⟨callable, hm, hc, he, target, ht, hmarked⟩
      rw [rejectedItems_spread] at hrejected
      cases hrejected

variable {entries : List (HirItemId × EffectSummary D)}

theorem items_of_analyzed
    (h : List.Forall₂ (fun entry callable => Analyzed program entry.1 callable) entries callables) :
    callables.map (fun c => c.fact.callable) = entries.map Prod.fst := by
  induction h with
  | nil => rfl
  | cons ha _ ih => rw [List.map_cons, List.map_cons, ih, ha.callable]

theorem analyzed_of_mem
    (h : List.Forall₂ (fun entry callable => Analyzed program entry.1 callable) entries callables)
    {callable : Callable} (hm : callable ∈ callables) :
    Analyzed program callable.fact.callable callable := by
  induction h with
  | nil => cases hm
  | cons ha _ ih =>
    rcases List.mem_cons.mp hm with rfl | hm
    · rw [ha.callable]
      exact ha
    · exact ih hm

/-- The dependencies of the callables are the references by paths, as far as they are summarised. -/
theorem ineligible_iff_not_sharesNothing (h : Checked program)
    (hall : List.Forall₂ (fun entry callable => Analyzed program entry.1 callable)
      program.itemEffects callables) (hitem : item ∈ program.itemEffects.map Prod.fst) :
    (∃ target, Below (dependenciesOf callables) item target ∧
        ineligible callables target = true) ↔
      ¬ SharesNothing program (pathItems program) item := by
  have hitems := items_of_analyzed hall
  have hfind : ∀ item ∈ program.itemEffects.map Prod.fst, ∃ callable ∈ callables,
      callable.fact.callable = item := by
    intro item hitem
    rw [← hitems] at hitem
    exact List.mem_map.mp hitem
  have hbad : ∀ item, ineligible callables item = true →
      ¬ Acceptable program (pathItems program) item := by
    intro item hi hacc
    obtain ⟨callable, hm, rfl, he⟩ := ineligible_iff.mp hi
    rw [(analyzed_of_mem hall hm).eligible.mpr hacc] at he
    cases he
  have hedge : ∀ item target, target ∈ dependenciesOf callables item →
      References program (pathItems program) item target := by
    intro item target ht
    obtain ⟨callable, hm, rfl, hdep⟩ := mem_dependenciesOf.mp ht
    exact ((analyzed_of_mem hall hm).dependencies target).mp hdep
  constructor
  · rintro ⟨target, hb, hi⟩ hshares
    exact hbad target hi (hshares target (ReflTransGen.mono hedge _ _ hb))
  · intro hshares
    simp only [SharesNothing, not_forall] at hshares
    obtain ⟨flow, hreach, hacc⟩ := hshares
    -- a path from a summarised item stays among the summarised ones
    have hbelow : Below (dependenciesOf callables) item flow ∧
        flow ∈ program.itemEffects.map Prod.fst := by
      clear hacc
      induction hreach with
      | refl => exact ⟨.refl, hitem⟩
      | tail _ href ih =>
        obtain ⟨callable, hm, rfl⟩ := hfind _ ih.2
        have hdep := ((analyzed_of_mem hall hm).dependencies _).mpr href
        exact ⟨ih.1.tail (mem_dependenciesOf.mpr ⟨callable, hm, rfl, hdep⟩),
          h.summarized _ ih.2 _ href⟩
    obtain ⟨callable, hm, rfl⟩ := hfind flow hbelow.2
    refine ⟨_, hbelow.1, ineligible_iff.mpr ⟨callable, hm, rfl, ?_⟩⟩
    rw [← Bool.not_eq_true]
    exact fun he => hacc ((analyzed_of_mem hall hm).eligible.mp he)

/-- The pass returns a fact for every summarised item, eligible where nothing unacceptable is
reached by paths. -/
theorem analyze_returns (h : Checked program) :
    ∃ bound facts, (∀ fuel ≥ bound, analyzeCpuParallelEligibility program fuel = .ok facts) ∧
      facts.map CpuParallelEligibilityFact.callable = program.itemEffects.map Prod.fst ∧
      ∀ fact ∈ facts, fact.eligible = true ↔
        SharesNothing program (pathItems program) fact.callable := by
  obtain ⟨callables, bound, hreturns, hall⟩ :=
    mapM_analyzeCallable h program.itemEffects (List.Subset.refl _)
  have hitems : (spreadRejection callables).map (fun c => c.fact.callable) =
      program.itemEffects.map Prod.fst :=
    (sameGraph_spreadRejection callables).items.trans (items_of_analyzed hall)
  refine ⟨bound, (spreadRejection callables).map Callable.fact, fun fuel hfuel => ?_, ?_, ?_⟩
  · simp only [analyzeCpuParallelEligibility, hreturns fuel hfuel, bind, Except.bind]
  · rw [List.map_map]
    exact hitems
  · intro fact hfact
    obtain ⟨callable, hm, rfl⟩ := List.mem_map.mp hfact
    have hkey : callable.fact.callable ∈ program.itemEffects.map Prod.fst := by
      rw [← hitems]
      exact List.mem_map_of_mem (f := fun c : Callable => c.fact.callable) hm
    have hnodup : ((spreadRejection callables).map fun c => c.fact.callable).Nodup := by
      rw [hitems]
      exact h.keys
    rw [← not_iff_not, ← ineligible_iff_not_sharesNothing h hall hkey, ← ineligible_spread_iff,
      ineligible_iff, Bool.not_eq_true]
    constructor
    · exact fun he => ⟨callable, hm, rfl, he⟩
    · rintro ⟨other, hother, hsame, he⟩
      rw [← List.inj_on_of_nodup_map hnodup hother hm hsame]
      exact he

variable {via via' : HirExprId → List HirItemId}

theorem Names.mono (hsub : ∀ expr, via expr ⊆ via' expr) (h : Names program via item target) :
    Names program via' item target := by
  obtain ⟨expr, hin, ht⟩ := h
  exact ⟨expr, hin, hsub expr ht⟩

theorem SharesNothing.anti
    (hsub : ∀ expr, via expr ⊆ via' expr) (h : SharesNothing program via' item) :
    SharesNothing program via item := by
  intro flow hreach
  have hacc := h flow (ReflTransGen.mono (fun a b href => ⟨href.1.mono hsub, href.2⟩) _ _ hreach)
  exact ⟨hacc.summary, hacc.output, fun target ht => hacc.noLet target (ht.mono hsub)⟩

variable {methodCalls : HirExprId → Option HirItemId}

theorem names_referencedItems :
    Names program (referencedItems program methodCalls) item target ↔
      Names program (pathItems program) item target ∨
        Names program (otherItems program methodCalls) item target := by
  simp only [Names, referencedItems, List.mem_append, and_or_left, exists_or]

/-- Nothing is shared exactly when nothing is shared by paths, and what is named otherwise shares
nothing either. -/
theorem sharesNothing_referencedItems_iff :
    SharesNothing program (referencedItems program methodCalls) item ↔
      SharesNothing program (pathItems program) item ∧
        OthersShareNothing program methodCalls item := by
  have hsub : ∀ expr, pathItems program expr ⊆ referencedItems program methodCalls expr :=
    fun expr => List.subset_append_left _ _
  constructor
  · intro h
    refine ⟨h.anti hsub, fun _ flow hreach target hother => ?_⟩
    have hfull := ReflTransGen.mono
      (fun a b (href : References program (pathItems program) a b) =>
        (⟨href.1.mono hsub, href.2⟩ : References program (referencedItems program methodCalls) a b))
      _ _ hreach
    have hname := names_referencedItems.mpr (Or.inr hother)
    refine ⟨(h flow hfull).noLet target hname, fun hflow => ?_⟩
    exact fun next hnext => h next ((hfull.tail ⟨hname, hflow⟩).trans hnext)
  · rintro ⟨hpaths, hothers⟩ flow hreach
    have hothers := hothers hpaths
    -- up to the first name that is not a path, only paths are followed
    have hsplit : ReflTransGen (References program (pathItems program)) item flow ∨
        ∃ target, SharesNothing program (referencedItems program methodCalls) target ∧
          ReflTransGen (References program (referencedItems program methodCalls)) target flow := by
      induction hreach with
      | refl => exact .inl .refl
      | tail _ href ih =>
        rcases ih with ih | ⟨target, hshares, ih⟩
        · rcases names_referencedItems.mp href.1 with hpath | hother
          · exact .inl (ih.tail ⟨hpath, href.2⟩)
          · exact .inr ⟨_, (hothers _ ih _ hother).2 href.2, .refl⟩
        · exact .inr ⟨target, hshares, ih.tail href⟩
    rcases hsplit with hpath | ⟨target, hshares, hrest⟩
    · have hacc := hpaths flow hpath
      refine ⟨hacc.summary, hacc.output, fun target ht => ?_⟩
      rcases names_referencedItems.mp ht with ht | ht
      · exact hacc.noLet target ht
      · exact (hothers flow hpath target ht).1
    · exact hshares flow hrest

/-- The pass returns, and an item is eligible exactly when no reference of its bodies leads to an
unacceptable flow, if and only if the shorthand fields and method calls that its paths lead to do
not. -/
theorem analyzeCpuParallelEligibility_exact_iff (h : Checked program)
    (methodCalls : HirExprId → Option HirItemId) :
    ∃ bound, ∀ fuel ≥ bound, ∃ facts, analyzeCpuParallelEligibility program fuel = .ok facts ∧
      facts.map CpuParallelEligibilityFact.callable = program.itemEffects.map Prod.fst ∧
      ∀ fact ∈ facts,
        ((fact.eligible = true ↔
            SharesNothing program (referencedItems program methodCalls) fact.callable) ↔
          OthersShareNothing program methodCalls fact.callable) := by
  obtain ⟨bound, facts, hreturns, hkeys, hiff⟩ := analyze_returns h
  refine ⟨bound, fun fuel hfuel => ⟨facts, hreturns fuel hfuel, hkeys, ?_⟩⟩
  intro fact hfact
  rw [hiff fact hfact, sharesNothing_referencedItems_iff]
  constructor
  · intro heq hpaths
    exact (heq.mp hpaths).2 hpaths
  · exact fun hothers => ⟨fun hpaths => ⟨hpaths, hothers⟩, And.left⟩

/-! A top-level let and a flow. -/

def plainData : SummaryData where
  Outcome := Unit
  ExitSite := Unit
  Gap := Unit
  HandlerGap := Unit
  RequestSignature := Unit
  ResidualRef := Unit
  RequirementFact := Unit
  outcomeLe _ _ := true
  exitSiteLe _ _ := true
  effectLe _ _ := true
  debug _ := ""

/-- `let cap = 5; flow f() = e`, for the first of the given expressions, of a record type with a
number. -/
def letAndFlow (exprs : List HirExpr) : CheckedProgram plainData where
  hir := { HirProgram.empty with
    items := [.topLevelLet 0, .flow ⟨1, [], .block 0, 1⟩]
    exprs := .literal (.int "5") :: exprs
    blocks := [⟨[], some 1, 2⟩]
    symbols := ⟨[⟨"cap", .topLevelLet, .topLevelLet 0⟩, ⟨"f", .flow, .item 1⟩], ∅⟩ }
  index := { HirTreeIndex.empty with
    itemBodies := Map.ofList [(0, [⟨0, .topLevelLet⟩]), (1, [⟨1, .flow⟩])]
    bodyOwner := Map.ofList [(⟨0, .topLevelLet⟩, .item 0), (⟨1, .flow⟩, .item 1)]
    bodyExprs := Map.ofList [(⟨0, .topLevelLet⟩, [0])]
    bodyBlocks := Map.ofList [(⟨1, .flow⟩, [0])] }
  definingItem := fun symbol => some symbol
  itemEffects := [(1, EffectSummary.default)]
  itemSignatures := Map.ofList [(1, .flow 1)]
  store := { TypeStore.new with types := [.primitive .i32, .record ⟨[⟨"cap", 0⟩]⟩] }
  work := fun _ => none

/-- `{ cap: 6 }` -/
def namedRecord : List HirExpr := [.record none [.named "cap" 2], .literal (.int "6")]

/-- `{ cap }` -/
def shorthandRecord : List HirExpr := [.record none [.shorthand "cap" (.resolved 0)]]

def letAndFlowRank : HirTreeChild → ℕ
  | .block _ => 10
  | .expr expr => 9 - expr
  | _ => 0

theorem partsEnd_letAndFlow (exprs : List HirExpr) : PartsEnd (letAndFlow exprs).store := by
  refine Subrelation.wf ?_ Nat.lt_wfRel.wf
  intro part ty hpart
  rcases ty with _ | _ | ty
  · cases hpart
  · rw [List.mem_singleton.mp hpart]
    exact Nat.one_pos
  · cases hpart

theorem checked_letAndFlow {exprs : List HirExpr} (h : (letAndFlow exprs).hir.Formed) :
    Checked (letAndFlow exprs) where
  formed := h
  itemsEnd := ⟨fun item => ⟨item, fun child hc => by cases hc⟩⟩
  partsEnd := partsEnd_letAndFlow exprs
  keys := by simp [letAndFlow]
  items := by simp [letAndFlow]
  summarized := by
    rintro item - target ⟨-, decl, htarget⟩
    rcases target with _ | _ | target
    · cases htarget
    · simp [letAndFlow]
    · cases htarget

theorem formed_namedRecord : (letAndFlow namedRecord).hir.Formed :=
  .of_rank letAndFlowRank (by decide)

theorem formed_shorthandRecord : (letAndFlow shorthandRecord).hir.Formed :=
  .of_rank letAndFlowRank (by decide)

theorem analyzeCpuParallelEligibility_namedRecord : ∃ bound, ∀ fuel ≥ bound, ∃ facts,
    analyzeCpuParallelEligibility (letAndFlow namedRecord) fuel = .ok facts ∧
      ∀ fact ∈ facts, fact.eligible = true ↔ SharesNothing (letAndFlow namedRecord)
        (referencedItems (letAndFlow namedRecord) fun _ => none) fact.callable := by
  obtain ⟨bound, hreturns⟩ := analyzeCpuParallelEligibility_exact_iff
    (checked_letAndFlow formed_namedRecord) fun _ => none
  refine ⟨bound, fun fuel hfuel => ?_⟩
  obtain ⟨facts, hfacts, _, hiff⟩ := hreturns fuel hfuel
  refine ⟨facts, hfacts, fun fact hfact => (hiff fact hfact).mpr ?_⟩
  rintro - flow - target ⟨expr, -, htarget⟩
  rcases expr with _ | _ | _ | expr <;> cases htarget

/-- A flow that reads a top-level let in a shorthand field is eligible. -/
theorem analyzeCpuParallelEligibility_shorthandRecord :
    Checked (letAndFlow shorthandRecord) ∧
      analyzeCpuParallelEligibility (letAndFlow shorthandRecord) 8 =
        .ok [⟨1, true, none, none⟩] ∧
      ¬ SharesNothing (letAndFlow shorthandRecord)
        (referencedItems (letAndFlow shorthandRecord) fun _ => none) 1 := by
  refine ⟨checked_letAndFlow formed_shorthandRecord, ?_, ?_⟩
  · have hcallable : analyzeCallable (letAndFlow shorthandRecord) 8 (1, EffectSummary.default) =
        .ok ⟨⟨1, true, none, none⟩, []⟩ := rfl
    have hitems : rejectedItems [⟨⟨1, true, none, none⟩, []⟩] = [] := rfl
    have hcallables : (letAndFlow shorthandRecord).itemEffects.mapM
        (analyzeCallable (letAndFlow shorthandRecord) 8) = .ok [⟨⟨1, true, none, none⟩, []⟩] := by
      change [(1, EffectSummary.default)].mapM _ = _
      rw [List.mapM_cons, hcallable]
      rfl
    rw [analyzeCpuParallelEligibility, hcallables]
    change Except.ok ((spreadRejection _).map Callable.fact) = _
    rw [spreadRejection, dif_pos hitems]
    rfl
  · intro h
    have hbody : Below (frameChildren (letAndFlow shorthandRecord).hir
        (letAndFlow shorthandRecord).index) (.item 1) (.body ⟨1, .flow⟩) := .single (by decide)
    have hexpr : InBodies (letAndFlow shorthandRecord) 1 1 :=
      (hbody.tail (c := .node (.block 0)) (by decide)).tail (by decide)
    exact (h 1 .refl).noLet 0 ⟨1, hexpr, by decide⟩ ⟨0, rfl⟩

end EtasFrontend.Passes
