import EtasFrontend.Alias.Semantics
import EtasFrontend.Lib.Fallible
import Mathlib.SetTheory.Cardinal.Order

/-! Over all runs of the analysis: the facts are those of the last records, and they are safe to
read as long as no call narrows what is recorded, by what it is given. -/
namespace EtasFrontend.Alias
open Lib
open Analysis (Control)
open Hir (HirProgram HirItemId HirExprId HirStmtId HirPatId HirHandlerArmId HirArg HirExpr
  SymbolId)

/-- The calls by which the interpreter and the solver can change what the semantics keeps. -/
inductive AliasCall where
  | beginUnit (unit : ContextualAliasUnit)
  | endUnit (unit : ContextualAliasUnit) (exit : Control AliasState)
  | afterExprControl (expr : HirExprId) (control : Control AliasState)
  | afterStmtControl (stmt : HirStmtId) (control : Control AliasState)
  | perform (expr : HirExprId) (args : List HirArg) (state : AliasState)
  | methodCall (expr : HirExprId) (state : AliasState)
  | stageCompose (expr : HirExprId) (state : AliasState)
  | pipeline (expr : HirExprId) (state : AliasState)
  | tryExpr (expr : HirExprId) (state : AliasState)
  | handleExpr (expr : HirExprId) (state : AliasState)
  | lambdaBoundary (expr : HirExprId) (state : AliasState)
  | handlerBoundary (expr : HirExprId) (state : AliasState)
  | directCall (call : HirExprId) (callee : ContextualAliasUnit) (summary : UnitSummary)
    (state : AliasState)
  | dynamicCall (call callee : HirExprId) (state : AliasState)
  | externalCall (call callee : HirExprId) (state : AliasState)
  | incompleteCall (call : HirExprId) (state : AliasState)

/-- What is kept is that of the records. -/
def Published (analysis : AliasAnalysis) : Prop := analysis.facts.Replays analysis.computed

/-- A record that a call makes, with its value if that is given with the call; `none` is for a value
that a solver finds. -/
abbrev AliasWrite := Subject × Option AliasValue

def Fits (value : AliasValue) (given : Option AliasValue) : Prop := ∀ v, given = some v → value = v

def AliasWrite.Of (entry : Subject × AliasValue) (write : AliasWrite) : Prop :=
  entry.1 = write.1 ∧ Fits entry.2 write.2

/-- The new records are these, in their order. -/
structure Records (analysis : AliasAnalysis) (writes : List AliasWrite) (after : AliasAnalysis) :
    Prop where
  published : Published analysis → Published after
  computed : ∃ new, after.computed = new ++ analysis.computed ∧
    List.Forall₂ AliasWrite.Of new writes.reverse

theorem composes_records : Composes Records where
  nil analysis := ⟨id, [], rfl, .nil⟩
  append h h' := by
    obtain ⟨new, hcomputed, hnew⟩ := h.computed
    obtain ⟨new', hcomputed', hnew'⟩ := h'.computed
    refine ⟨h'.published ∘ h.published, new' ++ new, ?_, ?_⟩
    · rw [hcomputed', hcomputed, List.append_assoc]
    · rw [List.reverse_append]
      exact List.rel_append hnew' hnew

/-- For each subject of the records: there is none yet, and one is made; or the last one that is
made is given, and above all others, old and new. -/
def AliasFacts.Covers (facts : AliasFacts) (writes : List AliasWrite) : Prop :=
  ∀ subject ∈ writes.map Prod.fst,
    (facts.recorded subject = none ∧ (writes.map Prod.fst).count subject = 1) ∨
    ∃ last, lastWrite writes.reverse subject = some (some last) ∧
      (∀ old, facts.recorded subject = some old → old.lessEqual last = true) ∧
      ∀ given, (subject, given) ∈ writes →
        ∃ value, given = some value ∧ value.lessEqual last = true

section
variable {analysis after : AliasAnalysis} {writes : List AliasWrite}

/-- All subjects are new, and different. -/
theorem AliasFacts.Covers.of_fresh {facts : AliasFacts} (hnodup : (writes.map Prod.fst).Nodup)
    (h : ∀ write ∈ writes, facts.recorded write.1 = none) : facts.Covers writes := by
  intro subject hsubject
  obtain ⟨write, hwrite, rfl⟩ := List.mem_map.mp hsubject
  exact Or.inl ⟨h write hwrite, List.count_eq_one_of_mem hnodup hsubject⟩

/-- Each subject has one value, above what is recorded. -/
theorem AliasFacts.Covers.of_given {facts : AliasFacts} (value : Subject → AliasValue)
    (hgiven : ∀ write ∈ writes, write.2 = some (value write.1))
    (hold : ∀ write ∈ writes, ∀ old, facts.recorded write.1 = some old →
      old.lessEqual (value write.1) = true) : facts.Covers writes := by
  intro subject hsubject
  obtain ⟨given, hwrite⟩ : ∃ given, (subject, given) ∈ writes := by
    simpa using hsubject
  refine Or.inr ⟨value subject, ?_, hold _ hwrite, fun given' hwrite' => ?_⟩
  · obtain ⟨last, hlast⟩ := exists_lastWrite (List.mem_reverse.mpr hwrite)
    have hvalue := hgiven _ (List.mem_reverse.mp (mem_of_lastWrite hlast))
    exact hlast.trans (congrArg some hvalue)
  · exact ⟨value subject, hgiven _ hwrite', AliasValue.lessEqual_refl _⟩

variable (h : Records analysis writes after)
include h

theorem Records.sound_iff (hpublished : Published analysis)
    (hsound : analysis.facts.Sound analysis.computed) :
    ∃ new, List.Forall₂ AliasWrite.Of new writes.reverse ∧
      (after.facts.Sound after.computed ↔ ∀ subject value, (subject, value) ∈ new →
        ∃ last, lastWrite new subject = some last ∧ value.lessEqual last = true ∧
          ∀ old, analysis.facts.recorded subject = some old → old.lessEqual last = true) := by
  obtain ⟨new, hcomputed, hnew⟩ := h.computed
  have hdominated := hpublished.sound_iff.mp hsound
  refine ⟨new, hnew, ?_⟩
  rw [(h.published hpublished).sound_iff, hcomputed]
  simp only [hpublished.recorded]
  exact hdominated.append_iff fun _ _ _ => AliasValue.lessEqual_trans

/-- Where its records are covered, a call keeps the facts safe. -/
theorem Records.sound (hpublished : Published analysis)
    (hsound : analysis.facts.Sound analysis.computed) (hcovers : analysis.facts.Covers writes) :
    after.facts.Sound after.computed := by
  obtain ⟨new, hnew, hiff⟩ := h.sound_iff hpublished hsound
  have hfst : new.map Prod.fst = (writes.map Prod.fst).reverse := by
    rw [← List.map_reverse, ← List.forall₂_eq_eq_eq, List.forall₂_map_left_iff,
      List.forall₂_map_right_iff]
    exact hnew.imp fun _ _ hentry => hentry.1
  refine hiff.mpr fun subject value hmem => ?_
  have hsubject : subject ∈ writes.map Prod.fst := by
    rw [← List.mem_reverse, ← hfst]
    exact List.mem_map_of_mem hmem
  rcases hcovers subject hsubject with ⟨hnone, hcount⟩ | ⟨last, hlast, hold, hgiven⟩
  · rw [← List.count_reverse, ← hfst] at hcount
    refine ⟨value, lastWrite_of_count hcount hmem, value.lessEqual_refl, fun old hrecorded => ?_⟩
    rw [hnone] at hrecorded
    cases hrecorded
  · have hrel := lastWrite_rel (P := Fits) hnew subject
    rw [hlast] at hrel
    cases hnewest : lastWrite new subject with
    | none =>
      rw [hnewest] at hrel
      cases hrel
    | some newest =>
      rw [hnewest, Option.rel_some_some] at hrel
      obtain rfl := hrel last rfl
      obtain ⟨⟨_, given⟩, hwrite, rfl, hfits⟩ := forall₂_mem_left hnew hmem
      obtain ⟨v, rfl, hle⟩ := hgiven given (List.mem_reverse.mp hwrite)
      obtain rfl : value = v := hfits v rfl
      exact ⟨newest, rfl, hle, hold⟩

/-- Where all its records are given, a call keeps the facts safe only if they are covered. -/
theorem Records.covers (hpublished : Published analysis)
    (hsound : analysis.facts.Sound analysis.computed)
    (hgiven : ∀ write ∈ writes, write.2.isSome = true)
    (hafter : after.facts.Sound after.computed) : analysis.facts.Covers writes := by
  obtain ⟨new, hnew, hiff⟩ := h.sound_iff hpublished hsound
  intro subject hsubject
  have entry (given : Option AliasValue) (hwrite : (subject, given) ∈ writes) :
      ∃ value, given = some value ∧ (subject, value) ∈ new := by
    obtain ⟨value, rfl⟩ := Option.isSome_iff_exists.mp (hgiven _ hwrite)
    obtain ⟨⟨_, value'⟩, hmem, rfl, hfits⟩ :=
      forall₂_mem_right hnew (List.mem_reverse.mpr hwrite)
    obtain rfl := hfits value rfl
    exact ⟨value', rfl, hmem⟩
  obtain ⟨given, hwrite⟩ : ∃ given, (subject, given) ∈ writes := by
    simpa using hsubject
  obtain ⟨value, rfl, hmem⟩ := entry given hwrite
  obtain ⟨last, hlast, -, hold⟩ := hiff.mp hafter subject value hmem
  refine Or.inr ⟨last, ?_, hold, fun given' hwrite' => ?_⟩
  · have hrel := lastWrite_rel (P := Fits) hnew subject
    rw [hlast] at hrel
    obtain ⟨newest, hnewest⟩ := exists_lastWrite (List.mem_reverse.mpr hwrite)
    have hmem' := List.mem_reverse.mp (mem_of_lastWrite hnewest)
    obtain ⟨value', rfl, -⟩ := entry newest hmem'
    rw [hnewest, Option.rel_some_some] at hrel
    rw [hnewest, hrel value' rfl]
  · obtain ⟨value', rfl, hmem'⟩ := entry given' hwrite'
    obtain ⟨last', hlast', hle, -⟩ := hiff.mp hafter subject value' hmem'
    rw [hlast] at hlast'
    cases hlast'
    exact ⟨value', rfl, hle⟩

end

namespace AliasSemantics
variable (self : AliasSemantics)

/-! What the calls record, as far as they are given it. -/

def allocationValue (unit : Option HirSemanticUnit) (expr : HirExprId) (kind : AllocationKind) :
    AliasValue :=
  if self.sensitivity.heap = .noHeap then .unknown
  else
    .fromTarget ((self.oracle.allocationSite expr kind).getD
      (match self.config.allocationSensitivity with
        | .perType => .allocationKind none kind
        | .perExpression => .allocation unit expr
        | .perCallSite => .allocation unit expr))

/-- The alias of an expression, unless the solver of projections finds it. -/
def givenAlias (state : AliasState) (expr : HirExprId) : HirExpr → Option AliasValue
  | .reflect _ | .literal _ | .emptyRecordOrMap | .emptySequence => some .bottom
  | .path path => some (self.pathAlias state path.resolution)
  | .record _ _ => some (self.allocationValue state.unit expr .record)
  | .tuple _ => some (self.allocationValue state.unit expr .tuple)
  | .array _ | .list _ | .set _ => some (self.allocationValue state.unit expr .array)
  | .map _ => some (self.allocationValue state.unit expr .map)
  | .range _ _ => some (self.allocationValue state.unit expr .range)
  | .field _ _ | .index _ _ | .slice _ _ _ => none
  | .lambda _ _ _ => some (self.allocationValue state.unit expr .lambda)
  | .handler _ => some (self.allocationValue state.unit expr .handler)
  | .block _ | .if _ _ _ | .match _ _ | .try _ | .unary _ _ | .binary _ _ _ | .handle _ _
  | .stageCompose _ | .pipeline _ _ | .listCons _ _ => some state.lastExprAlias
  | .call _ _ | .methodCall _ _ _ | .specMethodCall _ _ _ _ | .perform _ _ =>
    some (state.exprAlias expr)
  | .infer _ _ => some (self.allocationValue state.unit expr .unknown)
  | .error => some .unknown

def givenExpr (expr : HirExprId) (state : AliasState) : Option AliasValue :=
  match self.oracle.expressionTarget expr with
  | some target => some (.fromTarget target)
  | none => (self.hir.exprs[expr]?).bind (self.givenAlias state expr)

/-- The symbols that a pattern binds. -/
def patSymbols : ℕ → HirPatId → List SymbolId
  | 0, _ => []
  | n + 1, pat =>
    match self.hir.pats[pat]? with
    | none => []
    | some (.binding symbol) => [symbol]
    | some .error => []
    | some data => (patParts self.sensitivity data).flatMap fun part => patSymbols n part.1

/-- The symbols that a statement binds or assigns. -/
def stmtSymbols (stmt : HirStmtId) : List SymbolId :=
  match self.hir.stmts[stmt]? with
  | some (.let pat _) => self.patSymbols self.depth pat
  | some (.var pat _) => self.patSymbols self.depth pat
  | some (.assign target _) =>
    match self.hir.exprs[target]? with
    | some (.path ⟨_, .resolved symbol, _⟩) => [symbol]
    | _ => []
  | _ => []

/-- The record of a call without a summary is made twice. -/
def externalWrites (call callee : HirExprId) : List AliasWrite :=
  match self.oracle.resourceConstructor call with
  | some target => [(.expr call, some (.fromTarget target))]
  | none =>
    match self.oracle.intrinsicCallSummary call callee with
    | some _ => [(.expr call, none)]
    | none => [(.expr call, some .unknown), (.expr call, none)]

/-- An expression or a statement is finished on every way out of it, in the order of these. -/
def callWrites : AliasCall → List AliasWrite
  | .beginUnit unit => (paramsForUnit self.hir self.declParams unit.semantic).zipIdx.map fun param =>
    (.symbol param.1, some (.fromTarget (.param unit.semantic param.2)))
  | .endUnit _ _ => []
  | .afterExprControl expr control =>
    (exitStates control).map fun state => (.expr expr, self.givenExpr expr state)
  | .afterStmtControl stmt control =>
    (exitStates control).flatMap fun _ =>
      (self.stmtSymbols stmt).map fun symbol => (.symbol symbol, none)
  | .perform expr _ _ | .stageCompose expr _ | .pipeline expr _ | .handleExpr expr _
  | .incompleteCall expr _ => [(.expr expr, some .unknown)]
  | .methodCall expr _ =>
    match self.hir.exprs[expr]? with
    | some (.methodCall receiver _ _) => self.externalWrites expr receiver
    | _ => self.externalWrites expr expr
  | .tryExpr expr state =>
    match self.hir.exprs[expr]? with
    | some (.try operand) => [(.expr expr, some (state.exprAlias operand))]
    | _ => []
  | .lambdaBoundary expr state => [(.expr expr, some (self.allocationValue state.unit expr .lambda))]
  | .handlerBoundary expr state =>
    [(.expr expr, some (self.allocationValue state.unit expr .handler))]
  | .directCall call _ _ _ => [(.expr call, none)]
  | .dynamicCall call callee _ => self.externalWrites call callee
  | .externalCall call callee _ => self.externalWrites call callee

variable [LinearOrder Place] [LinearOrder AliasValueExpr]

def runCall : AliasCall → AliasM Unit
  | .beginUnit unit => do
    let _ ← self.beginUnit unit
  | .endUnit unit exit => do
    let _ ← self.endUnit unit exit
  | .afterExprControl expr control => do
    let _ ← self.afterExprControl expr control
  | .afterStmtControl stmt control => do
    let _ ← self.afterStmtControl stmt control
  | .perform expr args state => do
    let _ ← perform expr args state
  | .methodCall expr state => do
    let _ ← self.methodCall expr state
  | .stageCompose expr state => do
    let _ ← stageCompose expr state
  | .pipeline expr state => do
    let _ ← pipeline expr state
  | .tryExpr expr state => do
    let _ ← self.tryExpr expr state
  | .handleExpr expr state => do
    let _ ← handleExpr expr state
  | .lambdaBoundary expr state => do
    let _ ← self.lambdaBoundary expr state
  | .handlerBoundary expr state => do
    let _ ← self.handlerBoundary expr state
  | .directCall call callee summary state => do
    let _ ← self.directCall call callee summary state
  | .dynamicCall call callee state => do
    let _ ← self.applyExternalOrUnknown state call callee
  | .externalCall call callee state => do
    let _ ← self.applyExternalOrUnknown state call callee
  | .incompleteCall call state => do
    let _ ← incompleteCall call state

/-- The calls come in any order, with any states: that of the worklist, and the branches, loops and
contexts that the interpreter walks, are among them. -/
inductive Reached : AliasAnalysis → Prop
  | new : Reached .new
  | call {analysis after : AliasAnalysis} (call : AliasCall) (h : Reached analysis)
    (hcall : self.runCall call analysis = some ((), after)) : Reached after

/-- Of each call the records are covered. -/
inductive Covered : AliasAnalysis → Prop
  | new : Covered .new
  | call {analysis after : AliasAnalysis} (call : AliasCall) (h : Covered analysis)
    (hcovers : analysis.facts.Covers (self.callWrites call))
    (hcall : self.runCall call analysis = some ((), after)) : Covered after

theorem Covered.reached {self : AliasSemantics} {analysis : AliasAnalysis}
    (h : self.Covered analysis) : self.Reached analysis := by
  induction h with
  | new => exact .new
  | call call _ _ hcall ih => exact .call call ih hcall

end AliasSemantics

/-! Every call makes these records. -/

theorem records_quiet {analysis after : AliasAnalysis} (hfacts : Published analysis → Published after)
    (hcomputed : after.computed = analysis.computed) : Records analysis [] after :=
  ⟨hfacts, [], hcomputed, .nil⟩

theorem writes_publish (subject : Subject) {value : AliasValue} {given : Option AliasValue}
    (h : Fits value given) :
    Writes Records [(subject, given)] (fun _ => True) (publish subject value) :=
  .update fun _ => ⟨fun hp => hp.record subject value, [(subject, value)], rfl, .cons ⟨rfl, h⟩ .nil⟩

theorem fits_some (value : AliasValue) : Fits value (some value) := fun _ h => Option.some.inj h

theorem fits_none (value : AliasValue) : Fits value none := nofun

theorem writes_pure {α : Type} (a : α) : Writes Records [] (fun _ => True) (pure a : AliasM α) :=
  .pure composes_records trivial

theorem writes_lift {α : Type} (x : Option α) :
    Writes Records [] (fun _ => True) (liftM x : AliasM α) :=
  .lift composes_records fun _ _ => trivial

theorem writes_setExprAlias (state : AliasState) (expr : HirExprId) {value : AliasValue}
    {given : Option AliasValue} (h : Fits value given) :
    Writes Records [(.expr expr, given)] (fun _ => True) (setExprAlias state expr value) :=
  (writes_publish _ h).before composes_records fun _ _ => writes_pure _

theorem writes_pushDiagnostic (span : HirExprId) (message : String) :
    Writes Records [] (fun _ => True) (pushDiagnostic span message) :=
  .update fun _ => records_quiet id rfl

theorem writes_unknownExpr (state : AliasState) (expr : HirExprId) (message : String) :
    Writes Records [(.expr expr, some .unknown)] (fun _ => True) (unknownExpr state expr message) :=
  (writes_pushDiagnostic expr message).after composes_records fun _ _ =>
    writes_setExprAlias _ expr (fits_some _)

namespace AliasSemantics
variable {self : AliasSemantics}

theorem writes_allocationForUnit (unit : Option HirSemanticUnit) (expr : HirExprId)
    (kind : AllocationKind) : Writes Records [] (· = self.allocationValue unit expr kind)
      (self.allocationForUnit unit expr kind) := by
  unfold allocationForUnit allocationValue
  split
  · exact (writes_pushDiagnostic expr _).after composes_records fun _ _ =>
      .pure composes_records rfl
  · exact .pure composes_records rfl

theorem writes_updateSymbol (state : AliasState) (symbol : SymbolId) (value : AliasValue)
    (strongUpdate : Bool) : Writes Records [(.symbol symbol, none)] (fun _ => True)
      (self.updateSymbol state symbol value strongUpdate) := by
  refine (writes_lift _).after composes_records fun assigned _ => ?_
  obtain ⟨solved, state⟩ := assigned
  exact (writes_publish _ (fits_none solved)).before composes_records fun _ _ => writes_pure state

theorem patParts_fst (s s' : AliasSensitivity) (data : Hir.HirPat) :
    (patParts s data).map Prod.fst = (patParts s' data).map Prod.fst := by
  cases data with
  | record path fields => simp [patParts, List.map_filterMap, Function.comp_def]
  | _ => simp [patParts]

/-- By recursion over the pattern. -/
theorem writes_bindPattern (n : ℕ) (pat : HirPatId) (value : AliasValue) (state : AliasState) :
    Writes Records ((self.patSymbols n pat).map fun symbol => (.symbol symbol, none))
      (fun _ => True) (self.bindPattern n pat value state) := by
  induction n generalizing pat value state with
  | zero => exact .failure
  | succ n ih =>
    have parts (data : Hir.HirPat) : Writes Records
        (((patParts self.sensitivity data).flatMap fun part => self.patSymbols n part.1).map
          fun symbol => (.symbol symbol, none)) (fun _ => True)
        ((patParts state.sensitivity data).foldlM (fun state part => do
          let projected ← solveProjectionValue state.config self.le value part.2
          self.bindPattern n part.1 projected.1 (state.incompleteIf projected.2)) state) := by
      rw [← List.flatMap_map Prod.fst (self.patSymbols n), patParts_fst _ state.sensitivity,
        List.flatMap_map, List.map_flatMap]
      refine .foldlM composes_records _ (fun part _ state => ?_) state
      refine (writes_lift _).after composes_records fun projected _ => ?_
      exact ih part.1 projected.1 _
    unfold bindPattern patSymbols
    cases self.hir.pats[pat]? with
    | none => exact writes_pure _
    | some data =>
      cases data with
      | binding symbol => exact writes_updateSymbol state symbol value true
      | error => exact writes_pure _
      | _ => exact parts _

section
variable (state : AliasState)

theorem writes_recordCaptureValues [LinearOrder AliasValueExpr]
    (unit : HirSemanticUnit) (captured : Finset SymbolId) :
    Writes Records [] (fun _ => True) (self.recordCaptureValues state unit captured) := by
  unfold recordCaptureValues
  split
  · exact writes_pure _
  · exact .update fun _ => records_quiet id rfl

theorem writes_recordLambdaCaptures [LinearOrder AliasValueExpr]
    (expr : HirExprId) :
    Writes Records [] (fun _ => True) (self.recordLambdaCaptures state expr) := by
  unfold recordLambdaCaptures
  split
  · exact (writes_lift _).after composes_records fun captured _ =>
      writes_recordCaptureValues state _ captured
  · exact writes_pure _

theorem writes_recordHandlerArmCaptures [LinearOrder AliasValueExpr]
    (arm : HirHandlerArmId) :
    Writes Records [] (fun _ => True) (self.recordHandlerArmCaptures state arm) := by
  unfold recordHandlerArmCaptures
  split
  · exact (writes_lift _).after composes_records fun captured _ =>
      writes_recordCaptureValues state _ captured
  · exact writes_pure _

theorem writes_recordHandlerCaptures [LinearOrder AliasValueExpr]
    (expr : HirExprId) :
    Writes Records [] (fun _ => True) (self.recordHandlerCaptures state expr) := by
  unfold recordHandlerCaptures
  split
  · next handlers _ =>
    have hnil : handlers.flatMap (fun _ => ([] : List AliasWrite)) = [] := by simp
    rw [← hnil]
    exact .foldlM composes_records handlers
      (fun arm _ _ => writes_recordHandlerArmCaptures state arm) ()
  · exact writes_pure _

theorem writes_allocate (expr : HirExprId) (kind : AllocationKind)
    (fill : Place → Option AliasState) :
    Writes Records [] (·.1 = self.allocationValue state.unit expr kind)
      (self.allocate state expr kind fill) := by
  refine (writes_allocationForUnit state.unit expr kind).after composes_records fun value h => ?_
  split
  · exact (writes_lift _).after composes_records fun _ _ => .pure composes_records h
  · exact .pure composes_records h

theorem writes_unresolvedPath (expr : HirExprId) (value : AliasValue) :
    Writes Records [] (·.1 = value) (unresolvedPath state expr value) := by
  unfold unresolvedPath
  split
  · exact (writes_pushDiagnostic expr _).after composes_records fun _ _ =>
      .pure composes_records rfl
  · exact .pure composes_records rfl

end

/-- On every way out, in their order. -/
theorem writes_mapStates {f : AliasState → AliasM AliasState} {ws : AliasState → List AliasWrite}
    (hf : ∀ s, Writes Records (ws s) (fun _ => True) (f s)) (control : Control AliasState) :
    Writes Records ((exitStates control).flatMap ws) (fun _ => True) (control.mapStates f) := by
  have hlist : (exitStates control).flatMap ws =
      control.normalState.toList.flatMap ws ++ (control.returnState.toList.flatMap ws ++
      (control.breakState.toList.flatMap ws ++ (control.continueState.toList.flatMap ws ++
      (control.resumeState.toList.flatMap ws ++ (control.finishState.toList.flatMap ws ++
      control.errorState.toList.flatMap ws))))) := by
    simp [exitStates]
  rw [hlist]
  refine (Writes.mapM composes_records hf _).bind composes_records fun _ _ => ?_
  refine (Writes.mapM composes_records hf _).bind composes_records fun _ _ => ?_
  refine (Writes.mapM composes_records hf _).bind composes_records fun _ _ => ?_
  refine (Writes.mapM composes_records hf _).bind composes_records fun _ _ => ?_
  refine (Writes.mapM composes_records hf _).bind composes_records fun _ _ => ?_
  refine (Writes.mapM composes_records hf _).bind composes_records fun _ _ => ?_
  exact (Writes.mapM composes_records hf _).before composes_records fun _ _ => writes_pure _

theorem writes_applySummaryToCall (state : AliasState) (call : HirExprId)
    (callee : Option ContextualAliasUnit) (summary : AliasSummary) :
    Writes Records [(.expr call, none)] (fun _ => True)
      (self.applySummaryToCall state call callee summary) := by
  refine (Writes.get composes_records).after composes_records fun analysis _ => ?_
  refine (writes_lift _).after composes_records fun value _ => ?_
  refine (writes_setExprAlias state call (fits_none value)).before composes_records fun _ _ => ?_
  refine (writes_lift _).after composes_records fun _ _ => ?_
  exact (writes_lift _).after composes_records fun _ _ => writes_pure _

theorem writes_beginUnit (unit : ContextualAliasUnit) :
    Writes Records (self.callWrites (.beginUnit unit)) (fun _ => True) (self.beginUnit unit) := by
  rw [callWrites, List.map_eq_flatMap]
  refine (Writes.foldlM composes_records _ (fun param _ state => ?_) _).before composes_records
    fun state _ => (writes_lift _).after composes_records fun _ _ => writes_pure _
  exact (writes_publish _ (fits_some _)).before composes_records fun _ _ => writes_pure _

theorem writes_afterStmt [LinearOrder Place] (stmt : HirStmtId) (state : AliasState) :
    Writes Records ((self.stmtSymbols stmt).map fun symbol => (.symbol symbol, none))
      (fun _ => True) (self.afterStmt stmt state) := by
  unfold afterStmt stmtSymbols
  cases self.hir.stmts[stmt]? with
  | none => exact writes_pure _
  | some data =>
    cases data with
    | «let» pat value => exact writes_bindPattern _ pat _ state
    | var pat value => exact writes_bindPattern _ pat _ state
    | assign target value =>
      dsimp only
      unfold assignTarget
      cases self.hir.exprs[target]? with
      | none => exact .failure
      | some data =>
        have diagnosed (message : String) : Writes Records [] (fun _ => True) (do
            pushDiagnostic target message
            return state.markIncomplete) :=
          (writes_pushDiagnostic target message).after composes_records fun _ _ => writes_pure _
        cases data with
        | path path =>
          obtain ⟨segments, resolution, span⟩ := path
          cases resolution with
          | resolved symbol => exact writes_updateSymbol state symbol _ _
          | _ => exact diagnosed _
        | field base name => exact writes_lift _
        | index base index => exact writes_lift _
        | _ => exact diagnosed _
    | «return» value => cases value <;> exact writes_pure _
    | resume value => cases value <;> exact writes_pure _
    | _ => exact writes_pure _

theorem beginUnit_item (item : HirItemId) (calls : List HirExprId) :
    self.beginUnit ⟨.item item, calls⟩ =
      (paramsForUnit self.hir self.declParams (.item item)).zipIdx.foldlM
        (bindParam (.item item)) (self.entryState ⟨.item item, calls⟩) := by
  have hsort : (∅ : Finset SymbolId).sort (· ≤ ·) = [] := Finset.sort_empty _
  change (_ >>= fun state => pure (((∅ : Finset SymbolId).sort (· ≤ ·)).foldl
    (enterCaptured (.item item)) state)) = _
  rw [hsort]
  exact bind_pure _

section
variable [LinearOrder AliasValueExpr]

theorem writes_aliasOfExpr (state : AliasState) (expr : HirExprId) (data : HirExpr) :
    Writes Records [] (fun answer => Fits answer.1 (self.givenAlias state expr data))
      (self.aliasOfExpr state expr data) := by
  have allocated (kind : AllocationKind) (fill : Place → Option AliasState) :
      Writes Records [] (fun answer => Fits answer.1
        (some (self.allocationValue state.unit expr kind))) (self.allocate state expr kind fill) :=
    (writes_allocate state expr kind fill).mono fun answer h => h ▸ fits_some _
  cases data with
  | path path =>
    exact (writes_unresolvedPath state expr _).mono fun answer h => h ▸ fits_some _
  | record _ fields => exact allocated _ _
  | tuple elems => exact allocated _ _
  | array elems => exact allocated _ _
  | list elems => exact allocated _ _
  | set elems => exact allocated _ _
  | map entries => exact allocated _ _
  | range _ _ => exact allocated _ _
  | infer _ _ => exact allocated _ _
  | field base _ => exact (writes_lift _).mono fun _ _ => fits_none _
  | index base _ => exact (writes_lift _).mono fun _ _ => fits_none _
  | slice base _ _ => exact (writes_lift _).mono fun _ _ => fits_none _
  | lambda _ _ _ =>
    exact (writes_recordLambdaCaptures state expr).after composes_records fun _ _ => allocated _ _
  | handler _ =>
    exact (writes_recordHandlerCaptures state expr).after composes_records fun _ _ => allocated _ _
  | _ => exact .pure composes_records (fits_some _)

theorem writes_afterExpr (expr : HirExprId) (state : AliasState) :
    Writes Records [(.expr expr, self.givenExpr expr state)] (fun _ => True)
      (self.afterExpr expr state) := by
  unfold afterExpr givenExpr
  cases self.oracle.expressionTarget expr with
  | some target => exact writes_setExprAlias state expr (fits_some _)
  | none =>
    dsimp only
    unfold finishExprAlias
    cases self.hir.exprs[expr]? with
    | none => exact .failure
    | some data =>
      exact (writes_aliasOfExpr state expr data).after composes_records fun answer h =>
        writes_setExprAlias _ expr h

theorem writes_applyExternalOrUnknown (state : AliasState) (call callee : HirExprId) :
    Writes Records (self.externalWrites call callee) (fun _ => True)
      (self.applyExternalOrUnknown state call callee) := by
  unfold applyExternalOrUnknown externalWrites
  cases self.oracle.resourceConstructor call with
  | some target => exact writes_setExprAlias state call (fits_some _)
  | none =>
    dsimp only
    cases self.oracle.intrinsicCallSummary call callee with
    | some summary => exact writes_applySummaryToCall state call none _
    | none =>
      refine (writes_lift _).after composes_records fun answer _ => ?_
      refine (writes_unknownExpr _ call _).bind composes_records fun _ _ => ?_
      exact writes_setExprAlias _ call (fits_none _)

variable [LinearOrder Place]

theorem writes_endUnit (unit : ContextualAliasUnit) (exit : Control AliasState) :
    Writes Records [] (fun _ => True) (self.endUnit unit exit) := by
  refine (Writes.get composes_records).after composes_records fun analysis _ => ?_
  refine Writes.after composes_records (.update fun _ => records_quiet (fun h => ?_) rfl)
    fun _ _ => writes_pure _
  refine ⟨fun subject => ?_, h.unknown⟩
  rw [← h.recorded subject]
  cases subject with
  | expr e => rfl
  | symbol s => rfl

theorem writes_runCall (call : AliasCall) :
    Writes Records (self.callWrites call) (fun _ => True) (self.runCall call) := by
  have answers {α : Type} {ws : List AliasWrite} {p : AliasM α}
      (h : Writes Records ws (fun _ => True) p) :
      Writes Records ws (fun _ => True) (p >>= fun _ => pure ()) :=
    h.before composes_records fun _ _ => writes_pure ()
  cases call with
  | beginUnit unit => exact answers (writes_beginUnit unit)
  | endUnit unit exit => exact answers (writes_endUnit unit exit)
  | afterExprControl expr control =>
    rw [callWrites, List.map_eq_flatMap]
    exact answers (writes_mapStates (writes_afterExpr expr) control)
  | afterStmtControl stmt control =>
    exact answers (writes_mapStates (writes_afterStmt stmt) control)
  | perform expr args state => exact answers (writes_unknownExpr _ expr _)
  | methodCall expr state =>
    have hcall : Writes Records (self.callWrites (.methodCall expr state)) (fun _ => True)
        (self.methodCall expr state) := by
      rw [callWrites]
      unfold methodCall
      cases self.hir.exprs[expr]? with
      | none => exact writes_applyExternalOrUnknown state expr expr
      | some data => cases data <;> exact writes_applyExternalOrUnknown state expr _
    exact answers hcall
  | stageCompose expr state => exact answers (writes_unknownExpr state expr _)
  | pipeline expr state => exact answers (writes_unknownExpr state expr _)
  | tryExpr expr state =>
    have htry : Writes Records (self.callWrites (.tryExpr expr state)) (fun _ => True)
        (self.tryExpr expr state) := by
      rw [callWrites]
      unfold tryExpr
      cases self.hir.exprs[expr]? with
      | none => exact writes_pure _
      | some data =>
        cases data with
        | «try» operand => exact writes_setExprAlias state expr (fits_some _)
        | _ => exact writes_pure _
    exact answers htry
  | handleExpr expr state => exact answers (writes_unknownExpr state expr _)
  | lambdaBoundary expr state =>
    refine answers ?_
    refine (writes_recordLambdaCaptures state expr).after composes_records fun _ _ => ?_
    refine (writes_allocationForUnit state.unit expr _).after composes_records fun value h => ?_
    exact writes_setExprAlias state expr (h ▸ fits_some _)
  | handlerBoundary expr state =>
    refine answers ?_
    refine (writes_recordHandlerCaptures state expr).after composes_records fun _ _ => ?_
    refine (writes_allocationForUnit state.unit expr _).after composes_records fun value h => ?_
    exact writes_setExprAlias state expr (h ▸ fits_some _)
  | directCall call callee summary state =>
    exact answers (writes_applySummaryToCall state call _ _)
  | dynamicCall call callee state =>
    exact answers (writes_applyExternalOrUnknown state call callee)
  | externalCall call callee state =>
    exact answers (writes_applyExternalOrUnknown state call callee)
  | incompleteCall call state => exact answers (writes_unknownExpr state call _)

theorem records_runCall {analysis after : AliasAnalysis} {call : AliasCall}
    (hcall : self.runCall call analysis = some ((), after)) :
    Records analysis (self.callWrites call) after := (writes_runCall call _ () _ hcall).1

theorem Reached.published {analysis : AliasAnalysis} (h : self.Reached analysis) :
    Published analysis := by
  induction h with
  | new => exact AliasFacts.Replays.empty
  | call call _ hcall ih => exact (records_runCall hcall).published ih

/-- The facts are safe in every run of which the calls are covered. A call that is given all its
records keeps them safe only if it is. -/
theorem facts_sound :
    (∀ analysis, self.Covered analysis → analysis.facts.Sound analysis.computed) ∧
    ∀ analysis call after, self.Reached analysis → analysis.facts.Sound analysis.computed →
      self.runCall call analysis = some ((), after) →
      (∀ write ∈ self.callWrites call, write.2.isSome = true) →
      (after.facts.Sound after.computed ↔ analysis.facts.Covers (self.callWrites call)) := by
  constructor
  · intro analysis h
    induction h with
    | new => exact AliasFacts.Replays.empty.sound_iff.mpr nofun
    | call call h hcovers hcall ih =>
      exact (records_runCall hcall).sound h.reached.published ih hcovers
  · intro analysis call after h hsound hcall hgiven
    have hrecords := records_runCall hcall
    exact ⟨hrecords.covers h.published hsound hgiven, hrecords.sound h.published hsound⟩

variable {α : Type} {analysis next : AliasAnalysis} {p : AliasM α} {answer : α} (call : AliasCall)
  (hcall : self.runCall call = (p >>= fun _ => pure ())) (hrun : p analysis = some (answer, next))
include hcall hrun

theorem runCall_eq : self.runCall call analysis = some ((), next) := by
  rw [hcall]
  change (p analysis).bind (fun r => some ((), r.2)) = some ((), next)
  rw [hrun]
  rfl

theorem Reached.after (h : self.Reached analysis) : self.Reached next :=
  .call call h (runCall_eq call hcall hrun)

theorem Covered.after (h : self.Covered analysis)
    (hcovers : analysis.facts.Covers (self.callWrites call)) : self.Covered next :=
  .call call h hcovers (runCall_eq call hcall hrun)

end
end AliasSemantics

/-! A flow of `x` and `y` with the body `let s = if true { return x; } else { y };`. -/

def branchProgram : HirProgram :=
  { HirProgram.empty with
    items := [.flow ⟨3, [0, 1], .block 2, 0⟩]
    exprs := [.literal (.bool true), .path ⟨["x"], .resolved 0, ⟨0, 0, 0⟩⟩,
      .path ⟨["y"], .resolved 1, ⟨0, 0, 0⟩⟩, .if 0 0 (some (.block 1))]
    stmts := [.return (some 1), .let 0 3]
    pats := [.binding 2]
    blocks := [⟨[0], none, 0⟩, ⟨[], some 2, 0⟩, ⟨[1], none, 0⟩] }

def branchSemantics : AliasSemantics :=
  .new branchProgram (fun _ => []) [.item 0] .precise ⟨.fullProjection, .keySensitive, .resourceAware⟩
    .none (fun _ _ => true) 8

def branchParam (index : ℕ) : AliasValue := .fromTarget (.param (.item 0) index)

section
variable [LinearOrder Place] [LinearOrder AliasValueExpr]

/-- The calls in the order of the interpreter: the condition, the two branches, the `if` on its
normal exit and on the `return`, and the `let`. -/
def branchRun : AliasM Unit := do
  let entry ← branchSemantics.beginUnit ⟨.item 0, []⟩
  let condition ← branchSemantics.afterExprControl 0 (.normal entry)
  let state ← condition.normalState
  let returnValue ← branchSemantics.afterExprControl 1 (.normal state)
  let returning ← returnValue.normalState
  let returned ← branchSemantics.afterStmtControl 0 (.returning returning)
  let other ← branchSemantics.afterExprControl 2 (.normal state)
  let value ← branchSemantics.afterExprControl 3
    { other with returnState := returned.returnState }
  let exit ← branchSemantics.afterStmtControl 1 value
  let _ ← branchSemantics.endUnit ⟨.item 0, []⟩ exit

theorem branchRun_reached {analysis : AliasAnalysis} (h : branchRun .new = some ((), analysis)) :
    branchSemantics.Reached analysis := by
  obtain ⟨entry, _, hentry, h⟩ := exists_of_bind h
  obtain ⟨condition, _, hcondition, h⟩ := exists_of_bind h
  obtain ⟨state, -, h⟩ := exists_of_lift_bind h
  obtain ⟨returnValue, _, hreturnValue, h⟩ := exists_of_bind h
  obtain ⟨returning, -, h⟩ := exists_of_lift_bind h
  obtain ⟨returned, _, hreturned, h⟩ := exists_of_bind h
  obtain ⟨other, _, hother, h⟩ := exists_of_bind h
  obtain ⟨value, _, hvalue, h⟩ := exists_of_bind h
  obtain ⟨exit, _, hexit, h⟩ := exists_of_bind h
  obtain ⟨summary, _, hsummary, h⟩ := exists_of_bind h
  cases h
  exact AliasSemantics.Reached.new.after (.beginUnit _) rfl hentry
    |>.after (.afterExprControl 0 _) rfl hcondition
    |>.after (.afterExprControl 1 _) rfl hreturnValue
    |>.after (.afterStmtControl 0 _) rfl hreturned
    |>.after (.afterExprControl 2 _) rfl hother
    |>.after (.afterExprControl 3 _) rfl hvalue
    |>.after (.afterStmtControl 1 _) rfl hexit
    |>.after (.endUnit _ _) rfl hsummary

theorem branchRun_returns : ∃ analysis, branchRun .new = some ((), analysis) ∧
    (Subject.expr 3, branchParam 1) ∈ analysis.computed ∧
    analysis.facts.recorded (.expr 3) = some (branchParam 0) := by
  unfold branchRun
  rw [AliasSemantics.beginUnit_item]
  refine ⟨_, rfl, ?_, rfl⟩
  exact List.mem_of_elem_eq_true rfl

theorem entryRun_returns : ∃ entry first value second exit third again fourth last analysis,
    branchSemantics.beginUnit ⟨.item 0, []⟩ .new = some (entry, first) ∧
    branchSemantics.afterExprControl 2 { Control.normal entry with returnState := some entry } first =
      some (value, second) ∧
    branchSemantics.afterStmtControl 1 (.normal entry) second = some (exit, third) ∧
    branchSemantics.beginUnit ⟨.item 0, [7]⟩ third = some (again, fourth) ∧
    branchSemantics.afterExprControl 2 (.normal again) fourth = some (last, analysis) ∧
    (branchSemantics.givenExpr 2 entry = some (branchParam 1) ∧
      branchSemantics.givenExpr 2 again = some (branchParam 1)) ∧
    (first.facts.recorded (.expr 2) = none ∧ second.facts.recorded (.symbol 2) = none ∧
      (∀ s < 2, third.facts.recorded (.symbol s) = some (branchParam s)) ∧
      fourth.facts.recorded (.expr 2) = some (branchParam 1)) ∧
    analysis.computed.length = 8 := by
  simp only [AliasSemantics.beginUnit_item]
  refine ⟨_, _, _, _, _, _, _, _, _, _, rfl, rfl, rfl, rfl, rfl, ⟨rfl, rfl⟩,
    ⟨rfl, rfl, fun s hs => ?_, rfl⟩, rfl⟩
  match s with
  | 0 => rfl
  | 1 => rfl

/-- The parameters and `y` have one alias each. -/
def entryAlias : Subject → AliasValue
  | .symbol symbol => branchParam symbol
  | .expr _ => branchParam 1

/-- The unit is entered in two contexts, and `y` is finished on two ways out of it and then again. -/
theorem entryRun_covered : ∃ before after call, branchSemantics.Covered before ∧
    branchSemantics.Covered after ∧ branchSemantics.runCall call before = some ((), after) ∧
    (∀ write ∈ branchSemantics.callWrites call, write.2.isSome = true) ∧
    after.computed.length = 8 := by
  obtain ⟨entry, first, value, second, exit, third, again, fourth, last, analysis, hentry, hvalue,
    hexit, hagain, hlast, ⟨hy, hy'⟩, ⟨hnew, hnew', hparams, hold⟩, hlength⟩ := entryRun_returns
  have hbegin (calls : List HirExprId) : branchSemantics.callWrites (.beginUnit ⟨.item 0, calls⟩) =
      [(.symbol 0, some (branchParam 0)), (.symbol 1, some (branchParam 1))] := rfl
  have hstart : branchSemantics.Covered first := by
    refine AliasSemantics.Covered.after (.beginUnit _) rfl hentry .new (.of_given entryAlias ?_ ?_)
    · rw [hbegin]
      decide
    · rintro ⟨subject, given⟩ _ old hold
      cases subject <;> cases hold
  have hsecond : branchSemantics.Covered second := by
    have hwrites : branchSemantics.callWrites
        (.afterExprControl 2 { Control.normal entry with returnState := some entry }) =
          [(.expr 2, some (branchParam 1)), (.expr 2, some (branchParam 1))] := by
      rw [← hy]
      rfl
    refine hstart.after (.afterExprControl 2 _) rfl hvalue (.of_given entryAlias ?_ ?_)
    · rw [hwrites]
      decide
    · rw [hwrites]
      simp [hnew]
  have hthird : branchSemantics.Covered third := by
    refine hsecond.after (.afterStmtControl 1 _) rfl hexit (.of_fresh ?_ ?_)
    · exact List.nodup_singleton _
    · exact fun write hwrite => List.mem_singleton.mp hwrite ▸ hnew'
  have hfourth : branchSemantics.Covered fourth := by
    refine hthird.after (.beginUnit _) rfl hagain (.of_given entryAlias ?_ ?_)
    · rw [hbegin]
      decide
    · rw [hbegin]
      simp [hparams, entryAlias, AliasValue.lessEqual_refl]
  have hwrites : branchSemantics.callWrites (.afterExprControl 2 (.normal again)) =
      [(.expr 2, some (branchParam 1))] := by
    rw [← hy']
    rfl
  have hcovers : fourth.facts.Covers
      (branchSemantics.callWrites (.afterExprControl 2 (.normal again))) := by
    rw [hwrites]
    refine .of_given entryAlias (by decide) ?_
    simp [hold, entryAlias, AliasValue.lessEqual_refl]
  refine ⟨fourth, analysis, .afterExprControl 2 (.normal again), hfourth,
    hfourth.after _ rfl hlast hcovers, AliasSemantics.runCall_eq _ rfl hlast, ?_, hlength⟩
  rw [hwrites]
  decide

end

/-- Eight records of five calls, and what the last of them asks for. -/
theorem facts_sound_entry : ∃ (_ : LinearOrder Place) (_ : LinearOrder AliasValueExpr),
    ∃ before after call, branchSemantics.runCall call before = some ((), after) ∧
      after.computed.length = 8 ∧ after.facts.Sound after.computed ∧
      before.facts.Covers (branchSemantics.callWrites call) := by
  obtain ⟨placeOrder, -⟩ := exists_wellFoundedLT Place
  obtain ⟨exprOrder, -⟩ := exists_wellFoundedLT AliasValueExpr
  refine ⟨placeOrder, exprOrder, ?_⟩
  obtain ⟨before, after, call, hbefore, hafter, hcall, hgiven, hlength⟩ := entryRun_covered
  obtain ⟨hsound, hiff⟩ := @AliasSemantics.facts_sound branchSemantics _ _
  refine ⟨before, after, call, hcall, hlength, hsound after hafter, ?_⟩
  exact (hiff before call after hbefore.reached (hsound before hbefore) hcall hgiven).mp
    (hsound after hafter)

/-- The value of the `if` is `y`, and what is recorded is `x`, which the flow returns instead. -/
theorem facts_narrowed : ∃ (_ : LinearOrder Place) (_ : LinearOrder AliasValueExpr),
    ∃ analysis, branchRun .new = some ((), analysis) ∧ branchSemantics.Reached analysis ∧
      (Subject.expr 3, branchParam 1) ∈ analysis.computed ∧
      analysis.facts.recorded (.expr 3) = some (branchParam 0) ∧
      ¬ analysis.facts.Sound analysis.computed := by
  obtain ⟨placeOrder, -⟩ := exists_wellFoundedLT Place
  obtain ⟨exprOrder, -⟩ := exists_wellFoundedLT AliasValueExpr
  refine ⟨placeOrder, exprOrder, ?_⟩
  obtain ⟨analysis, hrun, hcomputed, hrecorded⟩ := branchRun_returns
  refine ⟨analysis, hrun, branchRun_reached hrun, hcomputed, hrecorded, fun hsound => ?_⟩
  obtain ⟨recorded, hget, hle⟩ := hsound.above _ _ hcomputed
  rw [hrecorded] at hget
  cases hget
  revert hle
  decide

end EtasFrontend.Alias
