import EtasFrontend.Lib.Fallible
import EtasFrontend.Hir.LocalPath
import EtasFrontend.Resolution.Members

/-! What member resolution does to the paths and calls of a program, and that a second run changes
nothing. -/
namespace EtasFrontend.Resolution
open Lib Hir

/-- The names are members one of another, each the only one of its name. -/
inductive Chain (symbols : SymbolTable) : SymbolId → List String → SymbolId → Prop where
  | nil (owner : SymbolId) : Chain symbols owner [] owner
  | cons {owner member last : SymbolId} {name : String} {rest : List String}
      (h : symbols.resolveMember owner name = .resolved member)
      (hrest : Chain symbols member rest last) : Chain symbols owner (name :: rest) last

/-- The resolution of a path after as many members as there are. -/
inductive Advanced (hir : HirProgram) (path : ResolvedPath) : ResolveResult → Prop where
  | settled {symbol : SymbolId} (h : path.resolution = .resolved symbol) :
    Advanced hir path path.resolution
  | undecided {symbols : List SymbolId} (h : path.resolution = .ambiguous symbols) :
    Advanced hir path path.resolution
  | member {owner name : String} {scope : ScopeId} {symbol : SymbolId}
      (h : path.resolution = .unresolved) (hsegments : path.segments = [owner, name])
      (hscope : partScope hir path.span = some scope)
      (howner : lookupName hir scope owner = .resolved symbol)
      (hmember : hir.symbols.resolveMember symbol name ≠ .unresolved) :
    Advanced hir path (hir.symbols.resolveMember symbol name)
  | unknown (h : path.resolution = .unresolved)
      (hnone : ∀ owner name scope symbol, path.segments = [owner, name] →
        partScope hir path.span = some scope → lookupName hir scope owner = .resolved symbol →
        hir.symbols.resolveMember symbol name = .unresolved) :
    Advanced hir path path.resolution
  | noOwner {resolvedSegments : ℕ} {remaining : List String} {reason : PartialResolutionReason}
      (h : path.resolution = .partiallyResolved ⟨none, resolvedSegments, remaining, reason⟩) :
    Advanced hir path path.resolution
  | noneRemaining {owner : SymbolId} {resolvedSegments : ℕ} {reason : PartialResolutionReason}
      (h : path.resolution = .partiallyResolved ⟨some owner, resolvedSegments, [], reason⟩) :
    Advanced hir path path.resolution
  | complete {owner last : SymbolId} {resolvedSegments : ℕ} {remaining : List String}
      {reason : PartialResolutionReason}
      (h : path.resolution = .partiallyResolved ⟨some owner, resolvedSegments, remaining, reason⟩)
      (hne : remaining ≠ []) (hchain : Chain hir.symbols owner remaining last) :
    Advanced hir path (.resolved last)
  | ambiguous {owner last : SymbolId} {resolvedSegments : ℕ} {taken rest : List String}
      {name : String} {reason : PartialResolutionReason} {members : List SymbolId}
      (h : path.resolution =
        .partiallyResolved ⟨some owner, resolvedSegments, taken ++ name :: rest, reason⟩)
      (hchain : Chain hir.symbols owner taken last)
      (hmember : hir.symbols.resolveMember last name = .ambiguous members) :
    Advanced hir path (.ambiguous members)
  | stuck {owner : SymbolId} {resolvedSegments : ℕ} {rest : List String} {name : String}
      {reason : PartialResolutionReason}
      (h : path.resolution =
        .partiallyResolved ⟨some owner, resolvedSegments, name :: rest, reason⟩)
      (hmember : hir.symbols.resolveMember owner name = .unresolved) :
    Advanced hir path path.resolution
  | further {owner last : SymbolId} {resolvedSegments : ℕ} {taken rest : List String}
      {name : String} {reason : PartialResolutionReason}
      (h : path.resolution =
        .partiallyResolved ⟨some owner, resolvedSegments, taken ++ name :: rest, reason⟩)
      (hchain : Chain hir.symbols owner taken last) (hne : taken ≠ [])
      (hmember : hir.symbols.resolveMember last name = .unresolved)
      (hcount : resolvedSegments + taken.length < 2 ^ 32) :
    Advanced hir path (.partiallyResolved ⟨some last, resolvedSegments + taken.length,
      name :: rest, .memberRequiresTypeChecking⟩)
  | uncounted {owner last : SymbolId} {resolvedSegments : ℕ} {taken rest : List String}
      {name : String} {reason : PartialResolutionReason}
      (h : path.resolution =
        .partiallyResolved ⟨some owner, resolvedSegments, taken ++ name :: rest, reason⟩)
      (hchain : Chain hir.symbols owner taken last) (hne : taken ≠ [])
      (hmember : hir.symbols.resolveMember last name = .unresolved)
      (hcount : 2 ^ 32 ≤ resolvedSegments + taken.length) :
    Advanced hir path path.resolution

theorem resolveMember_ne_partiallyResolved (symbols : SymbolTable) (owner : SymbolId)
    (name : String) (resolution : PartialResolution) :
    symbols.resolveMember owner name ≠ .partiallyResolved resolution :=
  ScopeTree.resolveSymbols_ne_partiallyResolved _ resolution

variable {symbols : SymbolTable}

theorem advanceLoop_of_chain {owner last : SymbolId}
    {taken : List String} (h : Chain symbols owner taken last) (resolvedSegments index : ℕ)
    (rest : List String) :
    advanceLoop symbols resolvedSegments owner index (taken ++ rest) =
      advanceLoop symbols resolvedSegments last (index + taken.length) rest := by
  induction h generalizing index with
  | nil owner => rfl
  | cons h hrest ih =>
    rw [List.cons_append, advanceLoop, h]
    dsimp only
    rw [ih (index + 1), List.length_cons, Nat.add_right_comm, Nat.add_assoc]

theorem exists_chain (symbols : SymbolTable) (owner : SymbolId) (names : List String) :
    ∃ taken rest last, names = taken ++ rest ∧ Chain symbols owner taken last ∧
      ∀ name more, rest = name :: more →
        ∀ member, symbols.resolveMember last name ≠ .resolved member := by
  induction names generalizing owner with
  | nil => exact ⟨[], [], owner, rfl, .nil owner, by simp⟩
  | cons name names ih =>
    cases hm : symbols.resolveMember owner name with
    | resolved member =>
      obtain ⟨taken, rest, last, hnames, hchain, hend⟩ := ih member
      exact ⟨name :: taken, rest, last, by rw [hnames, List.cons_append], .cons hm hchain, hend⟩
    | partiallyResolved resolution =>
      exact absurd hm (resolveMember_ne_partiallyResolved symbols owner name resolution)
    | unresolved =>
      refine ⟨[], name :: names, owner, rfl, .nil owner, ?_⟩
      intro name' more hcons member
      obtain ⟨rfl, -⟩ := List.cons.inj hcons
      simp [hm]
    | ambiguous members =>
      refine ⟨[], name :: names, owner, rfl, .nil owner, ?_⟩
      intro name' more hcons member
      obtain ⟨rfl, -⟩ := List.cons.inj hcons
      simp [hm]

theorem resolvePath_resolution (hir : HirProgram) (path : ResolvedPath) :
    (resolvePath hir path).1.resolution = (pathResolution hir path).getD path.resolution := by
  unfold resolvePath
  cases pathResolution hir path <;> rfl

theorem resolvePath_eq (hir : HirProgram) (path : ResolvedPath) :
    (resolvePath hir path).1 =
      { path with resolution := (resolvePath hir path).1.resolution } := by
  unfold resolvePath
  cases pathResolution hir path <;> rfl

theorem resolvePath_advanced (hir : HirProgram) (path : ResolvedPath) :
    Advanced hir path (resolvePath hir path).1.resolution := by
  rw [resolvePath_resolution]
  cases hp : path.resolution with
  | resolved symbol =>
    have hnone : pathResolution hir path = none := by simp [pathResolution, hp]
    rw [hnone, ← hp]
    exact .settled hp
  | ambiguous symbols =>
    have hnone : pathResolution hir path = none := by simp [pathResolution, hp]
    rw [hnone, ← hp]
    exact .undecided hp
  | unresolved =>
    have hpath : pathResolution hir path = partMember hir path := by simp [pathResolution, hp]
    rw [hpath, ← hp]
    by_cases hmember : ∃ owner name scope symbol, path.segments = [owner, name] ∧
        partScope hir path.span = some scope ∧ lookupName hir scope owner = .resolved symbol ∧
        hir.symbols.resolveMember symbol name ≠ .unresolved
    · obtain ⟨owner, name, scope, symbol, hsegments, hscope, howner, hne⟩ := hmember
      have hsome : partMember hir path = some (hir.symbols.resolveMember symbol name) := by
        simp [partMember, hsegments, hscope, howner, hne]
      rw [hsome]
      exact .member hp hsegments hscope howner hne
    · have hnone : partMember hir path = none := by
        unfold partMember
        split
        · rename_i owner name scope hsegments hscope
          split
          · rename_i symbol howner
            dsimp only
            split_ifs with hne
            · rfl
            · exact absurd ⟨owner, name, scope, symbol, hsegments, hscope, howner, hne⟩ hmember
          · rfl
        · rfl
      rw [hnone]
      refine .unknown hp ?_
      intro owner name scope symbol hsegments hscope howner
      by_contra hne
      exact hmember ⟨owner, name, scope, symbol, hsegments, hscope, howner, hne⟩
  | partiallyResolved resolution =>
    obtain ⟨owner?, resolvedSegments, remaining, reason⟩ := resolution
    cases owner? with
    | none =>
      have hnone : pathResolution hir path = none := by simp [pathResolution, hp]
      rw [hnone, ← hp]
      exact .noOwner hp
    | some owner =>
      cases remaining with
      | nil =>
        have hnone : pathResolution hir path = none := by simp [pathResolution, hp]
        rw [hnone, ← hp]
        exact .noneRemaining hp
      | cons first others =>
        have hpath : pathResolution hir path =
            advanceLoop hir.symbols resolvedSegments owner 0 (first :: others) := by
          simp [pathResolution, hp]
        obtain ⟨taken, rest, last, hnames, hchain, hend⟩ :=
          exists_chain hir.symbols owner (first :: others)
        rw [hpath, ← hp, hnames, advanceLoop_of_chain hchain]
        cases rest with
        | nil =>
          rw [List.append_nil] at hnames
          refine .complete hp (by simp) ?_
          rw [hnames]
          exact hchain
        | cons name more =>
          rw [hnames] at hp
          cases hm : hir.symbols.resolveMember last name with
          | resolved member => exact absurd hm (hend name more rfl member)
          | partiallyResolved resolution =>
            exact absurd hm (resolveMember_ne_partiallyResolved hir.symbols last name resolution)
          | ambiguous members =>
            rw [advanceLoop, hm]
            exact .ambiguous hp hchain hm
          | unresolved =>
            rw [advanceLoop, hm]
            dsimp only
            rw [Nat.zero_add]
            cases taken with
            | nil =>
              cases hchain
              exact .stuck hp hm
            | cons second taken =>
              by_cases hcount : resolvedSegments + (second :: taken).length < 2 ^ 32
              · rw [if_pos (by simpa using hcount)]
                exact .further hp hchain (by simp) hm hcount
              · rw [if_neg (by simpa using hcount)]
                exact .uncounted hp hchain (by simp) hm (not_lt.mp hcount)

variable {hir : HirProgram} {path : ResolvedPath}

theorem pathResolution_of_chain {owner last : SymbolId} {resolvedSegments : ℕ}
    {taken rest : List String} {reason : PartialResolutionReason}
    (h : path.resolution =
      .partiallyResolved ⟨some owner, resolvedSegments, taken ++ rest, reason⟩)
    (hne : taken ++ rest ≠ []) (hchain : Chain hir.symbols owner taken last) :
    pathResolution hir path =
      advanceLoop hir.symbols resolvedSegments last taken.length rest := by
  have hloop := advanceLoop_of_chain hchain resolvedSegments 0 rest
  obtain ⟨name, others, hnames⟩ := List.exists_cons_of_ne_nil hne
  rw [hnames] at h hloop
  rw [Nat.zero_add] at hloop
  simp only [pathResolution, h, hloop]

variable {resolution : ResolveResult}

theorem Advanced.unique (h : Advanced hir path resolution) :
    (resolvePath hir path).1.resolution = resolution := by
  rw [resolvePath_resolution]
  cases h with
  | settled h => simp [pathResolution, h]
  | undecided h => simp [pathResolution, h]
  | member h hsegments hscope howner hmember =>
    simp [pathResolution, h, partMember, hsegments, hscope, howner, hmember]
  | unknown h hnone =>
    have hpart : partMember hir path = none := by
      unfold partMember
      split
      · rename_i owner name scope hsegments hscope
        split
        · rename_i symbol howner
          simp [hnone owner name scope symbol hsegments hscope howner]
        · rfl
      · rfl
    simp [pathResolution, h, hpart]
  | noOwner h => simp [pathResolution, h]
  | noneRemaining h => simp [pathResolution, h]
  | @complete _ _ _ remaining _ h hne hchain =>
    rw [← List.append_nil remaining] at h hne
    rw [pathResolution_of_chain h hne hchain]
    rfl
  | ambiguous h hchain hmember =>
    rw [pathResolution_of_chain h (by simp) hchain, advanceLoop, hmember]
    rfl
  | stuck h hmember => simp [pathResolution, h, advanceLoop, hmember]
  | further h hchain hne hmember hcount =>
    rw [pathResolution_of_chain h (by simp) hchain, advanceLoop, hmember]
    dsimp only
    rw [if_pos]
    · rfl
    · rw [Bool.and_eq_true, decide_eq_true_eq, decide_eq_true_eq]
      exact ⟨List.length_pos_iff.mpr hne, hcount⟩
  | uncounted h hchain hne hmember hcount =>
    rw [pathResolution_of_chain h (by simp) hchain, advanceLoop, hmember]
    dsimp only
    rw [if_neg]
    · rfl
    · rw [Bool.and_eq_true, decide_eq_true_eq, decide_eq_true_eq]
      exact fun htest => absurd htest.2 (not_lt.mpr hcount)

/-- A path as the pass leaves it. -/
def PathResolved (hir : HirProgram) (path path' : ResolvedPath) : Prop :=
  path' = { path with resolution := path'.resolution } ∧ Advanced hir path path'.resolution

theorem pathResolved_iff {path path' : ResolvedPath} :
    PathResolved hir path path' ↔ path' = (resolvePath hir path).1 := by
  constructor
  · rintro ⟨heq, hadvanced⟩
    rw [heq, resolvePath_eq, hadvanced.unique]
  · rintro rfl
    exact ⟨resolvePath_eq hir path, resolvePath_advanced hir path⟩

/-- The segments of a partial resolution are those of its path. -/
def Counted (path : ResolvedPath) : Prop :=
  ∀ resolution, path.resolution = .partiallyResolved resolution →
    resolution.resolvedSegments + resolution.remaining.length = path.segments.length

theorem PathResolved.counted {path path' : ResolvedPath} (h : PathResolved hir path path')
    (hcounted : Counted path) : Counted path' := by
  obtain ⟨heq, hadvanced⟩ := h
  have hsegments : path'.segments = path.segments := by rw [heq]
  intro resolution hr
  rw [hr] at hadvanced
  rw [hsegments]
  generalize hg : ResolveResult.partiallyResolved resolution = result at hadvanced
  cases hadvanced with
  | settled h => rw [h] at hg; cases hg
  | undecided h => rw [h] at hg; cases hg
  | member => exact absurd hg.symm (resolveMember_ne_partiallyResolved _ _ _ _)
  | unknown h => rw [h] at hg; cases hg
  | noOwner => exact hcounted _ hg.symm
  | noneRemaining => exact hcounted _ hg.symm
  | complete => cases hg
  | ambiguous => cases hg
  | stuck => exact hcounted _ hg.symm
  | further h =>
    cases hg
    have hlength := hcounted _ h
    rw [List.length_append] at hlength
    dsimp only at hlength ⊢
    omega
  | uncounted => exact hcounted _ hg.symm

/-- There is no member to go on with. -/
def Settled (symbols : SymbolTable) : ResolveResult → Prop
  | .resolved _ | .ambiguous _ => True
  | .unresolved => False
  | .partiallyResolved resolution => ∃ owner name rest,
    resolution.resolvedPrefix = some owner ∧ resolution.remaining = name :: rest ∧
      symbols.resolveMember owner name = .unresolved

theorem settled_resolveMember {owner : SymbolId} {name : String}
    (h : symbols.resolveMember owner name ≠ .unresolved) :
    Settled symbols (symbols.resolveMember owner name) := by
  cases hm : symbols.resolveMember owner name with
  | resolved => trivial
  | ambiguous => trivial
  | unresolved => exact h hm
  | partiallyResolved => exact absurd hm (resolveMember_ne_partiallyResolved _ _ _ _)

theorem settled_advanceLoop {resolvedSegments : ℕ} {owner : SymbolId}
    {index : ℕ} {names : List String}
    (h : advanceLoop symbols resolvedSegments owner index names = some resolution) :
    Settled symbols resolution := by
  induction names generalizing owner index with
  | nil =>
    cases h
    trivial
  | cons name rest ih =>
    rw [advanceLoop] at h
    split at h
    · exact ih h
    · cases h
      trivial
    · rename_i hm
      split_ifs at h
      cases h
      exact ⟨owner, name, rest, rfl, rfl, hm⟩
    · cases h

theorem settled_pathResolution (h : pathResolution hir path = some resolution) :
    Settled hir.symbols resolution := by
  unfold pathResolution at h
  split at h
  · unfold partMember at h
    split at h
    · split at h
      · dsimp only at h
        split_ifs at h with hne
        cases h
        exact settled_resolveMember hne
      · cases h
    · cases h
  · exact settled_advanceLoop h
  · cases h

theorem pathResolution_of_settled (h : Settled hir.symbols path.resolution) :
    pathResolution hir path = none := by
  cases hr : path.resolution with
  | resolved => simp [pathResolution, hr]
  | ambiguous => simp [pathResolution, hr]
  | unresolved =>
    rw [hr] at h
    exact h.elim
  | partiallyResolved resolution =>
    obtain ⟨owner?, resolvedSegments, remaining, reason⟩ := resolution
    rw [hr] at h
    obtain ⟨owner, name, rest, howner, hremaining, hm⟩ := h
    cases howner
    cases hremaining
    simp [pathResolution, hr, advanceLoop, hm]

theorem resolvePath_of_settled (h : Settled hir.symbols path.resolution) :
    resolvePath hir path = (path, []) := by
  simp [resolvePath, pathResolution_of_settled h]

theorem resolvePath_idem (hir : HirProgram) (path : ResolvedPath) :
    resolvePath hir (resolvePath hir path).1 = ((resolvePath hir path).1, []) := by
  cases hp : pathResolution hir path with
  | none => simp [resolvePath, hp]
  | some resolution =>
    have hresult : (resolvePath hir path).1 = { path with resolution } := by simp [resolvePath, hp]
    rw [hresult]
    exact resolvePath_of_settled (settled_pathResolution hp)

/-! Actions, expressions, patterns and handler arms. -/

/-- The symbol of an action is looked up again where its effect is one of the project. -/
def ActionResolved (hir : HirProgram) (action action' : ResolvedActionRef) : Prop :=
  PathResolved hir action.effectPath action'.effectPath ∧
    action' = { action with
      effectPath := action'.effectPath
      actionSymbol := (sourceActionResolution hir action').getD action.actionSymbol }

theorem resolveAction_resolved (hir : HirProgram) (action : ResolvedActionRef) :
    ActionResolved hir action (resolveAction hir action).1 := by
  have hpath : PathResolved hir action.effectPath (resolvePath hir action.effectPath).1 :=
    pathResolved_iff.mpr rfl
  have hsymbol : ∀ resolution, sourceActionResolution hir { action with
      effectPath := (resolvePath hir action.effectPath).1, actionSymbol := resolution } =
      sourceActionResolution hir { action with
        effectPath := (resolvePath hir action.effectPath).1 } := fun _ => rfl
  unfold resolveAction
  dsimp only
  split
  · rename_i resolution heq
    refine ⟨hpath, ?_⟩
    dsimp only
    rw [hsymbol, heq]
    rfl
  · rename_i heq
    refine ⟨hpath, ?_⟩
    dsimp only
    rw [heq]
    rfl

theorem resolveAction_idem (hir : HirProgram) (action : ResolvedActionRef) :
    (resolveAction hir (resolveAction hir action).1).1 = (resolveAction hir action).1 := by
  obtain ⟨hpath, heq⟩ := resolveAction_resolved hir action
  obtain ⟨hpath', heq'⟩ := resolveAction_resolved hir (resolveAction hir action).1
  generalize (resolveAction hir action).1 = first at *
  generalize (resolveAction hir first).1 = second at *
  rw [pathResolved_iff] at hpath hpath'
  have hsame : second.effectPath = first.effectPath := by
    rw [hpath', hpath, resolvePath_idem]
  have hsource : sourceActionResolution hir second = sourceActionResolution hir first := by
    have haction : second.action = first.action := by rw [heq']
    simp [sourceActionResolution, hsame, haction]
  rw [heq', hsame, hsource]
  cases hs : sourceActionResolution hir first with
  | none => rfl
  | some resolution =>
    have hfirst : first.actionSymbol = resolution := by
      rw [heq, hs]
      rfl
    rw [← hfirst]
    rfl

/-- An expression as the pass leaves it, apart from method calls and their receivers. -/
inductive ExprResolved (hir : HirProgram) : HirExpr → HirExpr → Prop where
  | path {path path' : ResolvedPath} (h : PathResolved hir path path') :
    ExprResolved hir (.path path) (.path path')
  | reflectPath {path path' : ResolvedPath} (h : PathResolved hir path path') :
    ExprResolved hir (.reflect (.path path)) (.reflect (.path path'))
  | reflectMethod {receiver receiver' spec spec' : ResolvedPath} (method : String)
      (hreceiver : PathResolved hir receiver receiver') (hspec : PathResolved hir spec spec') :
    ExprResolved hir (.reflect (.specMethod receiver spec method))
      (.reflect (.specMethod receiver' spec' method))
  | perform {action action' : ResolvedActionRef} (args : List HirArg)
      (h : ActionResolved hir action action') :
    ExprResolved hir (.perform action args) (.perform action' args)
  | record {path path' : ResolvedPath} (fields : List HirFieldInit)
      (h : PathResolved hir path path') :
    ExprResolved hir (.record (some path) fields) (.record (some path') fields)
  | other {expr : HirExpr} (h : exprPaths expr = []) : ExprResolved hir expr expr

theorem resolveExpr_resolved (hir : HirProgram) (expr : HirExpr) :
    ExprResolved hir expr (resolveExpr hir expr).1 := by
  have hpath : ∀ path, PathResolved hir path (resolvePath hir path).1 :=
    fun path => pathResolved_iff.mpr rfl
  unfold resolveExpr
  split
  · rename_i target
    cases target with
    | path path => exact .reflectPath (hpath path)
    | specMethod receiver spec method => exact .reflectMethod method (hpath receiver) (hpath spec)
  · exact .path (hpath _)
  · exact .perform _ (resolveAction_resolved hir _)
  · exact .record _ (hpath _)
  · apply ExprResolved.other
    unfold exprPaths
    split
    all_goals simp_all

theorem resolveExpr_idem (hir : HirProgram) (expr : HirExpr) :
    (resolveExpr hir (resolveExpr hir expr).1).1 = (resolveExpr hir expr).1 := by
  cases expr with
  | reflect target =>
    cases target with
    | path path => simp [resolveExpr, resolveReflect, resolvePath_idem]
    | specMethod receiver spec method => simp [resolveExpr, resolveReflect, resolvePath_idem]
  | path path => simp [resolveExpr, resolvePath_idem]
  | perform action args => simp [resolveExpr, resolveAction_idem]
  | record path fields =>
    cases path with
    | none => rfl
    | some path => simp [resolveExpr, resolvePath_idem]
  | _ => rfl

/-- Receivers come before their calls, and no two calls share one. -/
structure ReceiversFirst (hir : HirProgram) : Prop where
  before : ∀ (call receiver : ℕ) (method : String) (args : List HirArg),
    hir.exprs[call]? = some (.methodCall receiver method args) → receiver < call
  once : ∀ (call call' receiver : ℕ) (method method' : String) (args args' : List HirArg),
    hir.exprs[call]? = some (.methodCall receiver method args) →
    hir.exprs[call']? = some (.methodCall receiver method' args') → call = call'

/-- The method call is on a path that stands for a symbol with a member of the method's name. -/
def RewrittenCall (hir : HirProgram) (call receiver : ℕ) (args : List HirArg)
    (callee : ResolvedPath) : Prop :=
  ∃ method path path' owner, hir.exprs[call]? = some (.methodCall receiver method args) ∧
    hir.exprs[receiver]? = some (.path path) ∧ PathResolved hir path path' ∧
    path'.resolution = .resolved owner ∧ hir.symbols.resolveMember owner method ≠ .unresolved ∧
    callee =
      ⟨path'.segments ++ [method], hir.symbols.resolveMember owner method, path'.span⟩

variable {callee : ResolvedPath} {method : String}

theorem memberCallee_eq_some {receiver : HirExpr} :
    memberCallee symbols receiver method = some callee ↔
      ∃ path owner, receiver = .path path ∧ path.resolution = .resolved owner ∧
        symbols.resolveMember owner method ≠ .unresolved ∧
        callee = ⟨path.segments ++ [method], symbols.resolveMember owner method, path.span⟩ := by
  unfold memberCallee
  constructor
  · intro h
    split at h
    · rename_i segments owner span
      dsimp only at h
      split_ifs at h with hne
      cases h
      exact ⟨⟨segments, .resolved owner, span⟩, owner, rfl, rfl, hne, rfl⟩
    · cases h
  · rintro ⟨⟨segments, resolution, span⟩, owner, rfl, hr, hne, rfl⟩
    cases hr
    simp [hne]

variable {args : List HirArg}

theorem memberCallee_visited {call receiver : ℕ}
    (hcall : hir.exprs[call]? = some (.methodCall receiver method args)) :
    ((hir.exprs[receiver]?.map fun expr => (resolveExpr hir expr).1).bind
        (memberCallee hir.symbols · method)) = some callee ↔
      RewrittenCall hir call receiver args callee := by
  rw [Option.bind_eq_some_iff]
  constructor
  · rintro ⟨expr', he', hcallee⟩
    obtain ⟨expr, he, hexpr⟩ := Option.map_eq_some_iff.mp he'
    obtain ⟨path', owner, rfl, howner, hne, rfl⟩ := memberCallee_eq_some.mp hcallee
    have hresolved := resolveExpr_resolved hir expr
    rw [hexpr] at hresolved
    cases hresolved with
    | path h => exact ⟨method, _, path', owner, hcall, he, h, howner, hne, rfl⟩
    | other h => cases h
  · rintro ⟨method', path, path', owner, hcall', he, hpath, howner, hne, rfl⟩
    rw [hcall] at hcall'
    cases hcall'
    rw [pathResolved_iff] at hpath
    refine ⟨.path path', ?_, memberCallee_eq_some.mpr ⟨path', owner, rfl, howner, hne, rfl⟩⟩
    rw [he, hpath]
    rfl

theorem RewrittenCall.unique {call receiver receiver' : ℕ} {args args' : List HirArg}
    {callee callee' : ResolvedPath} (h : RewrittenCall hir call receiver args callee)
    (h' : RewrittenCall hir call receiver' args' callee') :
    receiver = receiver' ∧ args = args' ∧ callee = callee' := by
  have hcall := h
  have hcall' := h'
  obtain ⟨method, _, _, _, he, -⟩ := h
  obtain ⟨method', _, _, _, he', -⟩ := h'
  have hsame := he.symm.trans he'
  cases hsame
  have heq := (memberCallee_visited he).mpr hcall
  rw [(memberCallee_visited he).mpr hcall'] at heq
  exact ⟨rfl, rfl, (Option.some.inj heq).symm⟩

/-- The state of the pass after the first expressions. -/
structure Visited (before : HirProgram) (count : ℕ) (hir : HirProgram) : Prop where
  rest : hir = { before with exprs := hir.exprs }
  length : hir.exprs.length = before.exprs.length
  ahead : ∀ id, count ≤ id → hir.exprs[id]? = before.exprs[id]?
  called : ∀ call < count, ∀ receiver args callee,
    RewrittenCall before call receiver args callee →
      hir.exprs[call]? = some (.call receiver args) ∧ hir.exprs[receiver]? = some (.path callee)
  own : ∀ id < count, (∀ receiver args callee, ¬ RewrittenCall before id receiver args callee) →
    (∀ call < count, ∀ args callee, ¬ RewrittenCall before call id args callee) →
      hir.exprs[id]? = before.exprs[id]?.map fun expr => (resolveExpr before expr).1

theorem visited_start (before : HirProgram) : Visited before 0 before where
  rest := rfl
  length := rfl
  ahead _ _ := rfl
  called _ h := absurd h (Nat.not_lt_zero _)
  own _ h := absurd h (Nat.not_lt_zero _)

variable {before hir : HirProgram} {count : ℕ}

theorem Visited.resolveExpr_eq (h : Visited before count hir) (expr : HirExpr) :
    resolveExpr hir expr = resolveExpr before expr := by
  rw [h.rest]
  rfl

theorem Visited.symbols_eq (h : Visited before count hir) : hir.symbols = before.symbols := by
  rw [h.rest]

/-- What the receiver of the next expression looks like when that is a method call. -/
theorem Visited.receiver (hfirst : ReceiversFirst before)
    {count receiver : ℕ} (h : Visited before count hir)
    (hcall : before.exprs[count]? = some (.methodCall receiver method args)) :
    hir.exprs[receiver]?.bind (memberCallee hir.symbols · method) =
      (before.exprs[receiver]?.map fun expr => (resolveExpr before expr).1).bind
        (memberCallee before.symbols · method) := by
  have hlt : receiver < count := hfirst.before count receiver method args hcall
  rw [h.symbols_eq]
  by_cases hrewritten : ∃ inner args' callee, RewrittenCall before receiver inner args' callee
  · obtain ⟨inner, args', callee, hrewritten⟩ := hrewritten
    rw [(h.called receiver hlt inner args' callee hrewritten).1]
    obtain ⟨method', _, _, _, he, -⟩ := hrewritten
    rw [he]
    rfl
  · rw [h.own receiver hlt (fun inner args' callee hr => hrewritten ⟨inner, args', callee, hr⟩)]
    intro call hcall' args' callee hr
    obtain ⟨method', _, _, _, he, -⟩ := hr
    have hsame := hfirst.once call count receiver method' method args' args he hcall
    omega

variable {expr : HirExpr}

theorem Visited.cases (hfirst : ReceiversFirst before) (h : Visited before count hir)
    (he : before.exprs[count]? = some expr) :
    (∃ receiver args callee, RewrittenCall before count receiver args callee ∧
      (visitExpr hir count expr).1 = { hir with exprs :=
        (hir.exprs.set receiver (.path callee)).set count (.call receiver args) }) ∨
    ((∀ receiver args callee, ¬ RewrittenCall before count receiver args callee) ∧
      (visitExpr hir count expr).1 =
        { hir with exprs := hir.exprs.set count (resolveExpr before expr).1 }) := by
  unfold visitExpr
  split
  · rename_i receiver method args
    have hreceiver := h.receiver hfirst he
    split
    · rename_i callee hcallee
      rw [hreceiver] at hcallee
      exact .inl ⟨receiver, args, callee, (memberCallee_visited he).mp hcallee, rfl⟩
    · rename_i hnone
      refine .inr ⟨?_, rfl⟩
      intro receiver' args' callee hr
      have hr' := hr
      obtain ⟨method', _, _, _, he', -⟩ := hr'
      rw [he] at he'
      cases he'
      rw [hreceiver, (memberCallee_visited he).mpr hr] at hnone
      cases hnone
  · rename_i hno
    refine .inr ⟨?_, ?_⟩
    · rintro receiver args callee ⟨method, _, _, _, he', -⟩
      rw [he] at he'
      exact hno receiver method args (Option.some.inj he')
    · rw [h.resolveExpr_eq]

theorem Visited.step (hfirst : ReceiversFirst before) (h : Visited before count hir)
    (he : before.exprs[count]? = some expr) :
    Visited before (count + 1) (visitExpr hir count expr).1 := by
  have hlength : count < hir.exprs.length := by
    rw [h.length]
    exact (List.getElem?_eq_some_iff.mp he).1
  rcases h.cases hfirst he with ⟨receiver, args, callee, hcall, hv⟩ | ⟨hno, hv⟩
  · have hcall' := hcall
    obtain ⟨method, path, _, _, hmethod, hpath, -⟩ := hcall'
    have hlt : receiver < count := hfirst.before count receiver method args hmethod
    rw [hv]
    constructor
    · rw [h.rest]
    · simp [h.length]
    · intro id hid
      have hne : count ≠ id := by omega
      have hne' : receiver ≠ id := by omega
      simp only [List.getElem?_set_ne hne, List.getElem?_set_ne hne']
      exact h.ahead id (by omega)
    · intro call hc receiver' args' callee' hr
      rcases Nat.lt_succ_iff_lt_or_eq.mp hc with hc | rfl
      · obtain ⟨hat, hpath'⟩ := h.called call hc receiver' args' callee' hr
        obtain ⟨method', _, _, _, hm', -⟩ := hr
        have hne : count ≠ call := by omega
        have hne' : receiver ≠ call := by
          rintro rfl
          rw [hpath] at hm'
          cases hm'
        have hlt' : receiver' < call := hfirst.before call receiver' method' args' hm'
        have hother : receiver ≠ receiver' := by
          rintro rfl
          have := hfirst.once call count receiver method' method args' args hm' hmethod
          omega
        have hne'' : count ≠ receiver' := by omega
        simp only [List.getElem?_set_ne hne, List.getElem?_set_ne hne',
          List.getElem?_set_ne hother, List.getElem?_set_ne hne'']
        exact ⟨hat, hpath'⟩
      · obtain ⟨rfl, rfl, rfl⟩ := hcall.unique hr
        have hne : call ≠ receiver := by omega
        have hlt'' : receiver < hir.exprs.length := by omega
        constructor
        · rw [List.getElem?_set_self (by simpa using hlength)]
        · rw [List.getElem?_set_ne hne, List.getElem?_set_self hlt'']
    · intro id hid hnone hnot
      rcases Nat.lt_succ_iff_lt_or_eq.mp hid with hid | rfl
      · have hne : count ≠ id := by omega
        have hne' : receiver ≠ id := by
          rintro rfl
          exact hnot count (by omega) args callee hcall
        simp only [List.getElem?_set_ne hne, List.getElem?_set_ne hne']
        exact h.own id hid hnone fun call hc => hnot call (by omega)
      · exact absurd hcall (hnone receiver args callee)
  · rw [hv]
    constructor
    · rw [h.rest]
    · simp [h.length]
    · intro id hid
      have hne : count ≠ id := by omega
      simp only [List.getElem?_set_ne hne]
      exact h.ahead id (by omega)
    · intro call hc receiver args callee hr
      rcases Nat.lt_succ_iff_lt_or_eq.mp hc with hc | rfl
      · obtain ⟨hat, hpath⟩ := h.called call hc receiver args callee hr
        obtain ⟨method, _, _, _, hm, -⟩ := hr
        have hlt : receiver < call := hfirst.before call receiver method args hm
        have hne : count ≠ call := by omega
        have hne' : count ≠ receiver := by omega
        simp only [List.getElem?_set_ne hne, List.getElem?_set_ne hne']
        exact ⟨hat, hpath⟩
      · exact absurd hr (hno receiver args callee)
    · intro id hid hnone hnot
      rcases Nat.lt_succ_iff_lt_or_eq.mp hid with hid | rfl
      · have hne : count ≠ id := by omega
        simp only [List.getElem?_set_ne hne]
        exact h.own id hid hnone fun call hc => hnot call (by omega)
      · simp only [List.getElem?_set_self hlength]
        rw [he]
        rfl

theorem Visited.run {before : HirProgram} (hfirst : ReceiversFirst before) (rest : List HirExpr)
    (h : Visited before count hir) (hrest : rest = before.exprs.drop count) :
    Visited before (count + rest.length) (visitExprs rest count hir).1 := by
  induction rest generalizing count hir with
  | nil => exact h
  | cons expr rest ih =>
    have he : before.exprs[count]? = some expr := by
      have hhead := congrArg (·[0]?) hrest
      simpa using hhead.symm
    have htail : rest = before.exprs.drop (count + 1) := by
      have htail := congrArg List.tail hrest
      simpa using htail
    have hnext := ih (h.step hfirst he) htail
    rw [List.length_cons, ← Nat.add_assoc, Nat.add_right_comm]
    exact hnext

theorem visited_exprs (hfirst : ReceiversFirst hir) :
    Visited hir hir.exprs.length (visitExprs hir.exprs 0 hir).1 := by
  have hrun := (visited_start hir).run hfirst hir.exprs (by simp)
  rwa [Nat.zero_add] at hrun

inductive PatResolved (hir : HirProgram) : HirPat → HirPat → Prop where
  | variant {path path' : ResolvedPath} (args : List HirPatId) (h : PathResolved hir path path') :
    PatResolved hir (.variant path args) (.variant path' args)
  | record {path path' : ResolvedPath} (fields : List HirRecordPatField)
      (h : PathResolved hir path path') :
    PatResolved hir (.record (some path) fields) (.record (some path') fields)
  | other {pat : HirPat} (hvariant : ∀ path args, pat ≠ .variant path args)
      (hrecord : ∀ path fields, pat ≠ .record (some path) fields) : PatResolved hir pat pat

def ArmResolved (hir : HirProgram) (arm arm' : HirHandlerArm) : Prop :=
  ActionResolved hir arm.action arm'.action ∧ arm' = { arm with action := arm'.action }

theorem resolvePat_resolved (hir : HirProgram) (pat : HirPat) :
    PatResolved hir pat (resolvePat hir pat).1 := by
  have hpath : ∀ path, PathResolved hir path (resolvePath hir path).1 :=
    fun path => pathResolved_iff.mpr rfl
  unfold resolvePat
  split
  · exact .variant _ (hpath _)
  · exact .record _ (hpath _)
  · rename_i hvariant hrecord
    exact .other hvariant hrecord

theorem resolvePat_idem (hir : HirProgram) (pat : HirPat) :
    (resolvePat hir (resolvePat hir pat).1).1 = (resolvePat hir pat).1 := by
  cases pat with
  | variant path args => simp [resolvePat, resolvePath_idem]
  | record path fields =>
    cases path with
    | none => rfl
    | some path => simp [resolvePat, resolvePath_idem]
  | _ => rfl

theorem resolveArm_resolved (hir : HirProgram) (arm : HirHandlerArm) :
    ArmResolved hir arm (resolveArm hir arm).1 :=
  ⟨resolveAction_resolved hir arm.action, rfl⟩

theorem resolveArm_idem (hir : HirProgram) (arm : HirHandlerArm) :
    (resolveArm hir (resolveArm hir arm).1).1 = (resolveArm hir arm).1 := by
  simp [resolveArm, resolveAction_idem]

/-- A call of a member has its path as callee, every other expression is only advanced. -/
structure MembersResolved (hir out : HirProgram) : Prop where
  calls : ∀ call receiver args callee, RewrittenCall hir call receiver args callee →
    out.exprs[call]? = some (.call receiver args) ∧ out.exprs[receiver]? = some (.path callee)
  exprs : ∀ (id : ℕ) (expr : HirExpr), hir.exprs[id]? = some expr →
    (∀ receiver args callee, ¬ RewrittenCall hir id receiver args callee) →
    (∀ call args callee, ¬ RewrittenCall hir call id args callee) →
      ∃ expr', out.exprs[id]? = some expr' ∧ ExprResolved hir expr expr'
  pats : List.Forall₂ (PatResolved hir) hir.pats out.pats
  arms : List.Forall₂ (ArmResolved hir) hir.handlerArms out.handlerArms
  length : out.exprs.length = hir.exprs.length
  rest : out = { hir with exprs := out.exprs, pats := out.pats, handlerArms := out.handlerArms }

theorem RewrittenCall.lt_length {call receiver : ℕ}
    (h : RewrittenCall hir call receiver args callee) :
    call < hir.exprs.length := by
  obtain ⟨method, _, _, _, he, -⟩ := h
  exact (List.getElem?_eq_some_iff.mp he).1

theorem resolveMembers_exprs (hir : HirProgram) :
    (resolveMembers hir).1.exprs = (visitExprs hir.exprs 0 hir).1.exprs := rfl

theorem resolveMembers_pats (hfirst : ReceiversFirst hir) :
    (resolveMembers hir).1.pats = hir.pats.map fun pat => (resolvePat hir pat).1 := by
  have hrest := (visited_exprs hfirst).rest
  unfold resolveMembers
  dsimp only
  rw [hrest, List.map_map]
  rfl

theorem resolveMembers_arms (hfirst : ReceiversFirst hir) :
    (resolveMembers hir).1.handlerArms = hir.handlerArms.map fun arm => (resolveArm hir arm).1 := by
  have hrest := (visited_exprs hfirst).rest
  unfold resolveMembers
  dsimp only
  rw [hrest, List.map_map]
  rfl

theorem forall₂_map {α : Type} {R : α → α → Prop} {f : α → α} (h : ∀ a, R a (f a)) (l : List α) :
    List.Forall₂ R l (l.map f) := by
  induction l with
  | nil => exact .nil
  | cons a l ih => exact .cons (h a) ih

theorem resolveMembers_resolved (hfirst : ReceiversFirst hir) :
    MembersResolved hir (resolveMembers hir).1 := by
  have hv := visited_exprs hfirst
  constructor
  · intro call receiver args callee hr
    exact hv.called call hr.lt_length receiver args callee hr
  · intro id expr he hnone hnot
    have hlt : id < hir.exprs.length := (List.getElem?_eq_some_iff.mp he).1
    refine ⟨(resolveExpr hir expr).1, ?_, resolveExpr_resolved hir expr⟩
    rw [resolveMembers_exprs, hv.own id hlt hnone fun call _ => hnot call, he]
    rfl
  · rw [resolveMembers_pats hfirst]
    exact forall₂_map (resolvePat_resolved hir) hir.pats
  · rw [resolveMembers_arms hfirst]
    exact forall₂_map (resolveArm_resolved hir) hir.handlerArms
  · exact hv.length
  · have hrest := hv.rest
    unfold resolveMembers
    dsimp only
    rw [hrest]

/-- No expression changes when it is visited. -/
def Stable (hir : HirProgram) : Prop :=
  ∀ (id : ℕ) (expr : HirExpr), hir.exprs[id]? = some expr → (resolveExpr hir expr).1 = expr ∧
    ∀ receiver method args, expr = .methodCall receiver method args →
      hir.exprs[receiver]?.bind (memberCallee hir.symbols · method) = none

theorem Stable.visitExpr (h : Stable hir) {id : ℕ}
    (he : hir.exprs[id]? = some expr) : (visitExpr hir id expr).1 = hir := by
  obtain ⟨hexpr, hcall⟩ := h id expr he
  have hsame : hir.exprs.set id expr = hir.exprs := by
    obtain ⟨hlt, hget⟩ := List.getElem?_eq_some_iff.mp he
    rw [← hget]
    exact List.set_getElem_self hlt
  unfold Resolution.visitExpr
  split
  · rename_i receiver method args
    rw [hcall receiver method args rfl]
    dsimp only
    rw [hsame]
  · dsimp only
    rw [hexpr, hsame]

theorem Stable.visitExprs (h : Stable hir) (rest : List HirExpr)
    (hrest : rest = hir.exprs.drop count) : (visitExprs rest count hir).1 = hir := by
  induction rest generalizing count with
  | nil => rfl
  | cons expr rest ih =>
    have he : hir.exprs[count]? = some expr := by
      have hhead := congrArg (·[0]?) hrest
      simpa using hhead.symm
    have htail : rest = hir.exprs.drop (count + 1) := by
      have htail := congrArg List.tail hrest
      simpa using htail
    unfold Resolution.visitExprs
    dsimp only
    rw [h.visitExpr he]
    exact ih htail

theorem settled_callee {call receiver : ℕ} (h : RewrittenCall hir call receiver args callee) :
    Settled hir.symbols callee.resolution := by
  obtain ⟨method, path, path', owner, -, -, -, -, hne, rfl⟩ := h
  exact settled_resolveMember hne

theorem stable_resolveMembers (hfirst : ReceiversFirst hir) : Stable (resolveMembers hir).1 := by
  have hv := visited_exprs hfirst
  have hm := resolveMembers_resolved hfirst
  generalize hout : (resolveMembers hir).1 = out at hm
  have hexprs : out.exprs = (visitExprs hir.exprs 0 hir).1.exprs := by rw [← hout]; rfl
  have hexpr : ∀ expr, resolveExpr out expr = resolveExpr hir expr := by
    intro expr
    rw [hm.rest]
    rfl
  have hsymbols : out.symbols = hir.symbols := by rw [hm.rest]
  have hown : ∀ id < hir.exprs.length,
      (∀ receiver args callee, ¬ RewrittenCall hir id receiver args callee) →
      (∀ call args callee, ¬ RewrittenCall hir call id args callee) →
        out.exprs[id]? = hir.exprs[id]?.map fun expr => (resolveExpr hir expr).1 := by
    intro id hid hnone hnot
    rw [hexprs]
    exact hv.own id hid hnone fun call _ => hnot call
  intro id expr he
  have hlt : id < hir.exprs.length := by
    rw [← hm.length]
    exact (List.getElem?_eq_some_iff.mp he).1
  by_cases hcall : ∃ receiver args callee, RewrittenCall hir id receiver args callee
  · obtain ⟨receiver, args, callee, hr⟩ := hcall
    rw [(hm.calls id receiver args callee hr).1] at he
    cases he
    exact ⟨rfl, by simp⟩
  · by_cases hcallee : ∃ call args callee, RewrittenCall hir call id args callee
    · obtain ⟨call, args, callee, hr⟩ := hcallee
      rw [(hm.calls call id args callee hr).2] at he
      cases he
      refine ⟨?_, by simp⟩
      rw [hexpr]
      simp [resolveExpr, resolvePath_of_settled (settled_callee hr)]
    · have hnone : ∀ receiver args callee, ¬ RewrittenCall hir id receiver args callee :=
        fun receiver args callee hr => hcall ⟨receiver, args, callee, hr⟩
      have hnot : ∀ call args callee, ¬ RewrittenCall hir call id args callee :=
        fun call args callee hr => hcallee ⟨call, args, callee, hr⟩
      rw [hown id hlt hnone hnot] at he
      obtain ⟨expr₀, he₀, rfl⟩ := Option.map_eq_some_iff.mp he
      constructor
      · rw [hexpr, resolveExpr_idem]
      · intro receiver method args hmethod
        have hsame : expr₀ = .methodCall receiver method args := by
          have hresolved := resolveExpr_resolved hir expr₀
          rw [hmethod] at hresolved
          cases hresolved with
          | other => rfl
        subst hsame
        have hreceiver : receiver < id := hfirst.before id receiver method args he₀
        rw [hsymbols]
        by_cases hinner : ∃ inner args' callee, RewrittenCall hir receiver inner args' callee
        · obtain ⟨inner, args', callee, hr⟩ := hinner
          rw [(hm.calls receiver inner args' callee hr).1]
          rfl
        · rw [hown receiver (lt_trans hreceiver hlt)
            fun inner args' callee hr => hinner ⟨inner, args', callee, hr⟩]
          · cases hc : (hir.exprs[receiver]?.map fun expr => (resolveExpr hir expr).1).bind
                (memberCallee hir.symbols · method) with
            | none => rfl
            | some callee =>
              exact absurd ((memberCallee_visited he₀).mp hc) (hnone receiver args callee)
          · intro call args' callee hr
            have hr' := hr
            obtain ⟨method', _, _, _, he', -⟩ := hr'
            obtain rfl := hfirst.once call id receiver method' method args' args he' he₀
            exact hnone receiver args' callee hr

/-! The number of segments. -/

def patPaths : HirPat → List ResolvedPath
  | .variant path _ => [path]
  | .record (some path) _ => [path]
  | _ => []

/-- The paths whose members are resolved. -/
def memberPaths (hir : HirProgram) : List ResolvedPath :=
  hir.exprs.flatMap exprPaths ++ hir.pats.flatMap patPaths ++
    hir.handlerArms.map (·.action.effectPath)

theorem ExprResolved.counted {expr expr' : HirExpr} (h : ExprResolved hir expr expr')
    (hcounted : ∀ path ∈ exprPaths expr, Counted path) :
    ∀ path ∈ exprPaths expr', Counted path := by
  cases h with
  | path h => simpa [exprPaths] using h.counted (hcounted _ (by simp [exprPaths]))
  | reflectPath h =>
    simpa [exprPaths, reflectPaths] using h.counted (hcounted _ (by simp [exprPaths, reflectPaths]))
  | reflectMethod method hreceiver hspec =>
    have hr := hreceiver.counted (hcounted _ (by simp [exprPaths, reflectPaths]))
    have hs := hspec.counted (hcounted _ (by simp [exprPaths, reflectPaths]))
    simpa [exprPaths, reflectPaths] using And.intro hr hs
  | perform args h => simpa [exprPaths] using h.1.counted (hcounted _ (by simp [exprPaths]))
  | record fields h => simpa [exprPaths] using h.counted (hcounted _ (by simp [exprPaths]))
  | other => exact hcounted

theorem PatResolved.counted {pat pat' : HirPat} (h : PatResolved hir pat pat')
    (hcounted : ∀ path ∈ patPaths pat, Counted path) :
    ∀ path ∈ patPaths pat', Counted path := by
  cases h with
  | variant args h => simpa [patPaths] using h.counted (hcounted _ (by simp [patPaths]))
  | record fields h => simpa [patPaths] using h.counted (hcounted _ (by simp [patPaths]))
  | other => exact hcounted

theorem RewrittenCall.counted {call receiver : ℕ}
    (h : RewrittenCall hir call receiver args callee) :
    Counted callee := by
  obtain ⟨method, path, path', owner, -, -, -, -, -, rfl⟩ := h
  intro resolution hr
  exact absurd hr (resolveMember_ne_partiallyResolved _ _ _ _)

theorem MembersResolved.counted {hir out : HirProgram} (h : MembersResolved hir out)
    (hcounted : ∀ path ∈ memberPaths hir, Counted path) :
    ∀ path ∈ memberPaths out, Counted path := by
  intro path hpath
  simp only [memberPaths, List.mem_append, List.mem_flatMap, List.mem_map] at hpath hcounted
  rcases hpath with (⟨expr', he', hp⟩ | ⟨pat', hpat', hp⟩) | ⟨arm', harm', rfl⟩
  · obtain ⟨id, he'⟩ := List.mem_iff_getElem?.mp he'
    by_cases hcall : ∃ receiver args callee, RewrittenCall hir id receiver args callee
    · obtain ⟨receiver, args, callee, hr⟩ := hcall
      rw [(h.calls id receiver args callee hr).1] at he'
      cases he'
      cases hp
    · by_cases hcallee : ∃ call args callee, RewrittenCall hir call id args callee
      · obtain ⟨call, args, callee, hr⟩ := hcallee
        rw [(h.calls call id args callee hr).2] at he'
        cases he'
        obtain rfl : path = callee := by simpa [exprPaths] using hp
        exact hr.counted
      · have hlt : id < hir.exprs.length := by
          rw [← h.length]
          exact (List.getElem?_eq_some_iff.mp he').1
        have he : hir.exprs[id]? = some hir.exprs[id] := List.getElem?_eq_getElem hlt
        obtain ⟨expr, hout, hresolved⟩ := h.exprs id hir.exprs[id] he
          (fun receiver args callee hr => hcall ⟨receiver, args, callee, hr⟩)
          (fun call args callee hr => hcallee ⟨call, args, callee, hr⟩)
        rw [hout] at he'
        cases he'
        apply hresolved.counted _ path hp
        intro path hp
        exact hcounted path (.inl (.inl ⟨_, List.getElem_mem hlt, hp⟩))
  · obtain ⟨pat, hpat, hresolved⟩ := forall₂_mem_right h.pats hpat'
    apply hresolved.counted _ path hp
    intro path hp
    exact hcounted path (.inl (.inr ⟨pat, hpat, hp⟩))
  · obtain ⟨arm, harm, hresolved⟩ := forall₂_mem_right h.arms harm'
    exact hresolved.1.1.counted (hcounted _ (.inr ⟨arm, harm, rfl⟩))

/-- Members are resolved once: the pass advances every path, turns the calls of members into calls
of paths, keeps the number of segments, and has nothing to do afterwards. -/
theorem resolveMembers_spec {hir : HirProgram} (hfirst : ReceiversFirst hir) :
    MembersResolved hir (resolveMembers hir).1 ∧
      (resolveMembers (resolveMembers hir).1).1 = (resolveMembers hir).1 ∧
      ((∀ path ∈ memberPaths hir, Counted path) →
        ∀ path ∈ memberPaths (resolveMembers hir).1, Counted path) := by
  have hm := resolveMembers_resolved hfirst
  have hpats := resolveMembers_pats hfirst
  have harms := resolveMembers_arms hfirst
  have hstable := stable_resolveMembers hfirst
  refine ⟨hm, ?_, hm.counted⟩
  generalize (resolveMembers hir).1 = out at *
  have hvisit : (visitExprs out.exprs 0 out).1 = out := hstable.visitExprs out.exprs (by simp)
  have hpat : ∀ pat, resolvePat out pat = resolvePat hir pat := by
    intro pat
    rw [hm.rest]
    rfl
  have harm : ∀ arm, resolveArm out arm = resolveArm hir arm := by
    intro arm
    rw [hm.rest]
    rfl
  have hpats' : (out.pats.map (resolvePat out)).map Prod.fst = out.pats := by
    rw [hpats, List.map_map, List.map_map]
    apply List.map_congr_left
    intro pat _
    simp [hpat, resolvePat_idem]
  have harms' : (out.handlerArms.map (resolveArm out)).map Prod.fst = out.handlerArms := by
    rw [harms, List.map_map, List.map_map]
    apply List.map_congr_left
    intro arm _
    simp [harm, resolveArm_idem]
  unfold resolveMembers
  dsimp only
  rw [hvisit, hpats', harms']

def colorSpan : Span := ⟨0, 0, 0⟩

/-- A part of a module that binds `Color`, with one member `Red` and two members `Blue`. -/
def colorProgram (exprs : List HirExpr) : HirProgram :=
  { HirProgram.empty with
    modules := [0]
    modulesArena := [⟨[], 0, none⟩]
    scopes := [⟨none, .module 0, ∅, colorSpan⟩,
      ⟨some 0, .module 0, Map.ofList [((.item, "Color"), [0])], colorSpan⟩]
    exprs := exprs
    symbols := ⟨[⟨"Color", .enum, .item 0⟩, ⟨"Red", .enumVariant, .enumVariant 0 0⟩,
      ⟨"Blue", .enumVariant, .enumVariant 0 1⟩],
      Map.ofList [((0, "Red"), [1]), ((0, "Blue"), [1, 2])]⟩ }

/-- A call of the member `Red` on a path to `Color`. -/
def colorCall : HirProgram :=
  colorProgram [.path ⟨["Color"], .resolved 0, colorSpan⟩, .methodCall 0 "Red" []]

theorem colorCall_call {call receiver : ℕ} {method : String} {args : List HirArg}
    (h : colorCall.exprs[call]? = some (.methodCall receiver method args)) :
    call = 1 ∧ receiver = 0 := by
  obtain _ | _ | call := call
  · cases h
  · cases h
    exact ⟨rfl, rfl⟩
  · cases h

theorem colorCall_receiversFirst : ReceiversFirst colorCall where
  before call receiver method args h := by
    obtain ⟨rfl, rfl⟩ := colorCall_call h
    exact Nat.zero_lt_one
  once call call' receiver method method' args args' h h' :=
    (colorCall_call h).1.trans (colorCall_call h').1.symm

theorem resolveMembers_colorCall : MembersResolved colorCall (resolveMembers colorCall).1 ∧
    (resolveMembers (resolveMembers colorCall).1).1 = (resolveMembers colorCall).1 ∧
    ((∀ path ∈ memberPaths colorCall, Counted path) →
      ∀ path ∈ memberPaths (resolveMembers colorCall).1, Counted path) :=
  resolveMembers_spec colorCall_receiversFirst

/-- A record of an unresolved `Color.Red` and a path to one of two members `Blue`. -/
def colorPaths : HirProgram :=
  colorProgram [.record (some ⟨["Color", "Red"], .unresolved, colorSpan⟩) [],
    .path ⟨["Color", "Blue"],
      .partiallyResolved ⟨some 0, 1, ["Blue"], .memberRequiresTypeChecking⟩, colorSpan⟩]

/-- An expression that is neither partially resolved nor a method call changes, and a partially
resolved one has no remaining segments left. -/
theorem resolveMembers_colorPaths : (resolveMembers colorPaths).1.exprs =
    [.record (some ⟨["Color", "Red"], .resolved 1, colorSpan⟩) [],
      .path ⟨["Color", "Blue"], .ambiguous [1, 2], colorSpan⟩] := by
  decide

end EtasFrontend.Resolution
