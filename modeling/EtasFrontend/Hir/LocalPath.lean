import EtasFrontend.Hir.Resolve
import Mathlib.Tactic.IntervalCases

/-! Paths that start with a local variable: which prefix of a dotted path is taken while a program
is lowered. -/
namespace EtasFrontend.Hir
open Lib Relation

variable {symbol : SymbolId}

namespace SymbolTable

/-- The symbol is a parameter or the binding of a statement or a pattern. -/
def IsLocal (table : SymbolTable) (symbol : SymbolId) : Prop :=
  ∃ data, table.symbols[symbol]? = some data ∧ data.kind.isLocal

/-- Members belong to declarations, and a local variable is no alias. -/
structure LocalsPlain (table : SymbolTable) : Prop where
  declared : ∀ owner name, table.members.get (owner, name) ≠ none →
    ∃ data, table.symbols[owner]? = some data ∧ data.kind.isLocal = false
  noAlias : ∀ data ∈ table.symbols, data.kind.isLocal →
    ∀ path origin, data.definition ≠ .importAlias path origin

/-- The table has only gained symbols, none of them local. -/
structure GainsAliases (table later : SymbolTable) : Prop where
  members : later.members = table.members
  symbols : ∃ added, later.symbols = table.symbols ++ added ∧
    ∀ data ∈ added, data.kind.isLocal = false

theorem GainsAliases.refl (table : SymbolTable) : GainsAliases table table :=
  ⟨rfl, [], by simp⟩

theorem GainsAliases.trans {a b c : SymbolTable} (h : GainsAliases a b) (h' : GainsAliases b c) :
    GainsAliases a c := by
  obtain ⟨hm, added, hs, ha⟩ := h
  obtain ⟨hm', added', hs', ha'⟩ := h'
  refine ⟨hm'.trans hm, added ++ added', by rw [hs', hs, List.append_assoc], ?_⟩
  intro data hd
  rcases List.mem_append.mp hd with hd | hd
  · exact ha data hd
  · exact ha' data hd

theorem gainsAliases_alloc (table : SymbolTable) {data : Symbol} (h : data.kind.isLocal = false) :
    GainsAliases table (table.alloc data).2 :=
  ⟨rfl, [data], rfl, by simpa using h⟩

namespace LocalsPlain

theorem empty : LocalsPlain SymbolTable.empty where
  declared _ _ h := absurd rfl h
  noAlias := by simp [SymbolTable.empty]

variable {table : SymbolTable}

theorem resolveMember (h : table.LocalsPlain) (hlocal : table.IsLocal symbol) (name : String) :
    table.resolveMember symbol name = .unresolved := by
  have hnone : table.members.get (symbol, name) = none := by
    by_contra hne
    obtain ⟨data, hd, hkind⟩ := h.declared symbol name hne
    obtain ⟨data', hd', hkind'⟩ := hlocal
    rw [hd] at hd'
    cases hd'
    rw [hkind] at hkind'
    cases hkind'
  rw [SymbolTable.resolveMember, hnone]
  rfl

theorem append {table later : SymbolTable} (h : table.LocalsPlain)
    (hmembers : later.members = table.members) {added : List Symbol}
    (hsymbols : later.symbols = table.symbols ++ added)
    (hadded : ∀ data ∈ added, data.kind.isLocal →
      ∀ path origin, data.definition ≠ .importAlias path origin) : later.LocalsPlain where
  declared owner name hne := by
    rw [hmembers] at hne
    obtain ⟨data, hd, hkind⟩ := h.declared owner name hne
    refine ⟨data, ?_, hkind⟩
    rw [hsymbols, List.getElem?_append_left (List.getElem?_eq_some_iff.mp hd).1]
    exact hd
  noAlias data hd hkind := by
    rw [hsymbols] at hd
    rcases List.mem_append.mp hd with hd | hd
    · exact h.noAlias data hd hkind
    · exact hadded data hd hkind

theorem gains {table later : SymbolTable} (h : table.LocalsPlain) (hg : GainsAliases table later) :
    later.LocalsPlain := by
  obtain ⟨hmembers, added, hsymbols, hadded⟩ := hg
  apply h.append hmembers hsymbols
  intro data hd hkind
  rw [hadded data hd] at hkind
  cases hkind

theorem insertMember (h : table.LocalsPlain) {owner : SymbolId}
    (howner : ∃ data, table.symbols[owner]? = some data ∧ data.kind.isLocal = false)
    (name : String) (member : SymbolId) : (table.insertMember owner name member).LocalsPlain where
  declared other name' hne := by
    by_cases hkey : (other, name') = (owner, name)
    · obtain ⟨rfl, -⟩ := Prod.mk.inj hkey
      exact howner
    · rw [SymbolTable.insertMember, Map.get_insert_ne _ hkey] at hne
      exact h.declared other name' hne
  noAlias := h.noAlias

theorem setDefinition (h : table.LocalsPlain)
    (hsymbol : ¬ table.IsLocal symbol) (definition : SymbolDef) :
    (table.setDefinition symbol definition).LocalsPlain where
  declared owner name hne := by
    obtain ⟨data, hd, hkind⟩ := h.declared owner name hne
    simp only [SymbolTable.setDefinition, List.getElem?_modify, hd]
    split_ifs
    · exact ⟨{ data with definition }, rfl, hkind⟩
    · exact ⟨data, rfl, hkind⟩
  noAlias data hd hkind := by
    obtain ⟨id, hid⟩ := List.mem_iff_getElem?.mp hd
    rw [SymbolTable.setDefinition, List.getElem?_modify] at hid
    cases hold : table.symbols[id]? with
    | none => simp [hold] at hid
    | some old =>
      rw [hold] at hid
      split_ifs at hid with he
      · subst he
        cases hid
        exact absurd ⟨old, hold, hkind⟩ hsymbol
      · cases hid
        exact h.noAlias _ (List.mem_of_getElem? hold) hkind

end LocalsPlain

end SymbolTable

namespace LowerCtx
open SymbolTable
variable {std : StdRegistry}

/-! What resolution adds to the symbols. -/

theorem gainsAliases_stdPreludeAlias (ctx : LowerCtx) (name : String) (candidate : StdSymbol) :
    GainsAliases ctx.symbols (ctx.stdPreludeAlias name candidate).2.symbols := by
  unfold stdPreludeAlias
  dsimp only
  split
  · exact .refl _
  · exact gainsAliases_alloc _ rfl

theorem gainsAliases_preludeAliases (name : String) (candidates : List StdSymbol)
    (ctx : LowerCtx) :
    GainsAliases ctx.symbols (preludeAliases name candidates ctx).2.symbols := by
  induction candidates generalizing ctx with
  | nil => exact .refl _
  | cons candidate rest ih => exact (gainsAliases_stdPreludeAlias ctx name candidate).trans (ih _)

section
variable (ctx : LowerCtx)

@[simp] theorem symbols_report (diagnostic : HirDiagnostic) :
    (ctx.report diagnostic).symbols = ctx.symbols := rfl

@[simp] theorem symbols_reportUnresolved (report : Bool) (name : String) :
    (ctx.reportUnresolved report name).symbols = ctx.symbols := by
  unfold reportUnresolved
  split_ifs <;> rfl

@[simp] theorem symbols_reportAmbiguous (report : Bool) (name : String) :
    (ctx.reportAmbiguous report name).symbols = ctx.symbols := by
  unfold reportAmbiguous
  split_ifs <;> rfl

theorem gainsAliases_resolveNameInContext (name : String) (scope : ScopeId)
    (report : Bool) (context : PreludeContext) :
    GainsAliases ctx.symbols
      (ctx.resolveNameInContext std name scope report context).2.symbols := by
  have hprelude : GainsAliases ctx.symbols (ctx.resolveStdPreludeName std name context).2.symbols :=
    gainsAliases_preludeAliases ..
  unfold resolveNameInContext
  split
  · split
    · rename_i heq
      simpa [heq] using hprelude
    · rename_i heq
      simpa [heq] using hprelude
    · exact hprelude
  · simpa using GainsAliases.refl _
  · exact .refl _

theorem gainsAliases_resolveStdQualifiedPath (path : List String) :
    GainsAliases ctx.symbols (ctx.resolveStdQualifiedPath std path).2.symbols := by
  unfold resolveStdQualifiedPath
  split
  · exact .refl _
  · dsimp only
    split
    · exact .refl _
    · split
      · exact .refl _
      · exact gainsAliases_alloc _ rfl

theorem gainsAliases_resolveStdPath (path : List String) (report : Bool) :
    GainsAliases ctx.symbols (ctx.resolveStdPath std path report).2.symbols := by
  have hstd : GainsAliases ctx.symbols (ctx.resolveStdQualifiedPath std path).2.symbols :=
    gainsAliases_resolveStdQualifiedPath ctx path
  unfold resolveStdPath
  split
  · rename_i heq
    simpa [heq] using hstd
  · rename_i heq
    rw [heq] at hstd
    split_ifs
    · exact hstd
    · exact hstd
    · simpa using hstd

theorem gainsAliases_resolveAfterPrefix (path : List String) (length : ℕ)
    (symbol : SymbolId) :
    GainsAliases ctx.symbols (ctx.resolveAfterPrefix std path length symbol).2.symbols := by
  have henum : GainsAliases ctx.symbols
      (ctx.resolveStdEnumMember std symbol (path.drop length)).2.symbols := by
    unfold resolveStdEnumMember
    split
    · exact gainsAliases_resolveStdQualifiedPath ctx _
    · exact .refl _
  unfold resolveAfterPrefix
  dsimp only
  split_ifs
  · exact .refl _
  · split
    · rename_i heq
      simpa [heq] using henum
    · rename_i heq
      simpa [heq] using henum

end

theorem gainsAliases_resolveQualifiedPrefix (path : List String) (scope : ScopeId)
    (report : Bool) (context : PreludeContext) (length : ℕ) (ctx : LowerCtx) :
    GainsAliases ctx.symbols
      (resolveQualifiedPrefix std path scope report context length ctx).2.symbols := by
  induction length generalizing ctx with
  | zero => exact gainsAliases_resolveStdPath ctx path report
  | succ length ih =>
    have hname : GainsAliases ctx.symbols (ctx.resolveNameInContext std
        (pathText (path.take (length + 1))) scope false context).2.symbols :=
      gainsAliases_resolveNameInContext ..
    unfold resolveQualifiedPrefix
    dsimp only
    split
    · rename_i heq
      rw [heq] at hname
      exact hname.trans (gainsAliases_resolveAfterPrefix ..)
    · rename_i heq
      rw [heq] at hname
      split_ifs
      · exact hname
      · exact hname
    · rename_i heq
      rw [heq] at hname
      exact hname.trans (ih _)
    · exact hname

theorem gainsAliases_resolvePathInContext (ctx : LowerCtx) (path : List String) (scope : ScopeId)
    (report : Bool) (context : PreludeContext) :
    GainsAliases ctx.symbols
      (ctx.resolvePathInContext std path scope report context).2.symbols := by
  have hname : GainsAliases ctx.symbols
      (ctx.resolveNameInContext std (pathText path) scope false context).2.symbols :=
    gainsAliases_resolveNameInContext ..
  unfold resolvePathInContext
  by_cases hlength : 1 < path.length
  · rw [if_pos hlength]
    split
    · rename_i heq
      rw [heq] at hname
      exact hname.trans (gainsAliases_resolveQualifiedPrefix ..)
    · rename_i heq
      rw [heq] at hname
      split_ifs
      · exact hname
      · exact hname
    · exact hname
  · rw [if_neg hlength]
    exact gainsAliases_resolveNameInContext ..

/-- One access of lowering to its scopes and symbols. Members are given to declarations only, and a
definition that is completed later belongs to a declaration. -/
inductive LowerStep (std : StdRegistry) : LowerCtx → LowerCtx → Prop where
  | enterModule (ctx : LowerCtx) (module : HirModuleId) (scope : ScopeId) :
    LowerStep std ctx { ctx with currentModule := module, currentModuleScope := some scope }
  | allocScope (ctx : LowerCtx) (parent : Option ScopeId) (owner : ScopeOwner)
      (span : Span) (h : ∀ id, parent = some id → id < ctx.scopes.scopes.length) :
    LowerStep std ctx { ctx with scopes := ctx.scopes.alloc parent owner span h }
  | bindSymbol (ctx : LowerCtx) (scope : ScopeId) (data : Symbol)
      (h : data.kind.isLocal → ∀ path origin, data.definition ≠ .importAlias path origin) :
    LowerStep std ctx (ctx.bindSymbolWithDef scope data).2
  | importBinding (ctx : LowerCtx) (scope : ScopeId) (localName : String) (path : List String) :
    LowerStep std ctx (ctx.importBinding scope localName path).2
  | allocSymbol (ctx : LowerCtx) (data : Symbol) (h : data.kind.isLocal = false) :
    LowerStep std ctx (ctx.allocSymbol data).2
  | insertSymbol (ctx : LowerCtx) (scope : ScopeId) (name : String) (symbol : SymbolId) :
    LowerStep std ctx (ctx.insertSymbol scope name symbol)
  | insertModuleSymbol (ctx : LowerCtx) (scope : ScopeId) (name : String) (symbol : SymbolId) :
    LowerStep std ctx (ctx.insertModuleSymbol scope name symbol)
  | insertMember (ctx : LowerCtx) (owner : SymbolId) (name : String) (member : SymbolId)
      (h : ∃ data, ctx.symbols.symbols[owner]? = some data ∧ data.kind.isLocal = false) :
    LowerStep std ctx { ctx with symbols := ctx.symbols.insertMember owner name member }
  | setDefinition (ctx : LowerCtx) (symbol : SymbolId) (definition : SymbolDef)
      (h : ¬ ctx.symbols.IsLocal symbol) :
    LowerStep std ctx { ctx with symbols := ctx.symbols.setDefinition symbol definition }
  | resolvePath (ctx : LowerCtx) (path : List String) (scope : ScopeId) (report : Bool)
      (context : PreludeContext) :
    LowerStep std ctx (ctx.resolvePathInContext std path scope report context).2
  | resolveStdPath (ctx : LowerCtx) (path : List String) :
    LowerStep std ctx (ctx.resolveStdQualifiedPath std path).2
  | report (ctx : LowerCtx) (diagnostic : HirDiagnostic) :
    LowerStep std ctx (ctx.report diagnostic)

def Reachable (std : StdRegistry) (ctx : LowerCtx) : Prop :=
  ReflTransGen (LowerStep std) LowerCtx.new ctx

@[simp] theorem symbols_insertSymbol (ctx : LowerCtx) (scope : ScopeId) (name : String)
    (symbol : SymbolId) : (ctx.insertSymbol scope name symbol).symbols = ctx.symbols := by
  unfold insertSymbol
  dsimp only
  split_ifs <;> rfl

@[simp] theorem symbols_insertModuleSymbol (ctx : LowerCtx) (scope : ScopeId) (name : String)
    (symbol : SymbolId) : (ctx.insertModuleSymbol scope name symbol).symbols = ctx.symbols := by
  unfold insertModuleSymbol
  dsimp only
  split_ifs <;> rfl

theorem LowerStep.localsPlain {ctx ctx' : LowerCtx} (hstep : LowerStep std ctx ctx')
    (h : ctx.symbols.LocalsPlain) : ctx'.symbols.LocalsPlain := by
  cases hstep with
  | enterModule => exact h
  | allocScope => exact h
  | bindSymbol scope data hdata =>
    have halloc : (ctx.symbols.alloc data).2.LocalsPlain := by
      have hmembers : (ctx.symbols.alloc data).2.members = ctx.symbols.members := rfl
      have hsymbols : (ctx.symbols.alloc data).2.symbols = ctx.symbols.symbols ++ [data] := rfl
      apply h.append hmembers hsymbols
      intro data' hd
      obtain rfl : data' = data := by simpa using hd
      exact hdata
    simpa [bindSymbolWithDef, LowerCtx.allocSymbol] using halloc
  | importBinding scope localName path =>
    have halloc : GainsAliases ctx.symbols (ctx.importBinding scope localName path).2.symbols := by
      unfold LowerCtx.importBinding
      dsimp only
      split_ifs
      all_goals exact gainsAliases_alloc _ rfl
    exact h.gains halloc
  | allocSymbol data hdata => exact h.gains (gainsAliases_alloc _ hdata)
  | insertSymbol => simpa using h
  | insertModuleSymbol => simpa using h
  | insertMember owner name member howner => exact h.insertMember howner name member
  | setDefinition symbol definition hsymbol => exact h.setDefinition hsymbol definition
  | resolvePath => exact h.gains (gainsAliases_resolvePathInContext ..)
  | resolveStdPath => exact h.gains (gainsAliases_resolveStdQualifiedPath ..)
  | report => exact h

variable {ctx : LowerCtx}

theorem Reachable.localsPlain (h : Reachable std ctx) : ctx.symbols.LocalsPlain := by
  induction h with
  | refl => exact LocalsPlain.empty
  | tail _ hstep ih => exact hstep.localsPlain ih

/-! Which prefix of a path is taken. -/

/-- Neither a scope around nor the prelude names the text. -/
def Unnamed (std : StdRegistry) (ctx : LowerCtx) (scope : ScopeId) (context : PreludeContext)
    (text : String) : Prop :=
  (∀ outer, ctx.scopes.Encloses outer scope → ¬ ctx.scopes.Binds outer .item text) ∧
    ctx.preludeAccepted std text context = []

variable {context : PreludeContext} {scope : ScopeId}

theorem resolveNameInContext_of_unnamed {text : String} (h : ctx.Unnamed std scope context text) :
    ctx.resolveNameInContext std text scope false context = (.unresolved, ctx) := by
  have hlookup : ctx.scopes.lookup scope text = .unresolved :=
    ScopeTree.lookup_eq_unresolved_iff.mpr h.1
  have hprelude : ctx.resolveStdPreludeName std text context = (.unresolved, ctx) := by
    simp [resolveStdPreludeName, h.2, preludeAliases, ScopeTree.resolveSymbols]
  simp [resolveNameInContext, hlookup, hprelude, reportUnresolved]

theorem preludeAliases_ne_nil {name : String} {candidates : List StdSymbol}
    (h : candidates ≠ []) (ctx : LowerCtx) : (preludeAliases name candidates ctx).1 ≠ [] := by
  cases candidates with
  | nil => exact absurd rfl h
  | cons candidate rest => simp [preludeAliases]

theorem resolveNameInContext_ne_unresolved {text : String}
    (h : ¬ ctx.Unnamed std scope context text) :
    (ctx.resolveNameInContext std text scope false context).1 ≠ .unresolved := by
  unfold resolveNameInContext
  split
  · rename_i hlookup
    have hne : ctx.preludeAccepted std text context ≠ [] := by
      intro hnil
      exact h ⟨ScopeTree.lookup_eq_unresolved_iff.mp hlookup, hnil⟩
    have hresult : (ctx.resolveStdPreludeName std text context).1 ≠ .unresolved :=
      ScopeTree.resolveSymbols_ne_unresolved (preludeAliases_ne_nil hne ctx)
    split
    · rename_i heq
      rw [heq] at hresult
      exact absurd rfl hresult
    · simp
    · exact hresult
  · simp
  · assumption

theorem resolveNameInContext_ne_partiallyResolved (ctx : LowerCtx) (text : String)
    (scope : ScopeId) (report : Bool) (context : PreludeContext) (resolution : PartialResolution) :
    (ctx.resolveNameInContext std text scope report context).1 ≠ .partiallyResolved resolution := by
  have hprelude : (ctx.resolveStdPreludeName std text context).1 ≠ .partiallyResolved resolution :=
    ScopeTree.resolveSymbols_ne_partiallyResolved _ resolution
  have hlookup : ctx.scopes.lookup scope text ≠ .partiallyResolved resolution := by
    unfold ScopeTree.lookup ScopeTree.lookupInNamespace
    generalize scope + 1 = fuel, some scope = start
    induction fuel generalizing start with
    | zero => simp [ScopeTree.lookupLoop]
    | succ fuel ih =>
      cases start with
      | none => simp [ScopeTree.lookupLoop]
      | some scope =>
        unfold ScopeTree.lookupLoop
        split
        · exact ScopeTree.resolveSymbols_ne_partiallyResolved _ resolution
        · exact ih _
  unfold resolveNameInContext
  split
  · split
    · simp
    · simp
    · exact hprelude
  · simp
  · exact hlookup

theorem resolveAfterPrefix_segments {path : List String} {length : ℕ}
    {resolution : PartialResolution} (hlength : 2 ≤ length)
    (h : (ctx.resolveAfterPrefix std path length symbol).1 = .partiallyResolved resolution) :
    resolution.resolvedSegments ≠ 1 := by
  unfold resolveAfterPrefix at h
  dsimp only at h
  split_ifs at h
  · exfalso
    split at h
    · exact ScopeTree.resolveSymbols_ne_partiallyResolved _ resolution h
    · cases h
  · split at h
    · cases h
    · cases h
      dsimp only
      omega

theorem resolveAfterPrefix_local (hplain : ctx.symbols.LocalsPlain) (head : String)
    (rest : List String) (hlocal : ctx.symbols.IsLocal symbol) :
    (ctx.resolveAfterPrefix std (head :: rest) 1 symbol).1 =
      .partiallyResolved ⟨some symbol, 1, rest, .memberRequiresTypeChecking⟩ := by
  obtain ⟨⟨name, kind, definition⟩, hd, hkind⟩ := hlocal
  have halias := hplain.noAlias _ (List.mem_of_getElem? hd) hkind
  have henum : ctx.stdEnumConstructor std symbol rest = none := by
    unfold stdEnumConstructor
    split
    · rename_i heq
      rw [hd] at heq
      cases heq
      exact absurd rfl (halias _ _)
    · rfl
  have hreason : ctx.partialReasonForPrefix std symbol = .memberRequiresTypeChecking := by
    unfold partialReasonForPrefix
    split
    · rename_i heq
      rw [hd] at heq
      cases heq
      cases hkind
    · rename_i heq
      rw [hd] at heq
      cases heq
      exact absurd rfl (halias _ _)
    · rfl
  unfold resolveAfterPrefix
  dsimp only
  rw [if_neg]
  · simp [resolveStdEnumMember, henum, hreason]
  · rw [List.drop_one, List.tail_cons, not_not]
    split
    · exact hplain.resolveMember ⟨_, hd, hkind⟩ _
    · rfl

variable {rest : List String}

theorem resolveQualifiedPrefix_local_iff (hplain : ctx.symbols.LocalsPlain) {head : String}
    (report : Bool) (hlocal : ctx.symbols.IsLocal symbol)
    (hhead : ctx.scopes.lookup scope head = .resolved symbol) (length : ℕ) :
    (resolveQualifiedPrefix std (head :: rest) scope report context (length + 1) ctx).1 =
        .partiallyResolved ⟨some symbol, 1, rest, .memberRequiresTypeChecking⟩ ↔
      ∀ n, 1 < n → n ≤ length + 1 →
        ctx.Unnamed std scope context (pathText ((head :: rest).take n)) := by
  induction length with
  | zero =>
    have hname : ctx.resolveNameInContext std (pathText ((head :: rest).take (0 + 1))) scope false
        context = (.resolved symbol, ctx) := by
      have htext : pathText ((head :: rest).take (0 + 1)) = head := rfl
      rw [htext, resolveNameInContext, hhead]
    constructor
    · intro _ n h1 h2
      omega
    · intro _
      unfold resolveQualifiedPrefix
      dsimp only
      rw [hname]
      exact resolveAfterPrefix_local hplain head rest hlocal
  | succ length ih =>
    by_cases hn : ctx.Unnamed std scope context
        (pathText ((head :: rest).take (length + 1 + 1)))
    · have hname := resolveNameInContext_of_unnamed hn
      have hstep : resolveQualifiedPrefix std (head :: rest) scope report context
          (length + 1 + 1) ctx =
          resolveQualifiedPrefix std (head :: rest) scope report context (length + 1) ctx := by
        rw [resolveQualifiedPrefix, hname]
      rw [hstep, ih]
      constructor
      · intro h n h1 h2
        rcases Nat.lt_or_eq_of_le h2 with h2 | rfl
        · exact h n h1 (by omega)
        · exact hn
      · intro h n h1 h2
        exact h n h1 (by omega)
    · constructor
      · intro h
        exfalso
        have hne := resolveNameInContext_ne_unresolved hn
        unfold resolveQualifiedPrefix at h
        dsimp only at h
        split at h
        · exact resolveAfterPrefix_segments (by omega) h rfl
        · cases h
        · rename_i heq
          rw [heq] at hne
          exact hne rfl
        · exact resolveNameInContext_ne_partiallyResolved _ _ _ _ _ _ h
      · intro h
        exact absurd (h (length + 1 + 1) (by omega) (le_refl _)) hn

theorem resolvePathInContext_local_iff (hplain : ctx.symbols.LocalsPlain) {head next : String}
    (report : Bool) (hlocal : ctx.symbols.IsLocal symbol)
    (hhead : ctx.scopes.lookup scope head = .resolved symbol) :
    (ctx.resolvePathInContext std (head :: next :: rest) scope report context).1 =
        .partiallyResolved ⟨some symbol, 1, next :: rest, .memberRequiresTypeChecking⟩ ↔
      ∀ n, 1 < n → n ≤ rest.length + 2 →
        ctx.Unnamed std scope context (pathText ((head :: next :: rest).take n)) := by
  have hlong : 1 < (head :: next :: rest).length := by simp
  have hwhole : (head :: next :: rest).take (rest.length + 2) = head :: next :: rest := by simp
  unfold resolvePathInContext
  rw [if_pos hlong]
  by_cases hn : ctx.Unnamed std scope context (pathText (head :: next :: rest))
  · rw [resolveNameInContext_of_unnamed hn]
    have hlength : (head :: next :: rest).length - 1 = rest.length + 1 := rfl
    rw [hlength]
    dsimp only
    rw [resolveQualifiedPrefix_local_iff hplain report hlocal hhead]
    constructor
    · intro h n h1 h2
      rcases Nat.lt_or_eq_of_le h2 with h2 | rfl
      · exact h n h1 (by omega)
      · rw [hwhole]
        exact hn
    · intro h n h1 h2
      exact h n h1 (by omega)
  · constructor
    · intro h
      exfalso
      have hne := resolveNameInContext_ne_unresolved hn
      split at h
      · rename_i heq
        rw [heq] at hne
        exact hne rfl
      · cases h
      · exact resolveNameInContext_ne_partiallyResolved _ _ _ _ _ _ h
    · intro h
      have hall := h (rest.length + 2) (by omega) (le_refl _)
      rw [hwhole] at hall
      exact absurd hall hn

/-! Capture by an outer declaration. -/

/-- The first segment names a local variable of the scope `found`, and no scope as near as that
binds a longer prefix. -/
structure NamesLocal (ctx : LowerCtx) (scope found : ScopeId) (head : String)
    (rest : List String) (symbol : SymbolId) : Prop where
  isLocal : ctx.symbols.IsLocal symbol
  encloses : ctx.scopes.Encloses found scope
  binds : ScopeTree.localSymbols ctx.scopes.scopes .item head found = some [symbol]
  nearest : ∀ near, ctx.scopes.Encloses near scope → ctx.scopes.Encloses found near →
    near ≠ found → ¬ ctx.scopes.Binds near .item head
  noLonger : ∀ near, ctx.scopes.Encloses near scope → ctx.scopes.Encloses found near →
    ∀ n, 1 < n → n ≤ rest.length + 1 →
      ¬ ctx.scopes.Binds near .item (pathText ((head :: rest).take n))

/-- A scope outside of `found`, or the prelude, binds a longer prefix of the path. -/
def BoundOutside (std : StdRegistry) (ctx : LowerCtx) (found : ScopeId)
    (context : PreludeContext) (path : List String) : Prop :=
  ∃ n, 1 < n ∧ n ≤ path.length ∧
    ((∃ outer, TransGen ctx.scopes.IsParent found outer ∧
        ctx.scopes.Binds outer .item (pathText (path.take n))) ∨
      ctx.preludeAccepted std (pathText (path.take n)) context ≠ [])

theorem unnamed_iff_not_boundOutside {scope found : ScopeId} {head : String}
    (h : ctx.NamesLocal scope found head rest symbol) :
    (∀ n, 1 < n → n ≤ rest.length + 1 →
        ctx.Unnamed std scope context (pathText ((head :: rest).take n))) ↔
      ¬ ctx.BoundOutside std found context (head :: rest) := by
  constructor
  · rintro hall ⟨n, h1, h2, hbound⟩
    obtain ⟨hscopes, hprelude⟩ := hall n h1 h2
    rcases hbound with ⟨outer, houter, hbinds⟩ | hne
    · exact hscopes outer (h.encloses.trans houter.to_reflTransGen) hbinds
    · exact hne hprelude
  · intro hnot n h1 h2
    constructor
    · intro outer houter hbinds
      have hunique : Relator.RightUnique ctx.scopes.IsParent :=
        fun _ _ _ hp hp' => hp.unique hp'
      rcases ReflTransGen.total_of_right_unique hunique h.encloses houter with hout | hin
      · rcases reflTransGen_iff_eq_or_transGen.mp hout with rfl | hout
        · exact h.noLonger outer houter .refl n h1 h2 hbinds
        · exact hnot ⟨n, h1, h2, .inl ⟨outer, hout, hbinds⟩⟩
      · exact h.noLonger outer houter hin n h1 h2 hbinds
    · by_contra hne
      exact hnot ⟨n, h1, h2, .inr hne⟩

/-- A local variable keeps the accesses to its members exactly where nothing outside of its scope
is declared under a longer prefix of the path. -/
theorem resolvesToLocal_iff {ctx : LowerCtx} (hctx : Reachable std ctx) {scope found : ScopeId}
    {head next : String} {symbol : SymbolId}
    (h : ctx.NamesLocal scope found head (next :: rest) symbol) (report : Bool)
    (context : PreludeContext) :
    (ctx.resolvePathInContext std (head :: next :: rest) scope report context).1 =
        .partiallyResolved ⟨some symbol, 1, next :: rest, .memberRequiresTypeChecking⟩ ↔
      ¬ ctx.BoundOutside std found context (head :: next :: rest) := by
  have hhead : ctx.scopes.lookup scope head = .resolved symbol :=
    ScopeTree.lookup_of_nearest h.encloses h.binds h.nearest
  rw [resolvePathInContext_local_iff hctx.localsPlain report h.isLocal hhead]
  exact unnamed_iff_not_boundOutside h

/-- A standard library without symbols. -/
def emptyStd : StdRegistry := ⟨fun _ => [], fun _ => none, fun _ _ => none⟩

def storeSpan : Span := ⟨0, 0, 0⟩

/-- A module with an effect `Store` that has the action `get`. -/
def storeModule : LowerCtx :=
  let ctx := { new with scopes := new.scopes.alloc none (.module 0) storeSpan (by simp) }
  let ctx := { ctx with currentModule := 0, currentModuleScope := some 0 }
  let ctx := (ctx.bindSymbolWithDef 0 ⟨"Store", .effect, .error⟩).2
  let ctx := (ctx.bindSymbolWithDef 0 ⟨"main", .flow, .error⟩).2
  let ctx := (ctx.allocSymbol ⟨"Store.get", .effectAction, .error⟩).2
  let ctx := { ctx with symbols := ctx.symbols.insertMember 0 "get" 2 }
  ctx.insertSymbol 0 "Store.get" 2

/-- The body of the flow `main`, which has a parameter `Store`. -/
def storeBody : LowerCtx :=
  let ctx := { storeModule with
    scopes := storeModule.scopes.alloc (some 0) (.item 0) storeSpan (by decide) }
  let ctx := (ctx.bindSymbolWithDef 1 ⟨"Store", .param, .param 0⟩).2
  { ctx with scopes := ctx.scopes.alloc (some 1) (.block 0) storeSpan (by decide) }

theorem storeBody_reachable : Reachable emptyStd storeBody := by
  have hstart : Reachable emptyStd new := .refl
  have hscope := hstart.tail (.allocScope _ none (.module 0) storeSpan (by simp))
  have henter := hscope.tail (.enterModule _ 0 0)
  have heffect := henter.tail (.bindSymbol _ 0 ⟨"Store", .effect, .error⟩ (by simp))
  have hflow := heffect.tail (.bindSymbol _ 0 ⟨"main", .flow, .error⟩ (by simp))
  have haction := hflow.tail (.allocSymbol _ ⟨"Store.get", .effectAction, .error⟩ rfl)
  have hmember := haction.tail
    (.insertMember _ 0 "get" 2 ⟨⟨"Store", .effect, .error⟩, by decide, rfl⟩)
  have hmodule : Reachable emptyStd storeModule := hmember.tail (.insertSymbol _ 0 "Store.get" 2)
  have hitem := hmodule.tail (.allocScope _ (some 0) (.item 0) storeSpan (by decide))
  have hparam := hitem.tail (.bindSymbol _ 1 ⟨"Store", .param, .param 0⟩ (by simp))
  exact hparam.tail (.allocScope _ (some 1) (.block 0) storeSpan (by decide))

theorem storeBody_namesLocal {next : String} (h : next = "get" ∨ next = "put") :
    storeBody.NamesLocal 2 1 "Store" [next] 3 := by
  have henclosed : storeBody.scopes.IsParent 2 1 := ScopeTree.isParent_iff.mpr (by decide)
  have hbetween : ∀ near, storeBody.scopes.Encloses near 2 → storeBody.scopes.Encloses 1 near →
      near = 1 ∨ near = 2 := by
    intro near h2 h1
    have hle : near ≤ 2 := h2.le
    have hge : 1 ≤ near := h1.le
    interval_cases near
    · exact .inl rfl
    · exact .inr rfl
  constructor
  · exact ⟨⟨"Store", .param, .param 0⟩, by decide, rfl⟩
  · exact .single henclosed
  · decide
  · intro near h2 h1 hne
    rcases hbetween near h2 h1 with rfl | rfl
    · exact absurd rfl hne
    · unfold ScopeTree.Binds
      decide
  · intro near h2 h1 n hn hlength
    obtain rfl : n = 2 := le_antisymm hlength hn
    unfold ScopeTree.Binds
    rcases hbetween near h2 h1 with rfl | rfl
    all_goals
      rcases h with rfl | rfl
      all_goals decide

theorem resolvesToLocal_store :
    (storeBody.resolvePathInContext emptyStd ["Store", "put"] 2 true .value).1 =
        .partiallyResolved ⟨some 3, 1, ["put"], .memberRequiresTypeChecking⟩ ↔
      ¬ storeBody.BoundOutside emptyStd 1 .value ["Store", "put"] :=
  resolvesToLocal_iff storeBody_reachable (storeBody_namesLocal (.inr rfl)) true .value

/-- The action `get` of the effect takes the place of a member of the parameter. -/
theorem not_resolvesToLocal_store : Reachable emptyStd storeBody ∧
    storeBody.NamesLocal 2 1 "Store" ["get"] 3 ∧
    (storeBody.resolvePathInContext emptyStd ["Store", "get"] 2 true .value).1 = .resolved 2 :=
  ⟨storeBody_reachable, storeBody_namesLocal (.inl rfl), by decide⟩

end LowerCtx

end EtasFrontend.Hir
