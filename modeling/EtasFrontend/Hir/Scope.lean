import EtasFrontend.Hir.Program

/-! Lexical scopes, the names they bind, and the members of symbols. -/
namespace EtasFrontend.Hir
open Lib Relation

/-- A scope is enclosed by an older one, and a bound name has at least one symbol. -/
structure ScopeTree where
  scopes : List Scope
  parent_lt : ∀ (id : ScopeId) (scope : Scope) (parent : ScopeId),
    scopes[id]? = some scope → scope.parent = some parent → parent < id
  bound : ∀ scope ∈ scopes, ∀ key, scope.names.get key ≠ some []

def Scope.bind (scope : Scope) (key : ScopeNamespace × String) (symbol : SymbolId) : Scope :=
  { scope with names := scope.names.insert key ((scope.names.get key).getD [] ++ [symbol]) }

namespace ScopeTree

def empty : ScopeTree where
  scopes := []
  parent_lt := by simp
  bound := by simp

def alloc (tree : ScopeTree) (parent : Option ScopeId) (owner : ScopeOwner) (span : Span)
    (h : ∀ id, parent = some id → id < tree.scopes.length) : ScopeTree where
  scopes := tree.scopes ++ [⟨parent, owner, ∅, span⟩]
  parent_lt := by
    intro id scope outer hs hp
    rw [List.getElem?_append] at hs
    split_ifs at hs with hlt
    · exact tree.parent_lt id scope outer hs hp
    · have hi : id - tree.scopes.length < 1 := (List.getElem?_eq_some_iff.mp hs).1
      have hid : id - tree.scopes.length = 0 := Nat.lt_one_iff.mp hi
      rw [hid] at hs
      obtain rfl : ⟨parent, owner, ∅, span⟩ = scope := by simpa using hs
      have hlt' : outer < tree.scopes.length := h outer hp
      exact lt_of_lt_of_le hlt' (not_lt.mp hlt)
  bound := by
    intro scope hs key
    rcases List.mem_append.mp hs with hs | hs
    · exact tree.bound scope hs key
    · have hlast : scope = ⟨parent, owner, ∅, span⟩ := by simpa using hs
      subst hlast
      simp

def insertInNamespace (tree : ScopeTree) (scope : ScopeId) (space : ScopeNamespace)
    (name : String) (symbol : SymbolId) : ScopeTree where
  scopes := tree.scopes.modify scope (·.bind (space, name) symbol)
  parent_lt := by
    intro id data parent hd hp
    rw [List.getElem?_modify] at hd
    cases hold : tree.scopes[id]? with
    | none => simp [hold] at hd
    | some old =>
      rw [hold] at hd
      apply tree.parent_lt id old parent hold
      split_ifs at hd
      all_goals
        cases hd
        exact hp
  bound := by
    intro data hd key
    obtain ⟨id, hid⟩ := List.mem_iff_getElem?.mp hd
    rw [List.getElem?_modify] at hid
    cases hold : tree.scopes[id]? with
    | none => simp [hold] at hid
    | some old =>
      rw [hold] at hid
      have hbound := tree.bound old (List.mem_of_getElem? hold) key
      split_ifs at hid
      · obtain rfl : old.bind (space, name) symbol = data := by simpa using hid
        by_cases hkey : key = (space, name)
        · subst hkey
          simp [Scope.bind]
        · rw [Scope.bind, Map.get_insert_ne _ hkey]
          exact hbound
      · cases hid
        exact hbound

def insert (tree : ScopeTree) (scope : ScopeId) (name : String) (symbol : SymbolId) : ScopeTree :=
  tree.insertInNamespace scope .item name symbol

/-- The symbols that a scope itself binds to a name. -/
def localSymbols (scopes : List Scope) (space : ScopeNamespace) (name : String) (scope : ScopeId) :
    Option (List SymbolId) :=
  scopes[scope]?.bind (·.names.get (space, name))

def resolveSymbols : List SymbolId → ResolveResult
  | [symbol] => .resolved symbol
  | [] => .unresolved
  | many => .ambiguous many

/-- One round for each scope on the way out. -/
def lookupLoop (scopes : List Scope) (space : ScopeNamespace) (name : String) :
    ℕ → Option ScopeId → ResolveResult
  | 0, _ => .unresolved
  | _, none => .unresolved
  | fuel + 1, some scope =>
    match localSymbols scopes space name scope with
    | some symbols => resolveSymbols symbols
    | none => lookupLoop scopes space name fuel (scopes[scope]?.bind (·.parent))

/-- Parents are older scopes, so `scope + 1` rounds reach the outermost one. -/
def lookupInNamespace (tree : ScopeTree) (scope : ScopeId) (space : ScopeNamespace)
    (name : String) : ResolveResult :=
  lookupLoop tree.scopes space name (scope + 1) (some scope)

def lookup (tree : ScopeTree) (scope : ScopeId) (name : String) : ResolveResult :=
  tree.lookupInNamespace scope .item name

/-! The scopes around a scope. -/

def IsParent (tree : ScopeTree) (scope parent : ScopeId) : Prop :=
  ∃ data, tree.scopes[scope]? = some data ∧ data.parent = some parent

/-- The scope itself or one around it. -/
def Encloses (tree : ScopeTree) (outer scope : ScopeId) : Prop :=
  ReflTransGen tree.IsParent scope outer

def Binds (tree : ScopeTree) (scope : ScopeId) (space : ScopeNamespace) (name : String) : Prop :=
  localSymbols tree.scopes space name scope ≠ none

variable {tree : ScopeTree} {scope : ScopeId}

theorem Encloses.refl : tree.Encloses scope scope :=
  ReflTransGen.refl

variable {scope parent : ScopeId}

theorem IsParent.lt (h : tree.IsParent scope parent) : parent < scope := by
  obtain ⟨data, hd, hp⟩ := h
  exact tree.parent_lt scope data parent hd hp

theorem IsParent.unique {scope parent other : ScopeId} (h : tree.IsParent scope parent)
    (h' : tree.IsParent scope other) : parent = other := by
  obtain ⟨data, hd, hp⟩ := h
  obtain ⟨data', hd', hp'⟩ := h'
  rw [hd] at hd'
  cases hd'
  rw [hp] at hp'
  exact Option.some.inj hp'

theorem Encloses.le {outer scope : ScopeId} (h : tree.Encloses outer scope) : outer ≤ scope := by
  induction h with
  | refl => exact le_refl _
  | tail _ hp ih => exact le_trans hp.lt.le ih

theorem encloses_iff {outer scope : ScopeId} :
    tree.Encloses outer scope ↔
      outer = scope ∨ ∃ parent, tree.IsParent scope parent ∧ tree.Encloses outer parent := by
  constructor
  · intro h
    rcases ReflTransGen.cases_head h with h | ⟨parent, hp, h⟩
    · exact .inl h.symm
    · exact .inr ⟨parent, hp, h⟩
  · rintro (rfl | ⟨parent, hp, h⟩)
    · exact .refl
    · exact .head hp h

theorem isParent_iff :
    tree.IsParent scope parent ↔ tree.scopes[scope]?.bind (·.parent) = some parent := by
  simp [IsParent, Option.bind_eq_some_iff]

variable {symbols : List SymbolId}

theorem resolveSymbols_ne_unresolved (h : symbols ≠ []) : resolveSymbols symbols ≠ .unresolved := by
  match symbols with
  | [_] => simp [resolveSymbols]
  | _ :: _ :: _ => simp [resolveSymbols]

theorem resolveSymbols_ne_partiallyResolved (symbols : List SymbolId)
    (resolution : PartialResolution) : resolveSymbols symbols ≠ .partiallyResolved resolution := by
  match symbols with
  | [] => simp [resolveSymbols]
  | [_] => simp [resolveSymbols]
  | _ :: _ :: _ => simp [resolveSymbols]

theorem lookupLoop_eq (tree : ScopeTree) (space : ScopeNamespace) (name : String) (fuel : ℕ)
    (scope : ScopeId) (h : scope < fuel) :
    lookupLoop tree.scopes space name fuel (some scope) =
      tree.lookupInNamespace scope space name := by
  induction scope using Nat.strong_induction_on generalizing fuel with
  | _ scope ih =>
    obtain ⟨fuel, rfl⟩ := Nat.exists_eq_succ_of_ne_zero (Nat.ne_zero_of_lt h)
    rw [lookupInNamespace, lookupLoop, lookupLoop]
    cases localSymbols tree.scopes space name scope with
    | some symbols => rfl
    | none =>
      cases hp : tree.scopes[scope]?.bind (·.parent) with
      | none => cases fuel <;> cases scope <;> rfl
      | some parent =>
        have hlt : parent < scope := (isParent_iff.mpr hp).lt
        have hfuel : parent < fuel := lt_of_lt_of_le hlt (Nat.lt_succ_iff.mp h)
        dsimp only
        rw [ih parent hlt fuel hfuel, ih parent hlt scope hlt]

variable {space : ScopeNamespace} {name : String}

theorem lookup_of_binds (h : localSymbols tree.scopes space name scope = some symbols) :
    tree.lookupInNamespace scope space name = resolveSymbols symbols := by
  simp [lookupInNamespace, lookupLoop, h]

theorem lookup_of_parent (h : ¬ tree.Binds scope space name) (hp : tree.IsParent scope parent) :
    tree.lookupInNamespace scope space name = tree.lookupInNamespace parent space name := by
  have hnone : localSymbols tree.scopes space name scope = none := not_not.mp h
  rw [lookupInNamespace, lookupLoop, hnone, isParent_iff.mp hp]
  exact lookupLoop_eq tree space name scope parent hp.lt

/-- The innermost scope that binds a name decides what the name stands for. -/
theorem lookup_of_nearest {scope found : ScopeId} (hencloses : tree.Encloses found scope)
    (hfound : localSymbols tree.scopes space name found = some symbols)
    (hnear : ∀ near, tree.Encloses near scope → tree.Encloses found near → near ≠ found →
      ¬ tree.Binds near space name) :
    tree.lookupInNamespace scope space name = resolveSymbols symbols := by
  induction scope using Nat.strong_induction_on with
  | _ scope ih =>
    rcases encloses_iff.mp hencloses with rfl | ⟨parent, hp, hparent⟩
    · exact lookup_of_binds hfound
    · have hne : scope ≠ found := by
        rintro rfl
        exact absurd hp.lt (not_lt.mpr hparent.le)
      rw [lookup_of_parent (hnear scope .refl hencloses hne) hp]
      apply ih parent hp.lt hparent
      intro near h
      exact hnear near (encloses_iff.mpr (.inr ⟨parent, hp, h⟩))

theorem binds_symbols (h : tree.Binds scope space name) :
    ∃ symbols, symbols ≠ [] ∧ localSymbols tree.scopes space name scope = some symbols := by
  obtain ⟨symbols, hs⟩ := Option.ne_none_iff_exists'.mp h
  obtain ⟨data, hd, hget⟩ := Option.bind_eq_some_iff.mp hs
  refine ⟨symbols, ?_, hs⟩
  rintro rfl
  exact tree.bound data (List.mem_of_getElem? hd) _ hget

theorem lookup_eq_unresolved_iff : tree.lookupInNamespace scope space name = .unresolved ↔
      ∀ outer, tree.Encloses outer scope → ¬ tree.Binds outer space name := by
  induction scope using Nat.strong_induction_on with
  | _ scope ih =>
    by_cases hb : tree.Binds scope space name
    · obtain ⟨symbols, hne, hs⟩ := binds_symbols hb
      rw [lookup_of_binds hs]
      constructor
      · intro h
        exact absurd h (resolveSymbols_ne_unresolved hne)
      · intro h
        exact absurd hb (h scope .refl)
    · cases hp : tree.scopes[scope]?.bind (·.parent) with
      | some parent =>
        have hparent : tree.IsParent scope parent := isParent_iff.mpr hp
        rw [lookup_of_parent hb hparent, ih parent hparent.lt]
        constructor
        · intro h outer ho
          rcases encloses_iff.mp ho with rfl | ⟨other, hother, ho⟩
          · exact hb
          · rw [hother.unique hparent] at ho
            exact h outer ho
        · intro h outer ho
          exact h outer (encloses_iff.mpr (.inr ⟨parent, hparent, ho⟩))
      | none =>
        have hnone : localSymbols tree.scopes space name scope = none := not_not.mp hb
        have hun : tree.lookupInNamespace scope space name = .unresolved := by
          rw [lookupInNamespace, lookupLoop, hnone, hp]
          cases scope <;> rfl
        constructor
        · intro _ outer ho
          rcases encloses_iff.mp ho with rfl | ⟨other, hother, -⟩
          · exact hb
          · rw [isParent_iff, hp] at hother
            cases hother
        · intro _
          exact hun

/-- Two trees with the same parents agree on a name that the scopes around bind alike. -/
theorem lookup_congr {tree tree' : ScopeTree} (hparent : ∀ id : ℕ, tree'.scopes[id]?.bind (·.parent) =
      tree.scopes[id]?.bind (·.parent))
    (hlocal : ∀ outer, tree.Encloses outer scope →
      localSymbols tree'.scopes space name outer = localSymbols tree.scopes space name outer) :
    tree'.lookupInNamespace scope space name = tree.lookupInNamespace scope space name := by
  induction scope using Nat.strong_induction_on with
  | _ scope ih =>
    have hself := hlocal scope .refl
    cases hs : localSymbols tree.scopes space name scope with
    | some symbols =>
      rw [lookup_of_binds hs, lookup_of_binds (hself.trans hs)]
    | none =>
      have hb : ¬ tree.Binds scope space name := not_not.mpr hs
      have hb' : ¬ tree'.Binds scope space name := not_not.mpr (hself.trans hs)
      cases hp : tree.scopes[scope]?.bind (·.parent) with
      | some parent =>
        have hp' : tree'.IsParent scope parent := isParent_iff.mpr ((hparent scope).trans hp)
        rw [lookup_of_parent hb (isParent_iff.mpr hp), lookup_of_parent hb' hp']
        apply ih parent (isParent_iff.mpr hp).lt
        intro outer ho
        exact hlocal outer (encloses_iff.mpr (.inr ⟨parent, isParent_iff.mpr hp, ho⟩))
      | none =>
        have houter : ∀ outer, tree.Encloses outer scope → outer = scope := by
          intro outer ho
          rcases encloses_iff.mp ho with ho | ⟨other, hother, -⟩
          · exact ho
          · rw [isParent_iff, hp] at hother
            cases hother
        have houter' : ∀ outer, tree'.Encloses outer scope → outer = scope := by
          intro outer ho
          rcases encloses_iff.mp ho with ho | ⟨other, hother, -⟩
          · exact ho
          · rw [isParent_iff, hparent, hp] at hother
            cases hother
        have hun : tree.lookupInNamespace scope space name = .unresolved := by
          apply lookup_eq_unresolved_iff.mpr
          intro outer ho
          rw [houter outer ho]
          exact hb
        have hun' : tree'.lookupInNamespace scope space name = .unresolved := by
          apply lookup_eq_unresolved_iff.mpr
          intro outer ho
          rw [houter' outer ho]
          exact hb'
        rw [hun, hun']

theorem parent_insertInNamespace (tree : ScopeTree) (scope : ScopeId) (space : ScopeNamespace)
    (name : String) (symbol : SymbolId) (id : ScopeId) :
    (tree.insertInNamespace scope space name symbol).scopes[id]?.bind (·.parent) =
      tree.scopes[id]?.bind (·.parent) := by
  simp only [insertInNamespace, List.getElem?_modify]
  cases tree.scopes[id]? with
  | none => rfl
  | some data =>
    by_cases h : scope = id
    · simp [h, Scope.bind]
    · simp [h]

theorem localSymbols_insertInNamespace (tree : ScopeTree) (symbol : SymbolId) (space' : ScopeNamespace)
    (name' : String) (id : ScopeId) (h : id = scope → (space', name') ≠ (space, name)) :
    localSymbols (tree.insertInNamespace scope space name symbol).scopes space' name' id =
      localSymbols tree.scopes space' name' id := by
  simp only [localSymbols, insertInNamespace, List.getElem?_modify]
  cases tree.scopes[id]? with
  | none => rfl
  | some data =>
    by_cases hid : scope = id
    · simp [hid, Scope.bind, Map.get_insert_ne _ (h hid.symm)]
    · simp [hid]

theorem lookup_insertInNamespace_of_ne (tree : ScopeTree) (symbol : SymbolId) {space' : ScopeNamespace}
    {name' : String} {id : ScopeId} (h : tree.Encloses scope id → (space', name') ≠ (space, name)) :
    (tree.insertInNamespace scope space name symbol).lookupInNamespace id space' name' =
      tree.lookupInNamespace id space' name' := by
  apply lookup_congr (parent_insertInNamespace tree scope space name symbol)
  intro outer ho
  apply localSymbols_insertInNamespace
  rintro rfl
  exact h ho

theorem lookup_insertInNamespace_self (symbol : SymbolId) (hlt : scope < tree.scopes.length)
    (h : tree.lookupInNamespace scope space name = .unresolved) :
    (tree.insertInNamespace scope space name symbol).lookupInNamespace scope space name =
      .resolved symbol := by
  have hnone : localSymbols tree.scopes space name scope = none :=
    not_not.mp (lookup_eq_unresolved_iff.mp h scope .refl)
  have hsome : localSymbols (tree.insertInNamespace scope space name symbol).scopes space name
      scope = some [symbol] := by
    have hget : tree.scopes[scope]? = some tree.scopes[scope] := List.getElem?_eq_getElem hlt
    rw [localSymbols, hget, Option.bind_some] at hnone
    simp [localSymbols, insertInNamespace, hget, Scope.bind, hnone]
  rw [lookup_of_binds hsome]
  rfl

end ScopeTree

namespace SymbolTable

def empty : SymbolTable := ⟨[], ∅⟩

def alloc (table : SymbolTable) (data : Symbol) : SymbolId × SymbolTable :=
  (table.symbols.length, { table with symbols := table.symbols ++ [data] })

def insertMember (table : SymbolTable) (owner : SymbolId) (name : String) (member : SymbolId) :
    SymbolTable :=
  let members := (table.members.get (owner, name)).getD []
  let members := if members.contains member then members else members ++ [member]
  { table with members := table.members.insert (owner, name) members }

def resolveMember (table : SymbolTable) (owner : SymbolId) (name : String) : ResolveResult :=
  ScopeTree.resolveSymbols ((table.members.get (owner, name)).getD [])

def setDefinition (table : SymbolTable) (symbol : SymbolId) (definition : SymbolDef) :
    SymbolTable :=
  { table with symbols := table.symbols.modify symbol fun data => { data with definition } }

end SymbolTable

end EtasFrontend.Hir
