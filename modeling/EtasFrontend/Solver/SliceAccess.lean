import EtasFrontend.Types.UnifierSound

/-! Slice access constraints: what the solver checks of the type of a slice, and when that is
enough. -/
namespace EtasFrontend.Solver
open Lib EtasFrontend.Types Unifier Relation

abbrev HirExprId := ℕ

inductive TypeDiagnosticCode where
  | typeMismatch
  | incompleteTypeFacts

structure Span where
  source : ℕ
  start : ℕ
  stop : ℕ

structure SolverFailure where
  code : TypeDiagnosticCode
  span : Span
  message : String

inductive CheckedSliceKind where
  | sequence (base start stop output : TypeId)
  | range (range start stop output : TypeId)

/-- The parts of the report that access constraints fill in. -/
structure SolverReport where
  substitutions : Substitution
  sliceFacts : Map HirExprId CheckedSliceKind
  failures : List SolverFailure

namespace SolverReport

def empty : SolverReport := ⟨.empty, ∅, []⟩

def push (report : SolverReport) (failure : SolverFailure) : SolverReport :=
  { report with failures := report.failures ++ [failure] }

def recordSliceKind (report : SolverReport) (expr : HirExprId) (kind : CheckedSliceKind) :
    SolverReport :=
  { report with sliceFacts := report.sliceFacts.insert expr kind }

end SolverReport

/-- `spec_facts` is in what decides that a type satisfies `Index`. -/
structure SliceAccessSolveInput where
  expr : HirExprId
  base : TypeId
  start : TypeId
  stop : TypeId
  output : TypeId
  origin : Span
  substitutions : Substitution

section
variable (store : TypeStore)

def resolveSubstitutionLoop (substitutions : Substitution) : ℕ → TypeId → TypeId
  | 0, current => current
  | n + 1, current =>
    match store.get current with
    | some (.var var) =>
      match substitutions.get var with
      | none => current
      | some next => if next = current then current else resolveSubstitutionLoop substitutions n next
    | _ => current

/-- `seen` goes from 0 to 64. -/
def resolveSubstitution (substitutions : Substitution) (ty : TypeId) : TypeId :=
  resolveSubstitutionLoop store substitutions 65 ty

def unifyOrAssign (n : ℕ) (actual expected : TypeId) (origin : Span) (unifier : Unifier)
    (report : SolverReport) : Option (Unifier × SolverReport) :=
  if store.get actual = some (.primitive .never) then some (unifier, report)
  else
    match unify store n unifier actual expected with
    | none => none
    | some (.ok (), unifier) => some (unifier, report)
    | some (.error _, unifier) => some (unifier, report.push
        ⟨.typeMismatch, origin, "indexed value type does not match expected output"⟩)

/-- `satisfiesIndex` answers for `std_type_satisfies_spec` and the spec `Index`. -/
def isIndexType (satisfiesIndex : TypeId → Bool) (ty : TypeId) : Bool :=
  match store.get ty with
  | some (.integerLiteral _) => true
  | _ => satisfiesIndex ty

def firstTypeId (needle : Ty) : Option TypeId := store.allTypes.findIdx? fun ty => ty = needle

/-- The start of `solve_slice_access`: the bounds. -/
def checkBounds (satisfiesIndex : TypeId → Bool) (start stop : TypeId) (origin : Span) :
    SolverReport :=
  if !isIndexType store satisfiesIndex start || !isIndexType store satisfiesIndex stop then
    SolverReport.empty.push ⟨.typeMismatch, origin, "slice bounds must satisfy Index"⟩
  else .empty

/-- The match of `solve_slice_access`, on the resolved ids. -/
def checkSlice (n : ℕ) (input : SliceAccessSolveInput) (base start stop output : TypeId)
    (report : SolverReport) : Option (Unifier × SolverReport) :=
  let resolve := resolveSubstitution store input.substitutions
  let unifier := withKnownSubstitution input.substitutions
  match store.get base with
  | some (.array value) | some (.list value) | some (.slice value) =>
    let slice := (firstTypeId store (.slice (resolve value))).getD output
    (unifyOrAssign store n slice output input.origin unifier report).map fun (unifier, report) =>
      (unifier, report.recordSliceKind input.expr (.sequence base start stop output))
  | some (.primitive .bytes) =>
    (unifyOrAssign store n base output input.origin unifier report).map fun (unifier, report) =>
      (unifier, report.recordSliceKind input.expr (.sequence base start stop output))
  | some (.range index) =>
    let range := (firstTypeId store (.range (resolve index))).getD output
    (unifyOrAssign store n range output input.origin unifier report).map fun (unifier, report) =>
      (unifier, report.recordSliceKind input.expr (.range base start stop output))
  | _ => some (unifier, report.push ⟨.typeMismatch, input.origin, "value is not sliceable"⟩)

/-- `none` means that the recursion bound of the unifier was too small. -/
def solveSliceAccess (n : ℕ) (satisfiesIndex : TypeId → Bool) (input : SliceAccessSolveInput) :
    Option SolverReport :=
  let resolve := resolveSubstitution store input.substitutions
  let base := resolve input.base
  let start := resolve input.start
  let stop := resolve input.stop
  let output := resolve input.output
  let report := checkBounds store satisfiesIndex start stop input.origin
  (checkSlice store n input base start stop output report).map fun (unifier, report) =>
    if report.failures = [] then
      { report with substitutions := report.substitutions.extend unifier.substitution }
    else report

end

/-! What the result should be. -/

/-- The types that slices of a type have. -/
inductive SliceShape where
  | slice | range

def SliceShape.ty {ρ : Type} : SliceShape → ρ → Ty ρ
  | .slice, inner => .slice inner
  | .range, inner => .range inner

/-- What is sliced in the type, and the shape of its slices. -/
def sliced : Ty → Option (SliceShape × TypeId)
  | .array value | .list value | .slice value => some (.slice, value)
  | .range index => some (.range, index)
  | _ => none

/-- Under the bindings the output is the slice over the element type. -/
def OutputAgrees (store : TypeStore) (lookup : TypeVarId → Option TypeId) (shape : SliceShape)
    (element output : TypeId) : Prop :=
  ∀ s t, FullyApplied store lookup element s → FullyApplied store lookup output t →
    Alike true false false (.node ⟨none, none, false⟩ (shape.ty s)) t

variable {store : TypeStore}

theorem resolveSubstitutionLoop_bindings (substitutions : Substitution) (n : ℕ) (ty : TypeId) :
    ReflTransGen (Binding store substitutions.get) ty
      (resolveSubstitutionLoop store substitutions n ty) := by
  induction n generalizing ty with
  | zero => exact .refl
  | succ n ih =>
    unfold resolveSubstitutionLoop
    split
    · next var hty =>
      split
      · exact .refl
      · next next hnext =>
        split_ifs
        · exact .refl
        · exact .head ⟨var, hty, hnext⟩ (ih next)
    · exact .refl

theorem resolveSubstitution_bindings (substitutions : Substitution) (ty : TypeId) :
    ReflTransGen (Binding store substitutions.get) ty (resolveSubstitution store substitutions ty) :=
  resolveSubstitutionLoop_bindings substitutions 65 ty

theorem resolveSubstitution_eq {substitutions : Substitution} {ty b : TypeId}
    (hb : ResolvesTo store substitutions.get ty b)
    (hvar : ∀ v, store.get (resolveSubstitution store substitutions ty) ≠ some (.var v)) :
    resolveSubstitution store substitutions ty = b := by
  have hc : Resolved store substitutions.get (resolveSubstitution store substitutions ty) :=
    fun c ⟨v, hv, _⟩ => hvar v hv
  have hunique {a b c : TypeId} (h : ReflTransGen (Binding store substitutions.get) a b)
      (h' : ReflTransGen (Binding store substitutions.get) a c)
      (hb : Resolved store substitutions.get b) (hc : Resolved store substitutions.get c) :
      b = c := by
    induction h using ReflTransGen.head_induction_on with
    | refl =>
      rcases h'.cases_head with h | ⟨d, hd, -⟩
      · exact h
      · exact absurd hd (hb d)
    | head hd _ ih =>
      rcases h'.cases_head with rfl | ⟨e, he, h'⟩
      · exact absurd hd (hc _)
      · cases hd.unique he
        exact ih h'
  exact hunique (resolveSubstitution_bindings substitutions ty) hb.1 hc hb.2

theorem firstTypeId_get {needle : Ty} {id : TypeId} (h : firstTypeId store needle = some id) :
    store.get id = some needle := by
  obtain ⟨hlt, hget, -⟩ := List.findIdx?_eq_some_iff_getElem.mp h
  rw [TypeStore.get_eq, List.getElem?_eq_getElem hlt]
  simpa using hget

variable {shape : SliceShape}

theorem alike_shape {f g : NodeFacts} {s t : TypeTree}
    (h : Alike true false false (.node f (shape.ty s)) t) :
    Alike true false false (.node g (shape.ty s)) t := by
  cases shape with
  | slice =>
    cases h with
    | refl =>
      exact .positional trivial rfl fun p hp => by
        cases List.mem_singleton.mp hp
        exact .refl s
    | positional hp hs h => exact .positional hp hs h
  | range =>
    cases h with
    | refl =>
      exact .positional trivial rfl fun p hp => by
        cases List.mem_singleton.mp hp
        exact .refl s
    | positional hp hs h => exact .positional hp hs h

theorem SolverReport.push_failures_ne (report : SolverReport) (failure : SolverFailure) :
    (report.push failure).failures ≠ [] := by
  simp [push]

variable {n : ℕ}

/-- A call that has reported nothing. Nothing is compared when the actual type is `never`. -/
theorem unifyOrAssign_ok {actual expected : TypeId} {origin : Span} {u u' : Unifier}
    {report report' : SolverReport}
    (h : unifyOrAssign store n actual expected origin u report = some (u', report'))
    (hok : report'.failures = []) :
    report' = report ∧ (store.get actual = some (.primitive .never) ∧ u' = u ∨
      unify store n u actual expected = some (.ok (), u')) := by
  unfold unifyOrAssign at h
  split at h
  · next hnever =>
    cases h
    exact ⟨rfl, .inl ⟨hnever, rfl⟩⟩
  · split at h
    · cases h
    · next hunify =>
      cases h
      exact ⟨rfl, .inr hunify⟩
    · cases h
      exact absurd hok (report.push_failures_ne _)

/-- The type the output is compared with. -/
def comparedType (store : TypeStore) (input : SliceAccessSolveInput) (shape : SliceShape)
    (element : TypeId) : TypeId :=
  (firstTypeId store (shape.ty (resolveSubstitution store input.substitutions element))).getD
    (resolveSubstitution store input.substitutions input.output)

/-- The type of the access fits the output, and what the unifier has bound for it. -/
def OutputFits (store : TypeStore) (n : ℕ) (input : SliceAccessSolveInput) (shape : SliceShape)
    (element : TypeId) (u : Unifier) : Prop :=
  let compared := comparedType store input shape element
  let known := withKnownSubstitution input.substitutions
  store.get compared = some (.primitive .never) ∧ u = known ∨
    unify store n known compared (resolveSubstitution store input.substitutions input.output) =
      some (.ok (), u)

variable {satisfiesIndex : TypeId → Bool}

theorem checkBounds_ok {start stop : TypeId} {origin : Span}
    (h : (checkBounds store satisfiesIndex start stop origin).failures = []) :
    checkBounds store satisfiesIndex start stop origin = .empty := by
  unfold checkBounds at h ⊢
  split_ifs at h ⊢
  · exact absurd h (SolverReport.empty.push_failures_ne _)
  · rfl

variable {input : SliceAccessSolveInput}

/-- The match has reported nothing, for a base that can be sliced. -/
theorem checkSlice_ok {base start stop element : TypeId}
    {ty : Ty} {report r : SolverReport} {u : Unifier} (hget : store.get base = some ty)
    (hty : sliced ty = some (shape, element))
    (h : checkSlice store n input base start stop
      (resolveSubstitution store input.substitutions input.output) report = some (u, r))
    (hok : r.failures = []) :
    report.failures = [] ∧ r.substitutions = report.substitutions ∧
      OutputFits store n input shape element u := by
  have hdone (kind : CheckedSliceKind)
      (h : (unifyOrAssign store n (comparedType store input shape element)
        (resolveSubstitution store input.substitutions input.output) input.origin
        (withKnownSubstitution input.substitutions) report).map (fun p =>
          (p.1, p.2.recordSliceKind input.expr kind)) = some (u, r)) :
      report.failures = [] ∧ r.substitutions = report.substitutions ∧
        OutputFits store n input shape element u := by
    obtain ⟨⟨w, q⟩, hq, hpair⟩ := Option.map_eq_some_iff.mp h
    cases hpair
    obtain ⟨rfl, hcompared⟩ := unifyOrAssign_ok hq hok
    exact ⟨hok, rfl, hcompared⟩
  unfold checkSlice at h
  rw [hget] at h
  cases ty with
  | array value | list value | slice value | range index =>
    cases hty
    exact hdone _ h
  | _ => cases hty

/-- Nothing was reported, for a base that can be sliced. -/
theorem solveSliceAccess_ok {report : SolverReport} {b element : TypeId} {ty : Ty}
    (hbase : ResolvesTo store input.substitutions.get input.base b) (hb : store.get b = some ty)
    (hty : sliced ty = some (shape, element))
    (h : solveSliceAccess store n satisfiesIndex input = some report) (hok : report.failures = []) :
    ∃ u, report.substitutions = Substitution.empty.extend u.substitution ∧
      OutputFits store n input shape element u := by
  obtain ⟨⟨u, r⟩, hr, hreport⟩ := Option.map_eq_some_iff.mp h
  have hrok : r.failures = [] := by
    by_contra hne
    simp only [if_neg hne] at hreport
    exact hne (hreport ▸ hok)
  simp only [if_pos hrok] at hreport
  have hvar : ∀ v, store.get (resolveSubstitution store input.substitutions input.base) ≠
      some (.var v) := by
    -- a variable is not sliceable
    intro v hv
    unfold checkSlice at hr
    rw [hv] at hr
    cases hr
    exact SolverReport.push_failures_ne _ _ hrok
  have heq := resolveSubstitution_eq hbase hvar
  rw [heq] at hr
  obtain ⟨hbounds, hsub, hcompared⟩ := checkSlice_ok hb hty hr hrok
  refine ⟨u, ?_, hcompared⟩
  rw [← hreport]
  simp only [hsub, checkBounds_ok hbounds]
  rfl

theorem unify_self {u u' : Unifier} {ty : TypeId} (hp : u.patternParameters = none)
    (h : unify store n u ty ty = some (.ok (), u')) : u' = u := by
  cases n with
  | zero => cases h
  | succ n =>
    unfold unify goal at h
    rw [hp] at h
    cases hr : u.resolve store ty with
    | error error =>
      rw [hr] at h
      cases h
    | ok ty' =>
      rw [hr] at h
      simp only [if_true] at h
      cases h
      rfl

theorem fullyApplied_shape {lookup : TypeVarId → Option TypeId} {id element : TypeId} {s : TypeTree}
    (hget : store.get id = some (shape.ty element)) (hs : FullyApplied store lookup element s) :
    FullyApplied store lookup id
      (.node (store.facts id (shape.ty element)) (shape.ty s)) := by
  have hchildren : (shape.ty element : Ty).children = [element] := by cases shape <;> rfl
  have htree : (shape.ty element : Ty).mapRefs (fun _ => s) = shape.ty s := by cases shape <;> rfl
  rw [← htree]
  refine .node (fun _ => s) (fun c ⟨v, hv, _⟩ => ?_) hget fun c hc => ?_
  · rw [hget] at hv
    cases shape <;> cases hv
  · rw [hchildren] at hc
    rw [List.mem_singleton.mp hc]
    exact hs

/-- Without a failure the output is the slice type over what the base holds, exactly when that
slice type was interned or the output already was that type. -/
theorem solveSliceAccess_agrees_iff {report : SolverReport} {b element : TypeId} {ty : Ty}
    {shape : SliceShape} (hbase : ResolvesTo store input.substitutions.get input.base b)
    (hb : store.get b = some ty) (hty : sliced ty = some (shape, element))
    (h : solveSliceAccess store n satisfiesIndex input = some report) (hok : report.failures = []) :
    OutputAgrees store (input.substitutions.extend report.substitutions).get shape element
        input.output ↔
      (firstTypeId store
        (shape.ty (resolveSubstitution store input.substitutions element))).isSome ∨
      OutputAgrees store input.substitutions.get shape element input.output := by
  obtain ⟨u, hsub, hcompared⟩ := solveSliceAccess_ok hbase hb hty h hok
  dsimp only [OutputFits] at hcompared
  have hresult (hu : u.known = some input.substitutions) :
      (input.substitutions.extend report.substitutions).get = u.lookup := by
    funext v
    rw [hsub, Substitution.get_extend, Substitution.get_extend, lookup, hu]
    simp
  cases hfirst : firstTypeId store
      (shape.ty (resolveSubstitution store input.substitutions element)) with
  | none =>
    -- the output is compared with itself, which binds nothing
    have hsame : comparedType store input shape element =
        resolveSubstitution store input.substitutions input.output := by
      rw [comparedType, hfirst]
      rfl
    rw [hsame] at hcompared
    have hu : u = withKnownSubstitution input.substitutions := by
      rcases hcompared with ⟨-, hu⟩ | hunify
      · exact hu
      · exact unify_self rfl hunify
    rw [hresult (by rw [hu]; rfl), hu]
    simp only [Option.isSome_none, Bool.false_eq_true, false_or]
    have hlookup : (withKnownSubstitution input.substitutions).lookup = input.substitutions.get := by
      funext v
      rfl
    rw [hlookup]
  | some id =>
    simp only [Option.isSome_some, true_or, iff_true]
    have hid : comparedType store input shape element = id := by
      rw [comparedType, hfirst]
      rfl
    have hget := firstTypeId_get hfirst
    rw [hid] at hcompared
    rcases hcompared with ⟨hnever, -⟩ | hunify
    · rw [hget] at hnever
      cases shape <;> cases hnever
    · rw [hresult (unify_sameSetup hunify).known]
      intro s t hs ht
      have hgrows {x y : TypeId} (hxy : ReflTransGen (Binding store input.substitutions.get) x y) :
          ReflTransGen (Binding store u.lookup) x y :=
        ReflTransGen.mono (fun _ _ ⟨v, hv, hb⟩ => ⟨v, hv, unify_extends hunify hb⟩) _ _ hxy
      have hslice := fullyApplied_shape hget (hs.of_bindings (hgrows
        (resolveSubstitution_bindings input.substitutions element)))
      have houtput := ht.of_bindings (hgrows
        (resolveSubstitution_bindings input.substitutions input.output))
      exact alike_shape (unify_sound rfl hunify (fun _ _ hv => hv) hslice houtput)

/-- A variable that stands for an array of strings, and a type `bool`. -/
def sliceStore (more : List Ty) : TypeStore := { TypeStore.new with
  types := [.integerLiteral "0", .primitive .string, .array 1, .var 0, .primitive .bool] ++ more }

/-- `values[0..0]`. -/
def sliceInput (output : TypeId) : SliceAccessSolveInput where
  expr := 0
  base := 3
  start := 0
  stop := 0
  output := output
  origin := ⟨0, 0, 0⟩
  substitutions := Substitution.empty.insert 0 2

private theorem sliceInput_base (more : List Ty) (output : TypeId) :
    ResolvesTo (sliceStore more) (sliceInput output).substitutions.get (sliceInput output).base 2 :=
  ⟨.single ⟨0, rfl, rfl⟩, fun _ ⟨_, hv, _⟩ => by cases hv⟩

theorem solveSliceAccess_agrees_interned :
    ∃ report, solveSliceAccess (sliceStore [.slice 1, .var 1]) 3 (fun _ => false) (sliceInput 6) =
      some report ∧ report.failures = [] ∧
      OutputAgrees (sliceStore [.slice 1, .var 1])
        ((sliceInput 6).substitutions.extend report.substitutions).get .slice 1 6 := by
  refine ⟨_, rfl, ?_, ?_⟩
  · rfl
  have hagrees := @solveSliceAccess_agrees_iff (sliceStore [.slice 1, .var 1]) 3 (fun _ => false)
    (sliceInput 6) _ 2 1 (.array 1) .slice (sliceInput_base [.slice 1, .var 1] 6) rfl rfl rfl rfl
  exact hagrees.mpr (.inl rfl)

/-- No slice type is interned: the slice passes as a `bool`. -/
theorem solveSliceAccess_unchecked :
    ∃ report, solveSliceAccess (sliceStore []) 3 (fun _ => false) (sliceInput 4) = some report ∧
      report.failures = [] ∧
      ¬ OutputAgrees (sliceStore []) ((sliceInput 4).substitutions.extend report.substitutions).get
        .slice 1 4 := by
  refine ⟨_, rfl, ?_, fun h => ?_⟩
  · rfl
  have hleaf (lookup : TypeVarId → Option TypeId) {id : TypeId} {p : PrimitiveType}
      (hget : (sliceStore []).get id = some (.primitive p)) :
      FullyApplied (sliceStore []) lookup id
        (.node ((sliceStore []).facts id (.primitive p)) (.primitive p)) := by
    refine .node .missing (fun c ⟨v, hv, _⟩ => ?_) hget fun c hc => by cases hc
    rw [hget] at hv
    cases hv
  have halike := h _ _ (@hleaf _ 1 .string rfl) (@hleaf _ 4 .bool rfl)
  cases halike with
  | positional _ hs _ => cases hs

end EtasFrontend.Solver
