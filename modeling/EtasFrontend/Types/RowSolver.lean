import EtasFrontend.Lib.Map
import EtasFrontend.Types.Ty
import Mathlib.Data.Finset.Insert
import Mathlib.Data.String.Basic

/-! Inference of effect-row parameters: equations are collected from pairs of rows and solved
together, one parameter at a time. -/
namespace EtasFrontend.Types
open Lib

/-! Rows up to equivalence of their members. -/

section
variable (equivalent : EffectRef → EffectRef → Bool)

def rowsEquivalent (lhs rhs : EffectRowRef) : Bool :=
  lhs.tail == rhs.tail &&
    lhs.effects.all (fun a => rhs.effects.any fun b => equivalent a b) &&
    rhs.effects.all (fun b => lhs.effects.any fun a => equivalent a b)

end

def specializeRow (row : EffectRowRef) (bindings : Map String EffectRowRef) : EffectRowRef :=
  match row.tail with
  | none => row
  | some tail =>
    match bindings.get tail with
    | none => row
    | some bound =>
      ⟨bound.effects.foldl
        (fun effects effect => if effect ∈ effects then effects else effects ++ [effect])
        row.effects, bound.tail⟩

structure EffectRowEquation where
  fixed : EffectRowRef
  actual : EffectRowRef

structure EffectRowInference where
  isMatch : Bool
  deferred : Finset String
  deferredFixed : List (String × EffectRowRef)
  concrete : List (String × EffectRowEquation)

/-- `expected` is `fixed` with the tail `parameter`; `origin` is the pair it comes from. -/
structure RowEquation where
  parameter : String
  fixed : List EffectRef
  actual : EffectRowRef
  origin : ℕ

/-- `equivalent` is `effect_refs_equivalent` at the store and the bindings of the call. -/
structure InferenceInputs where
  equivalent : EffectRef → EffectRef → Bool
  params : List String
  lexicalParams : List String

structure InferenceState where
  bindings : Map String EffectRowRef
  results : List EffectRowInference
  current : ℕ
  equations : List RowEquation

/-- State before the first of `pairs` pairs. -/
def InferenceState.start (bindings : Map String EffectRowRef) (pairs : ℕ) : InferenceState :=
  ⟨bindings, List.replicate pairs ⟨true, ∅, [], []⟩, 0, []⟩

def andMatches (results : List EffectRowInference) (origin : ℕ) (b : Bool) :
    List EffectRowInference :=
  results.modify origin fun r => { r with isMatch := r.isMatch && b }

def deferTo (results : List EffectRowInference) (origin : ℕ) (parameter : String)
    (fixed : EffectRowRef) : List EffectRowInference :=
  results.modify origin fun r => { r with
    deferred := insert parameter r.deferred
    deferredFixed := r.deferredFixed ++ [(parameter, fixed)] }

def pushConcrete (results : List EffectRowInference) (origin : ℕ) (parameter : String)
    (equation : EffectRowEquation) : List EffectRowInference :=
  results.modify origin fun r => { r with concrete := r.concrete ++ [(parameter, equation)] }

def matchesAt (results : List EffectRowInference) (origin : ℕ) : Bool :=
  (results[origin]?).any EffectRowInference.isMatch

/-- The actual row ends in the very parameter to be solved. Binders of caller and callee with one
name are distinct only when the caller's is a lexical parameter. -/
def RowEquation.isDeferred (inputs : InferenceInputs) (equation : RowEquation) : Bool :=
  equation.actual.tail == some equation.parameter &&
    !inputs.lexicalParams.contains equation.parameter

def RowEquation.coversFixed (equivalent : EffectRef → EffectRef → Bool) (equation : RowEquation) :
    Bool :=
  equation.fixed.all fun fixed => equation.actual.effects.any fun actual => equivalent fixed actual

def RowEquation.residual (equivalent : EffectRef → EffectRef → Bool) (equation : RowEquation) :
    List EffectRef :=
  equation.actual.effects.filter fun actual =>
    !equation.fixed.any fun fixed => equivalent fixed actual

/-- `push` each member of `members` that no earlier one is equivalent to. -/
def pushNew (equivalent : EffectRef → EffectRef → Bool) (row members : List EffectRef) :
    List EffectRef :=
  members.foldl (fun row effect =>
    if row.any fun existing => equivalent existing effect then row else row ++ [effect]) row

/-- One round of the first loop over a group. -/
def collectStep (inputs : InferenceInputs) (explicit : Option EffectRowRef)
    (acc : List EffectRowInference × Option EffectRowRef) (equation : RowEquation) :
    List EffectRowInference × Option EffectRowRef :=
  let (results, inferred) := acc
  let mismatch := andMatches results equation.origin false
  let residual := equation.residual inputs.equivalent
  if !equation.coversFixed inputs.equivalent then (mismatch, inferred)
  else if equation.isDeferred inputs then
    if residual.isEmpty then
      (deferTo results equation.origin equation.parameter ⟨equation.fixed, none⟩, inferred)
    else (mismatch, inferred)
  else
    match explicit with
    | some _ => (results, inferred)
    | none =>
      let row := inferred.getD ⟨[], equation.actual.tail⟩
      (if row.tail == equation.actual.tail then results else mismatch,
        some ⟨pushNew inputs.equivalent row.effects residual, row.tail⟩)

/-- Whether a row for the parameter solves the equation. -/
def RowEquation.solvedBy (equivalent : EffectRef → EffectRef → Bool) (bound : EffectRowRef)
    (equation : RowEquation) : Bool :=
  let combined := pushNew equivalent equation.fixed bound.effects
  bound.tail == equation.actual.tail &&
    combined.all (fun effect => equation.actual.effects.any fun a => equivalent effect a) &&
    equation.actual.effects.all fun effect => combined.any fun a => equivalent effect a

/-- One round of the second loop over a group. -/
def checkStep (inputs : InferenceInputs) (bound : EffectRowRef)
    (results : List EffectRowInference) (equation : RowEquation) : List EffectRowInference :=
  if equation.isDeferred inputs then results
  else andMatches results equation.origin (equation.solvedBy inputs.equivalent bound)

def solveGroup (inputs : InferenceInputs) (state : InferenceState) (parameter : String)
    (group : List RowEquation) : InferenceState :=
  let explicit := state.bindings.get parameter
  let (results, inferred) := group.foldl (collectStep inputs explicit) (state.results, none)
  match explicit.or inferred with
  | none => { state with results }
  | some bound =>
    let results := group.foldl (checkStep inputs bound) results
    let bindings :=
      if group.all fun equation => matchesAt results equation.origin then
        state.bindings.insert parameter bound
      else state.bindings
    { state with results, bindings }

def recordConcrete (inputs : InferenceInputs) (results : List EffectRowInference)
    (equation : RowEquation) : List EffectRowInference :=
  if equation.isDeferred inputs then results
  else pushConcrete results equation.origin equation.parameter
    ⟨⟨equation.fixed, none⟩, equation.actual⟩

/-- The parameters of the equations, in the order of a `BTreeMap`. -/
def parametersOf (equations : List RowEquation) : List String :=
  ((equations.map RowEquation.parameter).dedup).insertionSort (· ≤ ·)

def solveRowEquations (inputs : InferenceInputs) (state : InferenceState) : InferenceState :=
  let equations := state.equations
  let state := { state with
    equations := []
    results := equations.foldl (recordConcrete inputs) state.results }
  (parametersOf equations).foldl (fun state parameter =>
    solveGroup inputs state parameter (equations.filter (·.parameter == parameter))) state

/-! Membership up to equivalence. -/

/-- Every member of `as` has an equivalent one in `bs`. -/
def Within (equivalent : EffectRef → EffectRef → Bool) (as bs : List EffectRef) : Prop :=
  ∀ a ∈ as, ∃ b ∈ bs, equivalent a b = true

/-- The oracle is an equivalence relation. -/
def IsEquivalence (equivalent : EffectRef → EffectRef → Bool) : Prop :=
  Equivalence fun a b => equivalent a b = true

/-- `row` makes `fixed ∪ row` equivalent to the actual row. -/
def Solves (equivalent : EffectRef → EffectRef → Bool) (row : EffectRowRef)
    (equation : RowEquation) : Prop :=
  rowsEquivalent equivalent ⟨equation.fixed ++ row.effects, row.tail⟩ equation.actual = true

instance (equivalent : EffectRef → EffectRef → Bool) (row : EffectRowRef)
    (equation : RowEquation) : Decidable (Solves equivalent row equation) :=
  inferInstanceAs (Decidable (_ = true))

variable {equivalent : EffectRef → EffectRef → Bool}

theorem Within.of_subset (he : IsEquivalence equivalent) {as bs : List EffectRef} (h : as ⊆ bs) :
    Within equivalent as bs :=
  fun a ha => ⟨a, h ha, he.refl a⟩

theorem Within.trans (he : IsEquivalence equivalent) {as bs cs : List EffectRef}
    (h : Within equivalent as bs) (h' : Within equivalent bs cs) : Within equivalent as cs := by
  intro a ha
  obtain ⟨b, hb, hab⟩ := h a ha
  obtain ⟨c, hc, hbc⟩ := h' b hb
  exact ⟨c, hc, he.trans hab hbc⟩

theorem within_append {as bs cs : List EffectRef} :
    Within equivalent (as ++ bs) cs ↔ Within equivalent as cs ∧ Within equivalent bs cs := by
  simp only [Within, List.mem_append, or_imp, forall_and]

theorem all_any_iff {as bs : List EffectRef} :
    (as.all fun a => bs.any fun b => equivalent a b) = true ↔ Within equivalent as bs := by
  simp [Within]

variable (he : IsEquivalence equivalent)
include he

theorem rowsEquivalent_iff {r s : EffectRowRef} :
    rowsEquivalent equivalent r s = true ↔
      r.tail = s.tail ∧ Within equivalent r.effects s.effects ∧
        Within equivalent s.effects r.effects := by
  have hflip : (s.effects.all fun b => r.effects.any fun a => equivalent a b) = true ↔
      Within equivalent s.effects r.effects := by
    simp only [Within, List.all_eq_true, List.any_eq_true]
    exact forall₂_congr fun b _ => ⟨fun ⟨a, ha, h⟩ => ⟨a, ha, he.symm h⟩,
      fun ⟨a, ha, h⟩ => ⟨a, ha, he.symm h⟩⟩
  rw [rowsEquivalent, Bool.and_eq_true, Bool.and_eq_true, beq_iff_eq, all_any_iff, hflip, and_assoc]

theorem solves_iff {row : EffectRowRef} {e : RowEquation} :
    Solves equivalent row e ↔ row.tail = e.actual.tail ∧
      Within equivalent e.fixed e.actual.effects ∧ Within equivalent row.effects e.actual.effects ∧
        Within equivalent e.actual.effects (e.fixed ++ row.effects) := by
  rw [Solves, rowsEquivalent_iff he, within_append, and_assoc]

theorem pushNew_spec (row members : List EffectRef) :
    row ⊆ pushNew equivalent row members ∧ pushNew equivalent row members ⊆ row ++ members ∧
      Within equivalent members (pushNew equivalent row members) := by
  induction members generalizing row with
  | nil => exact ⟨List.Subset.refl _, by simp [pushNew], by simp [Within]⟩
  | cons m members ih =>
    have hstep : pushNew equivalent row (m :: members) =
        pushNew equivalent (if row.any fun x => equivalent x m then row else row ++ [m]) members :=
      rfl
    rw [hstep]
    split_ifs with hany
    · obtain ⟨h1, h2, h3⟩ := ih row
      refine ⟨h1, fun x hx => ?_, fun x hx => ?_⟩
      · have := h2 hx
        simp only [List.mem_append, List.mem_cons] at this ⊢
        tauto
      · rcases List.mem_cons.mp hx with rfl | hx
        · obtain ⟨y, hy, hyx⟩ := List.any_eq_true.mp hany
          exact ⟨y, h1 hy, he.symm hyx⟩
        · exact h3 x hx
    · obtain ⟨h1, h2, h3⟩ := ih (row ++ [m])
      refine ⟨fun x hx => h1 (List.mem_append_left _ hx), fun x hx => ?_, fun x hx => ?_⟩
      · have := h2 hx
        simp only [List.mem_append, List.mem_cons] at this ⊢
        tauto
      · rcases List.mem_cons.mp hx with rfl | hx
        · exact ⟨x, h1 (by simp), he.refl x⟩
        · exact h3 x hx

theorem solvedBy_iff {bound : EffectRowRef} {e : RowEquation} :
    e.solvedBy equivalent bound = true ↔ Solves equivalent bound e := by
  obtain ⟨h1, h2, h3⟩ := pushNew_spec he e.fixed bound.effects
  have hto : Within equivalent (e.fixed ++ bound.effects)
      (pushNew equivalent e.fixed bound.effects) :=
    within_append.mpr ⟨.of_subset he h1, h3⟩
  have hfrom : Within equivalent (pushNew equivalent e.fixed bound.effects)
      (e.fixed ++ bound.effects) := .of_subset he h2
  simp only [RowEquation.solvedBy, Bool.and_eq_true, beq_iff_eq, all_any_iff, Solves,
    rowsEquivalent_iff he, and_assoc]
  refine and_congr_right fun _ => and_congr ⟨hto.trans he, hfrom.trans he⟩
    ⟨fun h => h.trans he hfrom, fun h => h.trans he hto⟩

end EtasFrontend.Types
