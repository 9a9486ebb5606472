import EtasFrontend.Alias.Lattice
import Mathlib.Data.Finset.Sort

/-! The order and the join of value expressions and of the summaries made of them, and the laws of
the three joins together. The sorted lists of the source are under its derived order, of which
only that it is linear matters. -/
namespace EtasFrontend.Alias
open Lib
open Hir (SymbolId)

namespace AliasValueExpr

mutual

def flattenUnion : AliasValueExpr → List AliasValueExpr
  | .union values => flattenAll values
  | .bottom => []
  | other => [other]

def flattenAll : List AliasValueExpr → List AliasValueExpr
  | [] => []
  | value :: values => flattenUnion value ++ flattenAll values

end

/-- What a union may list. -/
def IsAtom : AliasValueExpr → Prop
  | .union _ | .bottom => False
  | _ => True

/-- No union is listed in a union, and no bottom. -/
def Flat : AliasValueExpr → Prop
  | .union values => ∀ value ∈ values, value.IsAtom
  | _ => True

theorem IsAtom.flattenUnion {value : AliasValueExpr} (h : value.IsAtom) :
    value.flattenUnion = [value] := by
  cases value with
  | union _ => cases h
  | bottom => cases h
  | _ => rw [AliasValueExpr.flattenUnion] <;> simp

theorem flattenAll_atoms {values : List AliasValueExpr} (h : ∀ value ∈ values, value.IsAtom) :
    flattenAll values = values := by
  induction values with
  | nil => rw [flattenAll]
  | cons value values ih =>
    rw [flattenAll, (h value List.mem_cons_self).flattenUnion,
      ih fun v hv => h v (List.mem_cons_of_mem _ hv)]
    rfl

mutual

private theorem isAtom_of_mem_flattenUnion (value : AliasValueExpr) :
    ∀ v ∈ value.flattenUnion, v.IsAtom := by
  cases value with
  | union values =>
    rw [flattenUnion]
    exact isAtom_of_mem_flattenAll values
  | bottom =>
    rw [flattenUnion]
    simp
  | _ => simp [flattenUnion, IsAtom]

private theorem isAtom_of_mem_flattenAll (values : List AliasValueExpr) :
    ∀ v ∈ flattenAll values, v.IsAtom := by
  cases values with
  | nil =>
    rw [flattenAll]
    simp
  | cons value values =>
    intro v hv
    rw [flattenAll, List.mem_append] at hv
    rcases hv with hv | hv
    · exact isAtom_of_mem_flattenUnion value v hv
    · exact isAtom_of_mem_flattenAll values v hv

end

variable [LinearOrder AliasValueExpr]

/-- The last arm: a sorted list without repetitions, or unknown. -/
def pack (limit : ℕ) (values : Finset AliasValueExpr) : AliasValueExpr :=
  if limit < values.card then .unknown else .union (values.sort (· ≤ ·))

def sorted (values : Finset AliasValueExpr) : List AliasValueExpr := values.sort (· ≤ ·)

def join (value other : AliasValueExpr) (limit : ℕ) : AliasValueExpr :=
  if value = .unknown ∨ other = .unknown then .unknown
  else if value = .bottom then other
  else if other = .bottom then value
  else if value = other then value
  else pack limit (value.flattenUnion ++ other.flattenUnion).toFinset

def lessEqual (value other : AliasValueExpr) : Bool :=
  if value = .bottom ∨ other = .unknown then true
  else if value = .unknown ∨ other = .bottom then decide (value = other)
  else
    match value, other with
    | .union left, .union right => left.all fun v => decide (v ∈ right)
    | left, .union right => decide (left ∈ right)
    | .union left, right => left.all fun v => decide (v = right)
    | left, right => decide (left = right)

def atoms (value : AliasValueExpr) : Finset AliasValueExpr := value.flattenUnion.toFinset

variable {a b c : AliasValueExpr} {limit : ℕ}

section
variable (a)

@[simp] theorem unknown_join : join .unknown a limit = .unknown := by
  simp [join]

@[simp] theorem join_unknown : join a .unknown limit = .unknown := by
  simp [join]

@[simp] theorem bottom_join : join .bottom a limit = a := by
  by_cases h : a = .unknown
  · rw [h, join_unknown]
  · simp [join, h]

@[simp] theorem join_bottom : join a .bottom limit = a := by
  by_cases h : a = .unknown
  · rw [h, unknown_join]
  · by_cases hb : a = .bottom
    · rw [hb, bottom_join]
    · simp [join, h, hb]

@[simp] theorem join_self : join a a limit = a := by
  by_cases h : a = .unknown
  · rw [h, unknown_join]
  · by_cases hb : a = .bottom
    · rw [hb, bottom_join]
    · simp [join, h, hb]

end

/-- Neither unknown nor bottom. -/
def Proper (value : AliasValueExpr) : Prop := value ≠ .unknown ∧ value ≠ .bottom

theorem eq_of_not_proper (h : ¬ a.Proper) : a = .unknown ∨ a = .bottom := by
  by_contra hne
  rw [not_or] at hne
  exact h hne

theorem join_of_ne (ha : a.Proper) (hb : b.Proper) (hne : a ≠ b) :
    a.join b limit = pack limit (a.atoms ∪ b.atoms) := by
  have hunion : (a.flattenUnion ++ b.flattenUnion).toFinset = a.atoms ∪ b.atoms :=
    List.toFinset_append
  simp [join, ha.1, ha.2, hb.1, hb.2, hne, hunion]

theorem join_comm (a b : AliasValueExpr) (limit : ℕ) : a.join b limit = b.join a limit := by
  by_cases hab : a = b
  · rw [hab]
  by_cases ha : a.Proper
  · by_cases hb : b.Proper
    · rw [join_of_ne ha hb hab, join_of_ne hb ha (Ne.symm hab), Finset.union_comm]
    · rcases eq_of_not_proper hb with h | h
      · simp [h]
      · simp [h]
  · rcases eq_of_not_proper ha with h | h
    · simp [h]
    · simp [h]

theorem isAtom_of_mem_atoms {v : AliasValueExpr} (h : v ∈ a.atoms) : v.IsAtom :=
  isAtom_of_mem_flattenUnion a v (List.mem_toFinset.mp h)

theorem atoms_union_sort {values : Finset AliasValueExpr} (h : ∀ v ∈ values, v.IsAtom) :
    (AliasValueExpr.union (values.sort (· ≤ ·))).atoms = values := by
  unfold atoms
  rw [flattenUnion, flattenAll_atoms fun v hv => h v ((Finset.mem_sort _).mp hv),
    Finset.sort_toFinset]

theorem pack_join {values : Finset AliasValueExpr} (h : ∀ v ∈ values, v.IsAtom)
    (hc : c.Proper) : (pack limit values).join c limit = pack limit (values ∪ c.atoms) := by
  have hgrow := Finset.card_le_card (Finset.subset_union_left : values ⊆ values ∪ c.atoms)
  unfold pack
  by_cases hcard : limit < values.card
  · have hall : limit < (values ∪ c.atoms).card := by omega
    rw [if_pos hcard, if_pos hall, unknown_join]
  · rw [if_neg hcard]
    have hatoms := atoms_union_sort h
    have hproper : (AliasValueExpr.union (values.sort (· ≤ ·))).Proper := ⟨by simp, by simp⟩
    by_cases heq : AliasValueExpr.union (values.sort (· ≤ ·)) = c
    · have hsame : values ∪ c.atoms = values := by rw [← heq, hatoms, Finset.union_self]
      rw [← heq, join_self, heq, hsame, if_neg hcard, heq]
    · rw [join_of_ne hproper hc heq, hatoms]
      rfl

private theorem join_assoc_proper (ha : a.Proper) (hb : b.Proper) (hc : c.Proper)
    (hne : ¬ (a = b ∧ b = c)) :
    (a.join b limit).join c limit = pack limit (a.atoms ∪ b.atoms ∪ c.atoms) := by
  have hatoms : ∀ v ∈ a.atoms ∪ b.atoms, v.IsAtom := by
    intro v hv
    rcases Finset.mem_union.mp hv with hv | hv
    · exact isAtom_of_mem_atoms hv
    · exact isAtom_of_mem_atoms hv
  by_cases hab : a = b
  · have hbc : b ≠ c := fun h => hne ⟨hab, h⟩
    rw [hab, join_self, Finset.union_self, join_of_ne hb hc hbc]
  · rw [join_of_ne ha hb hab, pack_join hatoms hc]

theorem join_assoc (a b c : AliasValueExpr) (limit : ℕ) :
    (a.join b limit).join c limit = a.join (b.join c limit) limit := by
  by_cases ha : a.Proper
  · by_cases hb : b.Proper
    · by_cases hc : c.Proper
      · by_cases heq : a = b ∧ b = c
        · rw [heq.1, heq.2, join_self]
        · have heq' : ¬ (b = c ∧ c = a) := fun ⟨hbc, hca⟩ => heq ⟨(hbc.trans hca).symm, hbc⟩
          rw [join_assoc_proper ha hb hc heq, join_comm a, join_assoc_proper hb hc ha heq',
            Finset.union_assoc, Finset.union_comm]
      · rcases eq_of_not_proper hc with h | h
        · simp [h]
        · simp [h]
    · rcases eq_of_not_proper hb with h | h
      · simp [h]
      · simp [h]
  · rcases eq_of_not_proper ha with h | h
    · simp [h]
    · simp [h]

theorem bottom_lessEqual (a : AliasValueExpr) : lessEqual .bottom a = true := by
  simp [lessEqual]

theorem lessEqual_unknown (a : AliasValueExpr) : lessEqual a .unknown = true := by
  simp [lessEqual]

theorem lessEqual_refl (a : AliasValueExpr) : a.lessEqual a = true := by
  unfold lessEqual
  split_ifs
  · rfl
  · exact decide_eq_true rfl
  · cases a <;> simp

theorem lessEqual_union (ha : a.Flat) (hp : a.Proper) {values : List AliasValueExpr}
    (h : ∀ v ∈ a.atoms, v ∈ values) : a.lessEqual (.union values) = true := by
  have hmem : ∀ v ∈ a.flattenUnion, v ∈ values := fun v hv => h v (List.mem_toFinset.mpr hv)
  unfold lessEqual
  rw [if_neg (by simp [hp.2]), if_neg (by simp [hp.1])]
  cases a with
  | union left =>
    rw [flattenUnion, flattenAll_atoms ha] at hmem
    simpa using hmem
  | bottom => exact absurd rfl hp.2
  | _ => simpa [flattenUnion] using hmem

theorem lessEqual_join_left (ha : a.Flat) (b : AliasValueExpr) (limit : ℕ) :
    a.lessEqual (a.join b limit) = true := by
  by_cases hp : a.Proper
  · by_cases hb : b.Proper
    · by_cases hab : a = b
      · rw [← hab, join_self]
        exact lessEqual_refl a
      · rw [join_of_ne hp hb hab]
        unfold pack
        split_ifs
        · exact lessEqual_unknown a
        · refine lessEqual_union ha hp fun v hv => ?_
          exact (Finset.mem_sort _).mpr (Finset.mem_union_left _ hv)
    · rcases eq_of_not_proper hb with h | h
      · rw [h, join_unknown]
        exact lessEqual_unknown a
      · rw [h, join_bottom]
        exact lessEqual_refl a
  · rcases eq_of_not_proper hp with h | h
    · rw [h, unknown_join]
      exact lessEqual_refl _
    · rw [h]
      exact bottom_lessEqual _

theorem Flat.join (ha : a.Flat) (hb : b.Flat) : (a.join b limit).Flat := by
  unfold AliasValueExpr.join
  split_ifs
  · trivial
  · exact hb
  · exact ha
  · exact ha
  · unfold pack
    split_ifs
    · trivial
    · intro v hv
      have hmem := List.mem_toFinset.mp ((Finset.mem_sort _).mp hv)
      rcases List.mem_append.mp hmem with hv | hv
      · exact isAtom_of_mem_flattenUnion a v hv
      · exact isAtom_of_mem_flattenUnion b v hv

/-- The expression of a place, projection by projection. -/
def placeToExpr (place : Place) (currentUnit : HirSemanticUnit) : AliasValueExpr :=
  let root : AliasValueExpr :=
    match place.root with
    | .param unit index => if unit = currentUnit then .formalParam index else .unknown
    | .allocation unit expr => .allocation unit expr
    | .allocationKind unit kind => .allocationKind unit kind
    | .captured unit symbol => if unit = currentUnit then .captured symbol else .unknown
    | .topLevel item => .topLevel item
    | .resourceHandle symbol => .resourceHandle symbol
    | .memoryPlace path => .memoryPlace path
    | .external | .unknown | .symbol _ | .return _ => .unknown
  place.projections.foldl .project root

def valueToExpr (value : AliasValue) (currentUnit : HirSemanticUnit) : AliasValueExpr :=
  match value.may with
  | .bottom => .bottom
  | .unknown => .unknown
  | .known places =>
    match (places.image (placeToExpr · currentUnit)).sort (· ≤ ·) with
    | [] => .bottom
    | [single] => single
    | values => .union values

end AliasValueExpr

structure AliasParamSummary where
  escaped : Bool
  deriving DecidableEq

/-- `AliasSummary` with every field. -/
structure UnitSummary where
  unit : Option HirSemanticUnit
  params : List AliasParamSummary
  returnAlias : AliasValueExpr
  escaped : Finset AliasValueExpr
  writes : List AliasWriteEffect
  captures : Map SymbolId AliasValueExpr
  incomplete : Bool
  maxAliasSetSize : ℕ

namespace UnitSummary

/-- `AliasSummary::default()` -/
def bottom : UnitSummary where
  unit := none
  params := []
  returnAlias := .bottom
  escaped := ∅
  writes := []
  captures := ∅
  incomplete := false
  maxAliasSetSize := AliasPrecisionConfig.balanced.maxAliasSetSize

/-- The shorter list is filled up with parameters that do not escape. -/
def joinParams : List AliasParamSummary → List AliasParamSummary → List AliasParamSummary
  | params, [] => params
  | [], others => others
  | param :: params, other :: others =>
    ⟨param.escaped || other.escaped⟩ :: joinParams params others

theorem joinParams_comm (params others : List AliasParamSummary) :
    joinParams params others = joinParams others params := by
  induction params generalizing others with
  | nil => cases others <;> rfl
  | cons param params ih =>
    cases others with
    | nil => rfl
    | cons other others => simp only [joinParams, ih, Bool.or_comm]

theorem joinParams_assoc (params others thirds : List AliasParamSummary) :
    joinParams (joinParams params others) thirds =
      joinParams params (joinParams others thirds) := by
  induction params generalizing others thirds with
  | nil => cases others <;> cases thirds <;> rfl
  | cons param params ih =>
    cases others with
    | nil => cases thirds <;> rfl
    | cons other others =>
      cases thirds with
      | nil => rfl
      | cons third thirds => simp only [joinParams, ih, Bool.or_assoc]

theorem joinParams_self (params : List AliasParamSummary) : joinParams params params = params := by
  induction params with
  | nil => rfl
  | cons param params ih => simp only [joinParams, ih, Bool.or_self]

section
variable [LinearOrder AliasValueExpr]

instance : DecidableEq AliasWriteEffect := fun a b =>
  decidable_of_iff (a.target = b.target ∧ a.value = b.value) (by cases a; cases b; simp)

def pushWrite (writes : List AliasWriteEffect) (write : AliasWriteEffect) : List AliasWriteEffect :=
  if write ∈ writes then writes else writes ++ [write]

def pushWrites (writes others : List AliasWriteEffect) : List AliasWriteEffect :=
  others.foldl pushWrite writes

theorem mem_pushWrite {writes : List AliasWriteEffect} {write w : AliasWriteEffect} :
    w ∈ pushWrite writes write ↔ w ∈ writes ∨ w = write := by
  unfold pushWrite
  split_ifs with h
  · constructor
    · exact Or.inl
    · rintro (hw | rfl)
      · exact hw
      · exact h
  · simp

variable {writes others : List AliasWriteEffect}

theorem mem_pushWrites {w : AliasWriteEffect} :
    w ∈ pushWrites writes others ↔ w ∈ writes ∨ w ∈ others := by
  unfold pushWrites
  induction others generalizing writes with
  | nil => simp
  | cons write others ih =>
    rw [List.foldl_cons, ih, mem_pushWrite, List.mem_cons, or_assoc]

theorem pushWrites_of_subset
    (h : ∀ w ∈ others, w ∈ writes) : pushWrites writes others = writes := by
  unfold pushWrites
  induction others with
  | nil => rfl
  | cons write others ih =>
    have hhead : pushWrite writes write = writes := if_pos (h write List.mem_cons_self)
    rw [List.foldl_cons, hhead]
    exact ih fun w hw => h w (List.mem_cons_of_mem _ hw)

private theorem pushWrites_pushWrite (writes others : List AliasWriteEffect)
    (write : AliasWriteEffect) :
    pushWrites writes (pushWrite others write) = pushWrite (pushWrites writes others) write := by
  by_cases h : write ∈ others
  · have hleft : pushWrite others write = others := if_pos h
    have hright : pushWrite (pushWrites writes others) write = pushWrites writes others :=
      if_pos (mem_pushWrites.mpr (Or.inr h))
    rw [hleft, hright]
  · have hleft : pushWrite others write = others ++ [write] := if_neg h
    rw [hleft]
    unfold pushWrites
    rw [List.foldl_append]
    rfl

theorem pushWrites_assoc (writes others thirds : List AliasWriteEffect) :
    pushWrites (pushWrites writes others) thirds =
      pushWrites writes (pushWrites others thirds) := by
  induction thirds generalizing others with
  | nil => rfl
  | cons write thirds ih =>
    have hleft : pushWrites (pushWrites writes others) (write :: thirds) =
        pushWrites (pushWrite (pushWrites writes others) write) thirds := rfl
    have hright : pushWrites others (write :: thirds) =
        pushWrites (pushWrite others write) thirds := rfl
    rw [hleft, hright, ← pushWrites_pushWrite, ih]

def joinCaptures (limit : ℕ) (captures others : Map SymbolId AliasValueExpr) :
    Map SymbolId AliasValueExpr :=
  captures.mergeEntries (fun current value => (current.map (·.join value limit)).getD value) others

theorem get_joinCaptures (limit : ℕ) (captures others : Map SymbolId AliasValueExpr)
    (symbol : SymbolId) :
    (joinCaptures limit captures others).get symbol =
      Option.merge (·.join · limit) (captures.get symbol) (others.get symbol) := by
  unfold joinCaptures
  rw [Map.get_mergeEntries]
  cases captures.get symbol <;> cases others.get symbol <;> rfl

def join (summary other : UnitSummary) : UnitSummary where
  unit := summary.unit.or other.unit
  params := joinParams summary.params other.params
  returnAlias := summary.returnAlias.join other.returnAlias summary.maxAliasSetSize
  escaped := summary.escaped ∪ other.escaped
  writes := pushWrites summary.writes other.writes
  captures := joinCaptures summary.maxAliasSetSize summary.captures other.captures
  incomplete := summary.incomplete || other.incomplete
  maxAliasSetSize := summary.maxAliasSetSize

def sameCaptures (captures others : Map SymbolId AliasValueExpr) : Bool :=
  (captures.toList.all fun e => decide (others.get e.1 = some e.2)) &&
    others.toList.all fun e => decide (captures.get e.1 = some e.2)

/-- Structural equality; maps are equal when they have the same entries. -/
def eq (summary other : UnitSummary) : Bool :=
  decide (summary.unit = other.unit) && decide (summary.params = other.params) &&
    decide (summary.returnAlias = other.returnAlias) &&
    decide (summary.escaped = other.escaped) && decide (summary.writes = other.writes) &&
    sameCaptures summary.captures other.captures &&
    decide (summary.incomplete = other.incomplete) &&
    decide (summary.maxAliasSetSize = other.maxAliasSetSize)

def joinAssign (summary other : UnitSummary) : UnitSummary × Bool :=
  (summary.join other, !(summary.join other).eq summary)

def lessEqual (summary other : UnitSummary) : Bool :=
  summary.returnAlias.lessEqual other.returnAlias && decide (summary.escaped ⊆ other.escaped) &&
    (summary.writes.all fun write => decide (write ∈ other.writes)) &&
    (summary.captures.toList.all fun e => (other.captures.get e.1).any e.2.lessEqual) &&
    (!summary.incomplete || other.incomplete)

end

/-- Unions are flat wherever the order looks into one. -/
structure Flat (summary : UnitSummary) : Prop where
  returnAlias : summary.returnAlias.Flat
  captures : ∀ symbol value, summary.captures.get symbol = some value → value.Flat

/-- Equality, which for maps is equality of the entries. -/
structure Same (summary other : UnitSummary) : Prop where
  unit : summary.unit = other.unit
  params : summary.params = other.params
  returnAlias : summary.returnAlias = other.returnAlias
  escaped : summary.escaped = other.escaped
  writes : summary.writes = other.writes
  captures : ∀ symbol, summary.captures.get symbol = other.captures.get symbol
  incomplete : summary.incomplete = other.incomplete
  maxAliasSetSize : summary.maxAliasSetSize = other.maxAliasSetSize

/-- Equality but for the order of the writes. -/
structure SameButOrder (summary other : UnitSummary) : Prop where
  unit : summary.unit = other.unit
  params : summary.params = other.params
  returnAlias : summary.returnAlias = other.returnAlias
  escaped : summary.escaped = other.escaped
  writes : ∀ write, write ∈ summary.writes ↔ write ∈ other.writes
  captures : ∀ symbol, summary.captures.get symbol = other.captures.get symbol
  incomplete : summary.incomplete = other.incomplete
  maxAliasSetSize : summary.maxAliasSetSize = other.maxAliasSetSize

variable [LinearOrder AliasValueExpr] {a b c : UnitSummary}

theorem sameCaptures_iff {captures others : Map SymbolId AliasValueExpr} :
    sameCaptures captures others = true ↔ ∀ symbol, captures.get symbol = others.get symbol := by
  unfold sameCaptures
  simp only [Bool.and_eq_true, List.all_eq_true, decide_eq_true_iff]
  constructor
  · intro ⟨hl, hr⟩ symbol
    cases h : captures.get symbol with
    | some value => exact (hl (symbol, value) (Map.mem_toList.mpr h)).symm
    | none =>
      cases h' : others.get symbol with
      | none => rfl
      | some value =>
        have := hr (symbol, value) (Map.mem_toList.mpr h')
        rw [h] at this
        cases this
  · intro h
    refine ⟨fun e he => ?_, fun e he => ?_⟩
    · rw [← h]
      exact Map.mem_toList.mp he
    · rw [h]
      exact Map.mem_toList.mp he

theorem eq_iff : a.eq b = true ↔ a.Same b := by
  unfold eq
  simp only [Bool.and_eq_true, decide_eq_true_iff, sameCaptures_iff]
  constructor
  · intro ⟨⟨⟨⟨⟨⟨⟨hunit, hparams⟩, hreturn⟩, hescaped⟩, hwrites⟩, hcaptures⟩, hincomplete⟩, hmax⟩
    exact ⟨hunit, hparams, hreturn, hescaped, hwrites, hcaptures, hincomplete, hmax⟩
  · intro ⟨hunit, hparams, hreturn, hescaped, hwrites, hcaptures, hincomplete, hmax⟩
    exact ⟨⟨⟨⟨⟨⟨⟨hunit, hparams⟩, hreturn⟩, hescaped⟩, hwrites⟩, hcaptures⟩, hincomplete⟩, hmax⟩

theorem join_changed_iff (a b : UnitSummary) :
    (a.joinAssign b).2 = true ↔ ¬ (a.joinAssign b).1.Same a := by
  unfold joinAssign
  rw [← eq_iff, Bool.not_eq_true', Bool.not_eq_true]

theorem join_comm (hunit : a.unit = b.unit) (hmax : a.maxAliasSetSize = b.maxAliasSetSize) :
    (a.join b).SameButOrder (b.join a) where
  unit := by
    change a.unit.or b.unit = b.unit.or a.unit
    rw [hunit]
  params := joinParams_comm _ _
  returnAlias := by
    change a.returnAlias.join b.returnAlias a.maxAliasSetSize = _
    rw [AliasValueExpr.join_comm, hmax]
    rfl
  escaped := Finset.union_comm _ _
  writes _ := mem_pushWrites.trans (or_comm.trans mem_pushWrites.symm)
  captures symbol := by
    change (joinCaptures a.maxAliasSetSize a.captures b.captures).get symbol =
      (joinCaptures b.maxAliasSetSize b.captures a.captures).get symbol
    rw [get_joinCaptures, get_joinCaptures, hmax]
    cases a.captures.get symbol <;> cases b.captures.get symbol <;>
      simp [Option.merge, AliasValueExpr.join_comm]
  incomplete := Bool.or_comm _ _
  maxAliasSetSize := hmax

theorem join_assoc (hmax : a.maxAliasSetSize = b.maxAliasSetSize) :
    ((a.join b).join c).Same (a.join (b.join c)) where
  unit := Option.or_assoc
  params := joinParams_assoc _ _ _
  returnAlias := by
    change (a.returnAlias.join b.returnAlias _).join c.returnAlias a.maxAliasSetSize =
      a.returnAlias.join (b.returnAlias.join c.returnAlias b.maxAliasSetSize) a.maxAliasSetSize
    rw [← hmax]
    exact AliasValueExpr.join_assoc _ _ _ _
  escaped := Finset.union_assoc _ _ _
  writes := pushWrites_assoc _ _ _
  captures symbol := by
    change (joinCaptures a.maxAliasSetSize (joinCaptures a.maxAliasSetSize a.captures b.captures)
        c.captures).get symbol =
      (joinCaptures a.maxAliasSetSize a.captures
        (joinCaptures b.maxAliasSetSize b.captures c.captures)).get symbol
    simp only [get_joinCaptures, ← hmax]
    cases a.captures.get symbol <;> cases b.captures.get symbol <;>
      cases c.captures.get symbol <;> simp [Option.merge, AliasValueExpr.join_assoc]
  incomplete := Bool.or_assoc _ _ _
  maxAliasSetSize := rfl

theorem join_self (a : UnitSummary) : (a.join a).Same a where
  unit := by
    change a.unit.or a.unit = a.unit
    cases a.unit <;> rfl
  params := joinParams_self _
  returnAlias := AliasValueExpr.join_self _
  escaped := Finset.union_self _
  writes := pushWrites_of_subset fun _ h => h
  captures symbol := by
    change (joinCaptures a.maxAliasSetSize a.captures a.captures).get symbol = _
    rw [get_joinCaptures]
    cases a.captures.get symbol <;> simp [Option.merge]
  incomplete := Bool.or_self _
  maxAliasSetSize := rfl

theorem lessEqual_iff : a.lessEqual b = true ↔
    a.returnAlias.lessEqual b.returnAlias = true ∧ a.escaped ⊆ b.escaped ∧
    (∀ write ∈ a.writes, write ∈ b.writes) ∧
    (∀ symbol value, a.captures.get symbol = some value →
      ∃ other, b.captures.get symbol = some other ∧ value.lessEqual other = true) ∧
    (a.incomplete = true → b.incomplete = true) := by
  have hcaptures : (a.captures.toList.all fun e => (b.captures.get e.1).any e.2.lessEqual) = true ↔
      ∀ symbol value, a.captures.get symbol = some value →
        ∃ other, b.captures.get symbol = some other ∧ value.lessEqual other = true := by
    rw [List.all_eq_true]
    constructor
    · intro h symbol value hv
      exact (Option.any_eq_true ..).mp (h (symbol, value) (Map.mem_toList.mpr hv))
    · intro h e he
      exact (Option.any_eq_true ..).mpr (h e.1 e.2 (Map.mem_toList.mp he))
  unfold lessEqual
  simp only [Bool.and_eq_true, hcaptures, List.all_eq_true, decide_eq_true_iff, and_assoc]
  refine Iff.of_eq ?_
  congr 4
  cases a.incomplete <;> simp

theorem bottom_lessEqual (a : UnitSummary) : bottom.lessEqual a = true := by
  refine lessEqual_iff.mpr ⟨AliasValueExpr.bottom_lessEqual _, Finset.empty_subset _, ?_, ?_, ?_⟩
  · intro write h
    cases h
  · intro symbol value h
    cases h
  · intro h
    cases h

theorem lessEqual_join_left (ha : a.Flat) (b : UnitSummary) : a.lessEqual (a.join b) = true := by
  refine lessEqual_iff.mpr ⟨AliasValueExpr.lessEqual_join_left ha.returnAlias _ _,
    Finset.subset_union_left, fun _ h => mem_pushWrites.mpr (Or.inl h), fun symbol value h => ?_,
    fun h => Bool.or_eq_true_iff.mpr (Or.inl h)⟩
  have hget := get_joinCaptures a.maxAliasSetSize a.captures b.captures symbol
  rw [h] at hget
  cases hb : b.captures.get symbol with
  | none =>
    rw [hb] at hget
    exact ⟨value, hget, value.lessEqual_refl⟩
  | some other =>
    rw [hb] at hget
    exact ⟨_, hget, AliasValueExpr.lessEqual_join_left (ha.captures symbol value h) _ _⟩

theorem lessEqual_join_right (a : UnitSummary) (hb : b.Flat) : b.lessEqual (a.join b) = true := by
  refine lessEqual_iff.mpr ⟨?_, Finset.subset_union_right,
    fun _ h => mem_pushWrites.mpr (Or.inr h), fun symbol value h => ?_,
    fun h => Bool.or_eq_true_iff.mpr (Or.inr h)⟩
  · change b.returnAlias.lessEqual (a.returnAlias.join b.returnAlias a.maxAliasSetSize) = true
    rw [AliasValueExpr.join_comm]
    exact AliasValueExpr.lessEqual_join_left hb.returnAlias _ _
  · have hget := get_joinCaptures a.maxAliasSetSize a.captures b.captures symbol
    rw [h] at hget
    cases ha : a.captures.get symbol with
    | none =>
      rw [ha] at hget
      exact ⟨value, hget, value.lessEqual_refl⟩
    | some other =>
      rw [ha] at hget
      refine ⟨_, hget, ?_⟩
      dsimp only
      rw [AliasValueExpr.join_comm]
      exact AliasValueExpr.lessEqual_join_left (hb.captures symbol value h) _ _

end UnitSummary

/-- The laws of values under one limit. -/
structure ValueLaws (limit : ℕ) : Prop where
  must : ∀ a, AliasValue.Built a → a.WellFormed
  closed : ∀ a b : AliasValue, a.WellFormed → b.WellFormed →
    (a.joinWithLimit b limit).WellFormed
  comm : ∀ a b : AliasValue, a.WellFormed → b.WellFormed →
    a.joinWithLimit b limit = b.joinWithLimit a limit
  assoc : ∀ a b c : AliasValue, a.WellFormed → b.WellFormed → c.WellFormed →
    (a.joinWithLimit b limit).joinWithLimit c limit =
      a.joinWithLimit (b.joinWithLimit c limit) limit
  idempotent : ∀ a : AliasValue, a.WellFormed → a.may.Within limit → a.joinWithLimit a limit = a
  bottom : ∀ a : AliasValue, a.must = none → AliasValue.bottom.lessEqual a = true
  left : ∀ a b : AliasValue, a.WellFormed → b.WellFormed → ¬ a.Meets b →
    a.lessEqual (a.joinWithLimit b limit) = true
  right : ∀ a b : AliasValue, a.WellFormed → b.WellFormed → ¬ b.Meets a →
    b.lessEqual (a.joinWithLimit b limit) = true
  changed : ∀ a b : AliasValue, (a.joinAssign b limit).2 = true ↔ (a.joinAssign b limit).1 ≠ a

/-- The laws of domains of one configuration. -/
structure DomainLaws (config : AliasPrecisionConfig) : Prop where
  closed : ∀ a b : AliasDomain, a.Valid config → b.Valid config → (a.joinAssign b).1.Valid config
  comm : ∀ a b : AliasDomain, a.Valid config → b.Valid config →
    (a.joinAssign b).1.SameFacts (b.joinAssign a).1
  assoc : ∀ a b c : AliasDomain, a.Valid config → b.Valid config → c.Valid config →
    ((a.joinAssign b).1.joinAssign c).1.SameFacts (a.joinAssign (b.joinAssign c).1).1
  idempotent : ∀ a : AliasDomain, a.Valid config → a.Within config.maxAliasSetSize →
    (a.joinAssign a).1.SameFacts a
  bottom : ∀ a : AliasDomain, a.returnAlias.must = none → a.lastExprAlias.must = none →
    (AliasDomain.new config).lessEqual a = true
  left : ∀ a b : AliasDomain, a.Valid config → b.Valid config → ¬ a.Meets b →
    a.lessEqual (a.joinAssign b).1 = true
  right : ∀ a b : AliasDomain, a.Valid config → b.Valid config → ¬ b.Meets a →
    b.lessEqual (a.joinAssign b).1 = true
  changed : ∀ a b : AliasDomain, (a.joinAssign b).2 = true ↔ ¬ (a.joinAssign b).1.SameReadings a

/-- The laws of value expressions under one limit. -/
structure ExprLaws [LinearOrder AliasValueExpr] (limit : ℕ) : Prop where
  comm : ∀ a b : AliasValueExpr, a.join b limit = b.join a limit
  assoc : ∀ a b c : AliasValueExpr,
    (a.join b limit).join c limit = a.join (b.join c limit) limit
  idempotent : ∀ a : AliasValueExpr, a.join a limit = a
  bottom : ∀ a : AliasValueExpr, AliasValueExpr.lessEqual .bottom a = true
  flat : ∀ a b : AliasValueExpr, a.Flat → b.Flat → (a.join b limit).Flat
  left : ∀ a b : AliasValueExpr, a.Flat → a.lessEqual (a.join b limit) = true
  right : ∀ a b : AliasValueExpr, b.Flat → b.lessEqual (a.join b limit) = true

structure SummaryLaws [LinearOrder AliasValueExpr] : Prop where
  comm : ∀ a b : UnitSummary, a.unit = b.unit → a.maxAliasSetSize = b.maxAliasSetSize →
    (a.join b).SameButOrder (b.join a)
  assoc : ∀ a b c : UnitSummary, a.maxAliasSetSize = b.maxAliasSetSize →
    ((a.join b).join c).Same (a.join (b.join c))
  idempotent : ∀ a : UnitSummary, (a.join a).Same a
  bottom : ∀ a : UnitSummary, UnitSummary.bottom.lessEqual a = true
  left : ∀ a b : UnitSummary, a.Flat → a.lessEqual (a.join b) = true
  right : ∀ a b : UnitSummary, b.Flat → b.lessEqual (a.join b) = true
  changed : ∀ a b : UnitSummary, (a.joinAssign b).2 = true ↔ ¬ (a.joinAssign b).1.Same a

theorem join_laws {limit : ℕ} {config : AliasPrecisionConfig} (hlimit : 1 ≤ limit)
    (hconfig : 1 ≤ config.maxAliasSetSize) :
    ValueLaws limit ∧ DomainLaws config ∧
      ∀ _ : LinearOrder AliasValueExpr, ExprLaws limit ∧ SummaryLaws := by
  refine ⟨?_, ?_, fun _ => ⟨?_, ?_⟩⟩
  · exact {
      must := fun _ h => h.wellFormed
      closed := fun _ _ ha hb => ha.join hlimit hb
      comm := fun _ _ ha hb => AliasValue.join_comm ha hb
      assoc := fun _ _ _ ha hb hc => AliasValue.join_assoc hlimit ha hb hc
      idempotent := fun _ ha hw => AliasValue.join_self hlimit ha hw
      bottom := fun a h => (AliasValue.bottom_lessEqual_iff a).mpr h
      left := fun _ _ ha hb h => AliasValue.lessEqual_join_left ha hb h
      right := fun _ _ ha hb h => AliasValue.lessEqual_join_right ha hb h
      changed := fun _ _ => bne_iff_ne }
  · exact {
      closed := fun _ _ ha hb => ha.join hconfig hb
      comm := fun _ _ ha hb => AliasDomain.join_comm ha hb
      assoc := fun _ _ _ ha hb hc => AliasDomain.join_assoc hconfig ha hb hc
      idempotent := fun _ ha hw => AliasDomain.join_self hconfig ha hw
      bottom := fun a h h' => (AliasDomain.new_lessEqual_iff a).mpr ⟨h, h'⟩
      left := fun _ _ ha hb h => AliasDomain.lessEqual_join_left ha hb h
      right := fun _ _ ha hb h => AliasDomain.lessEqual_join_right ha hb h
      changed := fun a b => by
        rw [← AliasDomain.join_unchanged_iff, Bool.not_eq_false] }
  · exact {
      comm := fun a b => AliasValueExpr.join_comm a b limit
      assoc := fun a b c => AliasValueExpr.join_assoc a b c limit
      idempotent := fun a => AliasValueExpr.join_self a
      bottom := AliasValueExpr.bottom_lessEqual
      flat := fun _ _ ha hb => ha.join hb
      left := fun _ b ha => AliasValueExpr.lessEqual_join_left ha b limit
      right := fun a b hb => by
        rw [AliasValueExpr.join_comm]
        exact AliasValueExpr.lessEqual_join_left hb a limit }
  · exact {
      comm := fun _ _ hunit hmax => UnitSummary.join_comm hunit hmax
      assoc := fun _ _ _ hmax => UnitSummary.join_assoc hmax
      idempotent := UnitSummary.join_self
      bottom := UnitSummary.bottom_lessEqual
      left := fun _ b ha => UnitSummary.lessEqual_join_left ha b
      right := fun a _ hb => UnitSummary.lessEqual_join_right a hb
      changed := UnitSummary.join_changed_iff }

theorem join_laws_balanced :
    ValueLaws 1 ∧ DomainLaws .balanced ∧
      ∀ _ : LinearOrder AliasValueExpr, ExprLaws 1 ∧ SummaryLaws :=
  join_laws (le_refl 1) (by decide)

/-- Bottom is not below a value with a must-place, a set over the limit is not joined to itself, and
a new key with bottom is not reported. -/
theorem join_laws_exceptions :
    AliasValue.bottom.lessEqual (.fromTarget .external) = false ∧
    (∃ a, AliasValue.Built a ∧ a.joinWithLimit a 1 ≠ a) ∧
    ∃ a b : AliasDomain, a.Valid .balanced ∧ b.Valid .balanced ∧ (a.joinAssign b).2 = false ∧
      ¬ (a.joinAssign b).1.SameFacts a := by
  refine ⟨rfl, ?_, ?_⟩
  · let a := (AliasValue.fromTarget .external).joinWithLimit (.fromTarget .unknown) 2
    have ha : a.Built := .join (.fromPlace _) (.fromPlace _) (by decide)
    refine ⟨a, ha, ?_⟩
    decide
  · let a := AliasDomain.new .balanced
    let b : AliasDomain := { a with symbols := Map.insert ∅ 0 .bottom }
    have ha : a.Valid .balanced := AliasDomain.valid_new _
    refine ⟨a, b, ha, { ha with symbols := ?_ }, rfl, fun h => ?_⟩
    · intro k v hv
      rw [Map.get_insert] at hv
      split_ifs at hv
      · cases hv
        exact AliasValue.wellFormed_bottom
      · cases hv
    · have hget := h.symbols 0
      cases hget

end EtasFrontend.Alias
