import EtasFrontend.Alias.Summary
import EtasFrontend.Lib.JoinMap

/-! The order and the join of alias values and of the domains made of them. -/
namespace EtasFrontend.Alias
open Lib

namespace AliasSet

variable {a b c : AliasSet} {limit : ℕ}

theorem join_comm (a b : AliasSet) (limit : ℕ) :
    a.joinWithLimit b limit = b.joinWithLimit a limit := by
  cases a with
  | bottom => cases b <;> rfl
  | unknown => cases b <;> rfl
  | known s =>
    cases b with
    | bottom => rfl
    | unknown => rfl
    | known t => simp only [joinWithLimit, Finset.union_comm]

theorem unknown_join (a : AliasSet) : joinWithLimit .unknown a limit = .unknown := by
  cases a <;> rfl

theorem join_unknown (a : AliasSet) : joinWithLimit a .unknown limit = .unknown := by
  cases a <;> rfl

theorem join_assoc (a b c : AliasSet) (limit : ℕ) :
    (a.joinWithLimit b limit).joinWithLimit c limit =
      a.joinWithLimit (b.joinWithLimit c limit) limit := by
  cases a with
  | bottom => rw [bottom_join, bottom_join]
  | unknown => rw [unknown_join, unknown_join, unknown_join]
  | known s =>
    cases b with
    | bottom => rw [join_bottom, bottom_join]
    | unknown => rw [join_unknown, unknown_join, join_unknown]
    | known t =>
      cases c with
      | bottom => rw [join_bottom, join_bottom]
      | unknown => rw [join_unknown, join_unknown, join_unknown]
      | known u =>
        -- a union of two that is too large makes the union of three too large
        have hleft := Finset.card_le_card
          (Finset.subset_union_left : s ∪ t ⊆ s ∪ t ∪ u)
        have hright := Finset.card_le_card
          (Finset.union_subset_union_left Finset.subset_union_right : t ∪ u ⊆ s ∪ t ∪ u)
        simp only [joinWithLimit]
        by_cases hst : limit < (s ∪ t).card
        · have hall : limit < (s ∪ t ∪ u).card := by omega
          by_cases htu : limit < (t ∪ u).card
          · rw [if_pos hst, if_pos htu]
          · rw [if_pos hst, if_neg htu]
            dsimp only
            rw [← Finset.union_assoc, if_pos hall]
        · by_cases htu : limit < (t ∪ u).card
          · have hall : limit < (s ∪ t ∪ u).card := by omega
            rw [if_neg hst, if_pos htu]
            dsimp only
            rw [if_pos hall]
          · rw [if_neg hst, if_neg htu]
            dsimp only
            rw [Finset.union_assoc]

theorem join_self (ha : a.Within limit) : a.joinWithLimit a limit = a := by
  cases a with
  | bottom => rfl
  | unknown => rfl
  | known s =>
    simp only [joinWithLimit, Finset.union_self]
    exact if_neg (Nat.not_lt.mpr ha)

theorem join_eq_bottom_iff : a.joinWithLimit b limit = .bottom ↔ a = .bottom ∧ b = .bottom := by
  cases a with
  | bottom => simp
  | unknown => simp [unknown_join]
  | known s =>
    cases b with
    | bottom => simp
    | unknown => simp [join_unknown]
    | known t =>
      rw [joinWithLimit]
      split_ifs <;> simp

end AliasSet

namespace AliasValue

/-- The order as it is declared: a must-place is compared on its own. -/
def lessEqual (value other : AliasValue) : Bool :=
  value.may.lessEqual other.may &&
    match value.must, other.must with
    | _, none => true
    | some left, some right => left == right
    | none, some _ => false

/-- `join_with_limit` with its answer. -/
def joinAssign (value other : AliasValue) (limit : ℕ) : AliasValue × Bool :=
  let next := value.joinWithLimit other limit
  (next, next != value)

/-- A must-place is the one place of the may-set. -/
def WellFormed (value : AliasValue) : Prop :=
  ∀ place, value.must = some place → value.may = .known {place}

/-- The values that the operations of the analysis make. -/
inductive Built : AliasValue → Prop
  | bottom : Built .bottom
  | unknown : Built .unknown
  | fromPlace (place : Place) : Built (.fromPlace place)
  | project {value : AliasValue} (h : Built value) (projection : Projection)
      (config : AliasPrecisionConfig) : Built (value.project projection config)
  | join {value other : AliasValue} (h : Built value) (h' : Built other) {limit : ℕ}
      (hlimit : 1 ≤ limit) : Built (value.joinWithLimit other limit)

variable {a b c : AliasValue} {limit : ℕ}

theorem wellFormed_bottom : bottom.WellFormed := by
  intro place h
  cases h

theorem WellFormed.eq_fromPlace (ha : a.WellFormed) {place : Place} (h : a.must = some place) :
    a = fromPlace place := by
  obtain ⟨may, must⟩ := a
  have hmay := ha place h
  cases h
  cases hmay
  rfl

theorem WellFormed.eq_bottom (ha : a.WellFormed) (h : a.may = .bottom) : a = bottom := by
  obtain ⟨may, must⟩ := a
  cases h
  cases must with
  | none => rfl
  | some place => cases ha place rfl

@[simp] theorem bottom_join (a : AliasValue) : bottom.joinWithLimit a limit = a := by
  obtain ⟨may, must⟩ := a
  cases may <;> rfl

theorem WellFormed.join_bottom (ha : a.WellFormed) : a.joinWithLimit bottom limit = a := by
  cases hmay : a.may with
  | bottom => rw [ha.eq_bottom hmay, bottom_join]
  | known s =>
    obtain ⟨may, must⟩ := a
    cases hmay
    rfl
  | unknown =>
    obtain ⟨may, must⟩ := a
    cases hmay
    rfl

theorem fromPlace_join_self (hlimit : 1 ≤ limit) (place : Place) :
    (fromPlace place).joinWithLimit (fromPlace place) limit = fromPlace place := by
  simp only [joinWithLimit, fromPlace, AliasSet.joinWithLimit, Finset.union_self,
    Finset.card_singleton, if_true]
  rw [if_neg (Nat.not_lt.mpr hlimit)]

/-- The value denotes the place or nothing at all. -/
def AtMost (value : AliasValue) (place : Place) : Prop := value = fromPlace place ∨ value = bottom

theorem must_join_iff (ha : a.WellFormed) (hb : b.WellFormed) (place : Place) :
    (a.joinWithLimit b limit).must = some place ↔
      a.AtMost place ∧ b.AtMost place ∧ ¬ (a = bottom ∧ b = bottom) := by
  have hne : fromPlace place ≠ bottom := by
    intro h
    cases congrArg must h
  constructor
  · intro h
    by_cases habot : a = bottom
    · rw [habot, bottom_join] at h
      have hb' := hb.eq_fromPlace h
      exact ⟨Or.inr habot, Or.inl hb', fun ⟨_, hbbot⟩ => hne (hb' ▸ hbbot)⟩
    by_cases hbbot : b = bottom
    · rw [hbbot, ha.join_bottom] at h
      exact ⟨Or.inl (ha.eq_fromPlace h), Or.inr hbbot, fun ⟨h, _⟩ => habot h⟩
    have hma : a.must = some place ∧ b.must = some place := by
      have hamay : a.may ≠ .bottom := fun h => habot (ha.eq_bottom h)
      have hbmay : b.may ≠ .bottom := fun h => hbbot (hb.eq_bottom h)
      unfold joinWithLimit at h
      dsimp only at h
      split at h
      · next hx => exact absurd hx hamay
      · next hx _ => exact absurd hx hbmay
      · cases h
      · cases h
      · next hl hr _ _ _ _ =>
        split_ifs at h with he
        rw [hl, hr, ← he]
        exact ⟨h, h⟩
      · cases h
    exact ⟨Or.inl (ha.eq_fromPlace hma.1), Or.inl (hb.eq_fromPlace hma.2), fun ⟨h, _⟩ => habot h⟩
  · rintro ⟨ha' | ha', hb' | hb', hnot⟩
    · rw [ha', hb']
      simp [joinWithLimit, fromPlace]
    · rw [ha', hb']
      rfl
    · rw [ha', bottom_join, hb']
      rfl
    · exact absurd ⟨ha', hb'⟩ hnot

theorem join_eq_bottom_iff (ha : a.WellFormed) (hb : b.WellFormed) :
    a.joinWithLimit b limit = bottom ↔ a = bottom ∧ b = bottom := by
  constructor
  · intro h
    have hmay := AliasSet.join_eq_bottom_iff.mp (congrArg may h)
    exact ⟨ha.eq_bottom hmay.1, hb.eq_bottom hmay.2⟩
  · rintro ⟨rfl, rfl⟩
    rfl

theorem WellFormed.join (hlimit : 1 ≤ limit) (ha : a.WellFormed) (hb : b.WellFormed) :
    (a.joinWithLimit b limit).WellFormed := by
  intro place h
  obtain ⟨ha' | ha', hb' | hb', hnot⟩ := (must_join_iff ha hb place).mp h
  · rw [ha', hb', fromPlace_join_self hlimit]
    rfl
  · rw [ha', hb']
    rfl
  · rw [ha', hb', bottom_join]
    rfl
  · exact absurd ⟨ha', hb'⟩ hnot

theorem WellFormed.project (ha : a.WellFormed) (projection : Projection)
    (config : AliasPrecisionConfig) : (a.project projection config).WellFormed := by
  intro place h
  unfold AliasValue.project at h ⊢
  cases hmay : a.may with
  | bottom =>
    rw [hmay] at h
    cases h
  | unknown =>
    rw [hmay] at h
    cases h
  | known places =>
    rw [hmay] at h
    dsimp only at h ⊢
    split_ifs at h ⊢ with hdeep hcard
    · cases h
    · cases h
    · obtain ⟨old, hold, hproject⟩ := Option.bind_eq_some_iff.mp h
      have hone := hmay.symm.trans (ha old hold)
      cases hone
      unfold Place.project at hproject
      split_ifs at hproject
      cases hproject
      simp

theorem Built.wellFormed (h : Built a) : a.WellFormed := by
  induction h with
  | bottom => exact wellFormed_bottom
  | unknown =>
    intro place h
    cases h
  | fromPlace place =>
    intro place' h
    cases h
    rfl
  | project _ projection config ih => exact ih.project projection config
  | join _ _ hlimit ih ih' => exact ih.join hlimit ih'

theorem join_comm (ha : a.WellFormed) (hb : b.WellFormed) :
    a.joinWithLimit b limit = b.joinWithLimit a limit := by
  have hmust : (a.joinWithLimit b limit).must = (b.joinWithLimit a limit).must := by
    ext place
    rw [must_join_iff ha hb, must_join_iff hb ha]
    tauto
  have hmay := AliasSet.join_comm a.may b.may limit
  exact congrArg₂ AliasValue.mk hmay hmust

theorem atMost_join_iff (hlimit : 1 ≤ limit) (ha : a.WellFormed) (hb : b.WellFormed)
    (place : Place) : (a.joinWithLimit b limit).AtMost place ↔ a.AtMost place ∧ b.AtMost place := by
  have hfrom : a.joinWithLimit b limit = fromPlace place ↔
      (a.joinWithLimit b limit).must = some place := by
    constructor
    · intro h
      rw [h]
      rfl
    · exact (ha.join hlimit hb).eq_fromPlace
  rw [AtMost, hfrom, must_join_iff ha hb, join_eq_bottom_iff ha hb]
  constructor
  · rintro (⟨ha', hb', -⟩ | ⟨ha', hb'⟩)
    · exact ⟨ha', hb'⟩
    · exact ⟨Or.inr ha', Or.inr hb'⟩
  · intro ⟨ha', hb'⟩
    by_cases hbot : a = bottom ∧ b = bottom
    · exact Or.inr hbot
    · exact Or.inl ⟨ha', hb', hbot⟩

theorem join_assoc (hlimit : 1 ≤ limit) (ha : a.WellFormed) (hb : b.WellFormed)
    (hc : c.WellFormed) :
    (a.joinWithLimit b limit).joinWithLimit c limit =
      a.joinWithLimit (b.joinWithLimit c limit) limit := by
  have hab := ha.join hlimit hb
  have hbc := hb.join hlimit hc
  have hmust : ((a.joinWithLimit b limit).joinWithLimit c limit).must =
      (a.joinWithLimit (b.joinWithLimit c limit) limit).must := by
    ext place
    rw [must_join_iff hab hc, must_join_iff ha hbc,
      atMost_join_iff hlimit ha hb, atMost_join_iff hlimit hb hc, join_eq_bottom_iff ha hb,
      join_eq_bottom_iff hb hc, and_assoc, and_assoc, and_assoc]
  have hmay := AliasSet.join_assoc a.may b.may c.may limit
  exact congrArg₂ AliasValue.mk hmay hmust

theorem join_self (hlimit : 1 ≤ limit) (ha : a.WellFormed) (hw : a.may.Within limit) :
    a.joinWithLimit a limit = a := by
  cases hmust : a.must with
  | some place => rw [ha.eq_fromPlace hmust, fromPlace_join_self hlimit]
  | none =>
    have hmust' : (a.joinWithLimit a limit).must = none := by
      by_contra hne
      obtain ⟨place, hplace⟩ := Option.ne_none_iff_exists'.mp hne
      obtain ⟨ha' | ha', -, hnot⟩ := (must_join_iff ha ha place).mp hplace
      · rw [ha'] at hmust
        cases hmust
      · exact hnot ⟨ha', ha'⟩
    have hmay := AliasSet.join_self hw
    calc a.joinWithLimit a limit = ⟨(a.joinWithLimit a limit).may, none⟩ := by rw [← hmust']
      _ = ⟨a.may, none⟩ := by rw [joinWithLimit_may, hmay]
      _ = a := by rw [← hmust]

/-! The order. The must-place of a join is that of every side that is not bottom. -/

theorem lessEqual_iff : a.lessEqual b = true ↔
    a.may ≤ b.may ∧ ∀ place, b.must = some place → a.must = some place := by
  unfold lessEqual
  rw [Bool.and_eq_true]
  refine and_congr Iff.rfl ?_
  cases hb : b.must with
  | none => simp
  | some right =>
    cases ha : a.must with
    | none => simp
    | some left => simp

theorem lessEqual_refl (a : AliasValue) : a.lessEqual a = true :=
  lessEqual_iff.mpr ⟨le_refl _, fun _ h => h⟩

theorem lessEqual_trans (hab : a.lessEqual b = true) (hbc : b.lessEqual c = true) :
    a.lessEqual c = true := by
  obtain ⟨hmay, hmust⟩ := lessEqual_iff.mp hab
  obtain ⟨hmay', hmust'⟩ := lessEqual_iff.mp hbc
  exact lessEqual_iff.mpr ⟨hmay.trans hmay', fun place h => hmust place (hmust' place h)⟩

theorem isUnknown_iff (a : AliasValue) : a.isUnknown = true ↔ a.may = .unknown := by
  unfold isUnknown
  cases a.may <;> simp

theorem isUnknown_of_lessEqual (h : a.lessEqual b = true) (ha : a.isUnknown = true) :
    b.isUnknown = true := by
  have hmay := (lessEqual_iff.mp h).1
  rw [(isUnknown_iff a).mp ha, AliasSet.unknown_le_iff] at hmay
  exact (isUnknown_iff b).mpr hmay

theorem bottom_lessEqual_iff (a : AliasValue) : bottom.lessEqual a = true ↔ a.must = none := by
  rw [lessEqual_iff]
  constructor
  · intro ⟨_, h⟩
    by_contra hne
    obtain ⟨place, hplace⟩ := Option.ne_none_iff_exists'.mp hne
    cases h place hplace
  · intro h
    refine ⟨AliasSet.bottom_le _, fun place hplace => ?_⟩
    rw [h] at hplace
    cases hplace

/-- Bottom on the one side meets a must-place on the other. -/
def Meets (value other : AliasValue) : Prop := value = bottom ∧ other.must ≠ none

theorem lessEqual_join_left (ha : a.WellFormed) (hb : b.WellFormed) (h : ¬ a.Meets b) :
    a.lessEqual (a.joinWithLimit b limit) = true := by
  refine lessEqual_iff.mpr ⟨AliasSet.le_join_left _ _ _, fun place hplace => ?_⟩
  obtain ⟨ha' | ha', hb' | hb', hnot⟩ := (must_join_iff ha hb place).mp hplace
  · rw [ha']
    rfl
  · rw [ha']
    rfl
  · have hmeets : a.Meets b := ⟨ha', by simp [hb', fromPlace]⟩
    exact absurd hmeets h
  · exact absurd ⟨ha', hb'⟩ hnot

theorem lessEqual_join_right (ha : a.WellFormed) (hb : b.WellFormed) (h : ¬ b.Meets a) :
    b.lessEqual (a.joinWithLimit b limit) = true := by
  rw [join_comm ha hb]
  exact lessEqual_join_left hb ha h

end AliasValue

section
variable {κ : Type} [DecidableEq κ]

def joinMap (limit : ℕ) (left right : Map κ AliasValue) : Map κ AliasValue × Bool :=
  Map.joinEntries (fun value other => value.joinWithLimit other limit) .bottom left right

def mapLessEqual (left right : Map κ AliasValue) : Bool :=
  left.toList.all fun e => (right.get e.1).any e.2.lessEqual

def MapWellFormed (m : Map κ AliasValue) : Prop := ∀ k v, m.get k = some v → v.WellFormed

def MapWithin (limit : ℕ) (m : Map κ AliasValue) : Prop :=
  ∀ k v, m.get k = some v → v.may.Within limit

/-- A key has bottom in `left` and a must-place in `right`. -/
def MapMeets (left right : Map κ AliasValue) : Prop :=
  ∃ k v w, left.get k = some v ∧ right.get k = some w ∧ v.Meets w

variable {left middle right : Map κ AliasValue} {limit : ℕ}

theorem get_joinMap (left right : Map κ AliasValue) (k : κ) :
    ((joinMap limit left right).1.get k) =
      match right.get k with
      | some v => some (((left.get k).getD .bottom).joinWithLimit v limit)
      | none => left.get k := by
  unfold joinMap
  rw [Map.get_joinEntries]
  cases right.get k <;> rfl

theorem MapWellFormed.getD (hl : MapWellFormed left) (k : κ) :
    ((left.get k).getD .bottom).WellFormed := by
  cases h : left.get k with
  | none => exact AliasValue.wellFormed_bottom
  | some v => exact hl k v h

theorem MapWellFormed.join (hlimit : 1 ≤ limit) (hl : MapWellFormed left)
    (hr : MapWellFormed right) : MapWellFormed (joinMap limit left right).1 := by
  intro k v hv
  rw [get_joinMap] at hv
  cases h : right.get k with
  | none =>
    rw [h] at hv
    exact hl k v hv
  | some w =>
    rw [h] at hv
    cases hv
    exact (hl.getD k).join hlimit (hr k w h)

theorem joinMap_comm (hl : MapWellFormed left) (hr : MapWellFormed right) (k : κ) :
    (joinMap limit left right).1.get k = (joinMap limit right left).1.get k := by
  rw [get_joinMap, get_joinMap]
  cases h : left.get k with
  | none => cases right.get k <;> simp
  | some v =>
    cases h' : right.get k with
    | none => simp
    | some w => exact congrArg some (AliasValue.join_comm (hl k v h) (hr k w h'))

theorem joinMap_assoc (hlimit : 1 ≤ limit) (hl : MapWellFormed left) (hm : MapWellFormed middle)
    (hr : MapWellFormed right) (k : κ) :
    (joinMap limit (joinMap limit left middle).1 right).1.get k =
      (joinMap limit left (joinMap limit middle right).1).1.get k := by
  simp only [get_joinMap]
  cases h' : right.get k with
  | none => rfl
  | some w =>
    cases hmid : middle.get k with
    | none => simp
    | some v =>
      have hassoc := AliasValue.join_assoc hlimit (hl.getD k) (hm k v hmid) (hr k w h')
      exact congrArg some hassoc

theorem joinMap_self (hlimit : 1 ≤ limit) (hl : MapWellFormed left) (hw : MapWithin limit left)
    (k : κ) : (joinMap limit left left).1.get k = left.get k := by
  rw [get_joinMap]
  cases h : left.get k with
  | none => rfl
  | some v => exact congrArg some (AliasValue.join_self hlimit (hl k v h) (hw k v h))

theorem mapLessEqual_iff : mapLessEqual left right = true ↔
    ∀ k v, left.get k = some v → ∃ w, right.get k = some w ∧ v.lessEqual w = true := by
  unfold mapLessEqual
  rw [List.all_eq_true]
  constructor
  · intro h k v hv
    exact (Option.any_eq_true ..).mp (h (k, v) (Map.mem_toList.mpr hv))
  · intro h e he
    exact (Option.any_eq_true ..).mpr (h e.1 e.2 (Map.mem_toList.mp he))

theorem lessEqual_joinMap_left (hl : MapWellFormed left) (hr : MapWellFormed right)
    (h : ¬ MapMeets left right) : mapLessEqual left (joinMap limit left right).1 = true := by
  refine mapLessEqual_iff.mpr fun k v hv => ?_
  rw [get_joinMap, hv]
  cases hw : right.get k with
  | none => exact ⟨v, rfl, v.lessEqual_refl⟩
  | some w =>
    have hmeets : ¬ v.Meets w := fun hm => h ⟨k, v, w, hv, hw, hm⟩
    exact ⟨_, rfl, AliasValue.lessEqual_join_left (hl k v hv) (hr k w hw) hmeets⟩

theorem lessEqual_joinMap_right (hl : MapWellFormed left) (hr : MapWellFormed right)
    (h : ¬ MapMeets right left) : mapLessEqual right (joinMap limit left right).1 = true := by
  have hle : mapLessEqual right (joinMap limit right left).1 = true :=
    lessEqual_joinMap_left hr hl h
  refine mapLessEqual_iff.mpr fun k v hv => ?_
  rw [joinMap_comm hl hr]
  exact mapLessEqual_iff.mp hle k v hv

theorem joinMap_unchanged_iff : (joinMap limit left right).2 = false ↔
    ∀ k, ((joinMap limit left right).1.get k).getD .bottom = (left.get k).getD .bottom :=
  Map.joinEntries_unchanged_iff ..

end

namespace AliasDomain

/-- `bottom()` of the domain. -/
def new (config : AliasPrecisionConfig) : AliasDomain where
  unit := none
  symbols := ∅
  exprs := ∅
  heap := ∅
  escaped := ∅
  returnAlias := .bottom
  lastExprAlias := .bottom
  incomplete := false
  config := config

def lessEqual (state other : AliasDomain) : Bool :=
  mapLessEqual state.symbols other.symbols && mapLessEqual state.exprs other.exprs &&
    mapLessEqual state.heap other.heap && decide (state.escaped ⊆ other.escaped) &&
    state.returnAlias.lessEqual other.returnAlias &&
    state.lastExprAlias.lessEqual other.lastExprAlias && (!state.incomplete || other.incomplete)

/-- The unit and the configuration stay those of `state`, and so does the context, which nothing
else here reads. -/
def joinAssign (state other : AliasDomain) : AliasDomain × Bool :=
  let limit := max state.config.maxAliasSetSize other.config.maxAliasSetSize
  let symbols := joinMap limit state.symbols other.symbols
  let exprs := joinMap limit state.exprs other.exprs
  let heap := joinMap limit state.heap other.heap
  let escaped := state.escaped ∪ other.escaped
  let returnAlias := state.returnAlias.joinAssign other.returnAlias limit
  let lastExprAlias := state.lastExprAlias.joinAssign other.lastExprAlias limit
  let incomplete := state.incomplete || other.incomplete
  ({ state with
      symbols := symbols.1
      exprs := exprs.1
      heap := heap.1
      escaped := escaped
      returnAlias := returnAlias.1
      lastExprAlias := lastExprAlias.1
      incomplete := incomplete },
    symbols.2 || exprs.2 || heap.2 || escaped.card != state.escaped.card || returnAlias.2 ||
      lastExprAlias.2 || incomplete != state.incomplete)

/-- A domain of an analysis with the given configuration. -/
structure Valid (config : AliasPrecisionConfig) (state : AliasDomain) : Prop where
  config : state.config = config
  symbols : MapWellFormed state.symbols
  exprs : MapWellFormed state.exprs
  heap : MapWellFormed state.heap
  returnAlias : state.returnAlias.WellFormed
  lastExprAlias : state.lastExprAlias.WellFormed

/-- No set is larger than the limit. -/
structure Within (limit : ℕ) (state : AliasDomain) : Prop where
  symbols : MapWithin limit state.symbols
  exprs : MapWithin limit state.exprs
  heap : MapWithin limit state.heap
  returnAlias : state.returnAlias.may.Within limit
  lastExprAlias : state.lastExprAlias.may.Within limit

/-- Bottom in `state` meets a must-place in `other`. -/
def Meets (state other : AliasDomain) : Prop :=
  MapMeets state.symbols other.symbols ∨ MapMeets state.exprs other.exprs ∨
    MapMeets state.heap other.heap ∨ state.returnAlias.Meets other.returnAlias ∨
    state.lastExprAlias.Meets other.lastExprAlias

/-- Equal but for the unit and the configuration. -/
structure SameFacts (state other : AliasDomain) : Prop where
  symbols : ∀ k, state.symbols.get k = other.symbols.get k
  exprs : ∀ k, state.exprs.get k = other.exprs.get k
  heap : ∀ k, state.heap.get k = other.heap.get k
  escaped : state.escaped = other.escaped
  returnAlias : state.returnAlias = other.returnAlias
  lastExprAlias : state.lastExprAlias = other.lastExprAlias
  incomplete : state.incomplete = other.incomplete

/-- Equal for every reader, who takes a missing entry for bottom. -/
structure SameReadings (state other : AliasDomain) : Prop where
  symbols : ∀ k, (state.symbols.get k).getD .bottom = (other.symbols.get k).getD .bottom
  exprs : ∀ k, (state.exprs.get k).getD .bottom = (other.exprs.get k).getD .bottom
  heap : ∀ k, (state.heap.get k).getD .bottom = (other.heap.get k).getD .bottom
  escaped : state.escaped = other.escaped
  returnAlias : state.returnAlias = other.returnAlias
  lastExprAlias : state.lastExprAlias = other.lastExprAlias
  incomplete : state.incomplete = other.incomplete

variable {config : AliasPrecisionConfig} {a b c : AliasDomain}

theorem valid_new (config : AliasPrecisionConfig) : (new config).Valid config := by
  have hempty : ∀ {κ : Type} [DecidableEq κ], MapWellFormed (∅ : Map κ AliasValue) := by
    intro κ _ k v h
    cases h
  exact ⟨rfl, hempty, hempty, hempty, AliasValue.wellFormed_bottom, AliasValue.wellFormed_bottom⟩

theorem Valid.join (hlimit : 1 ≤ config.maxAliasSetSize) (ha : a.Valid config)
    (hb : b.Valid config) : (a.joinAssign b).1.Valid config := by
  have hmax : 1 ≤ max a.config.maxAliasSetSize b.config.maxAliasSetSize := by
    rw [ha.config]
    omega
  exact {
    config := ha.config
    symbols := ha.symbols.join hmax hb.symbols
    exprs := ha.exprs.join hmax hb.exprs
    heap := ha.heap.join hmax hb.heap
    returnAlias := ha.returnAlias.join hmax hb.returnAlias
    lastExprAlias := ha.lastExprAlias.join hmax hb.lastExprAlias }

theorem join_comm (ha : a.Valid config) (hb : b.Valid config) :
    (a.joinAssign b).1.SameFacts (b.joinAssign a).1 := by
  have hmax : max a.config.maxAliasSetSize b.config.maxAliasSetSize =
      max b.config.maxAliasSetSize a.config.maxAliasSetSize := max_comm _ _
  unfold joinAssign
  rw [hmax]
  exact {
    symbols := joinMap_comm ha.symbols hb.symbols
    exprs := joinMap_comm ha.exprs hb.exprs
    heap := joinMap_comm ha.heap hb.heap
    escaped := Finset.union_comm _ _
    returnAlias := AliasValue.join_comm ha.returnAlias hb.returnAlias
    lastExprAlias := AliasValue.join_comm ha.lastExprAlias hb.lastExprAlias
    incomplete := Bool.or_comm _ _ }

theorem join_assoc (hlimit : 1 ≤ config.maxAliasSetSize) (ha : a.Valid config)
    (hb : b.Valid config) (hc : c.Valid config) :
    ((a.joinAssign b).1.joinAssign c).1.SameFacts (a.joinAssign (b.joinAssign c).1).1 := by
  have hab := (ha.join hlimit hb).config
  have hbc := (hb.join hlimit hc).config
  unfold joinAssign at hab hbc ⊢
  dsimp only at hab hbc ⊢
  rw [ha.config, hb.config, hc.config, max_self]
  exact {
    symbols := joinMap_assoc hlimit ha.symbols hb.symbols hc.symbols
    exprs := joinMap_assoc hlimit ha.exprs hb.exprs hc.exprs
    heap := joinMap_assoc hlimit ha.heap hb.heap hc.heap
    escaped := Finset.union_assoc _ _ _
    returnAlias := AliasValue.join_assoc hlimit ha.returnAlias hb.returnAlias hc.returnAlias
    lastExprAlias :=
      AliasValue.join_assoc hlimit ha.lastExprAlias hb.lastExprAlias hc.lastExprAlias
    incomplete := Bool.or_assoc _ _ _ }

theorem join_self (hlimit : 1 ≤ config.maxAliasSetSize) (ha : a.Valid config)
    (hw : a.Within config.maxAliasSetSize) : (a.joinAssign a).1.SameFacts a := by
  unfold joinAssign
  dsimp only
  rw [ha.config, max_self]
  exact {
    symbols := joinMap_self hlimit ha.symbols hw.symbols
    exprs := joinMap_self hlimit ha.exprs hw.exprs
    heap := joinMap_self hlimit ha.heap hw.heap
    escaped := Finset.union_self _
    returnAlias := AliasValue.join_self hlimit ha.returnAlias hw.returnAlias
    lastExprAlias := AliasValue.join_self hlimit ha.lastExprAlias hw.lastExprAlias
    incomplete := Bool.or_self _ }

theorem lessEqual_iff : a.lessEqual b = true ↔
    mapLessEqual a.symbols b.symbols = true ∧ mapLessEqual a.exprs b.exprs = true ∧
    mapLessEqual a.heap b.heap = true ∧ a.escaped ⊆ b.escaped ∧
    a.returnAlias.lessEqual b.returnAlias = true ∧
    a.lastExprAlias.lessEqual b.lastExprAlias = true ∧
    (a.incomplete = true → b.incomplete = true) := by
  unfold lessEqual
  simp only [Bool.and_eq_true, decide_eq_true_iff, and_assoc]
  refine Iff.of_eq ?_
  congr 6
  cases a.incomplete <;> simp

theorem new_lessEqual_iff (a : AliasDomain) : (new config).lessEqual a = true ↔
    a.returnAlias.must = none ∧ a.lastExprAlias.must = none := by
  rw [lessEqual_iff]
  simp only [new, AliasValue.bottom_lessEqual_iff]
  simp [mapLessEqual, Map.toList]

theorem lessEqual_join_left (ha : a.Valid config) (hb : b.Valid config) (h : ¬ a.Meets b) :
    a.lessEqual (a.joinAssign b).1 = true := by
  unfold Meets at h
  simp only [not_or] at h
  obtain ⟨hsymbols, hexprs, hheap, hreturn, hlast⟩ := h
  exact lessEqual_iff.mpr ⟨lessEqual_joinMap_left ha.symbols hb.symbols hsymbols,
    lessEqual_joinMap_left ha.exprs hb.exprs hexprs,
    lessEqual_joinMap_left ha.heap hb.heap hheap, Finset.subset_union_left,
    AliasValue.lessEqual_join_left ha.returnAlias hb.returnAlias hreturn,
    AliasValue.lessEqual_join_left ha.lastExprAlias hb.lastExprAlias hlast,
    fun hi => Bool.or_eq_true_iff.mpr (Or.inl hi)⟩

theorem lessEqual_join_right (ha : a.Valid config) (hb : b.Valid config) (h : ¬ b.Meets a) :
    b.lessEqual (a.joinAssign b).1 = true := by
  unfold Meets at h
  simp only [not_or] at h
  obtain ⟨hsymbols, hexprs, hheap, hreturn, hlast⟩ := h
  exact lessEqual_iff.mpr ⟨lessEqual_joinMap_right ha.symbols hb.symbols hsymbols,
    lessEqual_joinMap_right ha.exprs hb.exprs hexprs,
    lessEqual_joinMap_right ha.heap hb.heap hheap, Finset.subset_union_right,
    AliasValue.lessEqual_join_right ha.returnAlias hb.returnAlias hreturn,
    AliasValue.lessEqual_join_right ha.lastExprAlias hb.lastExprAlias hlast,
    fun hi => Bool.or_eq_true_iff.mpr (Or.inr hi)⟩

private theorem card_union_eq_iff {α : Type} [DecidableEq α] (s t : Finset α) :
    (s ∪ t).card = s.card ↔ s ∪ t = s := by
  constructor
  · intro h
    exact (Finset.eq_of_subset_of_card_le Finset.subset_union_left h.le).symm
  · intro h
    rw [h]

theorem join_unchanged_iff (a b : AliasDomain) :
    (a.joinAssign b).2 = false ↔ (a.joinAssign b).1.SameReadings a := by
  unfold joinAssign AliasValue.joinAssign
  simp only [Bool.or_eq_false_iff, joinMap_unchanged_iff, bne_eq_false_iff_eq, card_union_eq_iff]
  constructor
  · intro ⟨⟨⟨⟨⟨⟨hsymbols, hexprs⟩, hheap⟩, hescaped⟩, hreturn⟩, hlast⟩, hincomplete⟩
    exact ⟨hsymbols, hexprs, hheap, hescaped, hreturn, hlast, hincomplete⟩
  · intro ⟨hsymbols, hexprs, hheap, hescaped, hreturn, hlast, hincomplete⟩
    exact ⟨⟨⟨⟨⟨⟨hsymbols, hexprs⟩, hheap⟩, hescaped⟩, hreturn⟩, hlast⟩, hincomplete⟩

end AliasDomain
end EtasFrontend.Alias
