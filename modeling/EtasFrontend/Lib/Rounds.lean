import Mathlib.Data.List.Basic
import Mathlib.Order.Nat

/-! Values that spread through a graph in rounds. The first value to reach a node stays. -/
namespace EtasFrontend.Lib
universe u v

section
variable {α : Type u} {β : Type v}

theorem findSome?_filterMap {γ : Type*} (f : α → Option γ) (g : γ → Option β) (l : List α) :
    (l.filterMap f).findSome? g = l.findSome? fun a => (f a).bind g := by
  induction l with
  | nil => rfl
  | cons a l ih =>
    rw [List.filterMap_cons, List.findSome?_cons]
    cases hf : f a with
    | none => exact ih
    | some c =>
      dsimp only
      rw [List.findSome?_cons, Option.bind_some, ih]

theorem findSome?_flatMap {γ : Type*} (f : α → List γ) (g : γ → Option β) (l : List α) :
    (l.flatMap f).findSome? g = l.findSome? fun a => (f a).findSome? g := by
  induction l with
  | nil => rfl
  | cons a l ih =>
    rw [List.flatMap_cons, List.findSome?_append, List.findSome?_cons, ih]
    cases (f a).findSome? g <;> rfl

theorem findSome?_congr_mem {f g : α → Option β} {l : List α} (h : ∀ a ∈ l, f a = g a) :
    l.findSome? f = l.findSome? g := by
  induction l with
  | nil => rfl
  | cons a l ih =>
    rw [List.findSome?_cons, List.findSome?_cons, h a List.mem_cons_self]
    cases g a with
    | none => exact ih fun b hb => h b (List.mem_cons_of_mem _ hb)
    | some b => rfl

end

/-- A node without a value of its own takes that of a preferred source, or else of another one. -/
structure Spread (ν : Type u) (τ : Type v) where
  own : ν → Option τ
  preferred : ν → List ν
  others : ν → List ν

namespace Spread
variable {ν : Type u} {τ : Type v} (graph : Spread ν τ)

def round (values : ν → Option τ) (node : ν) : Option τ :=
  (values node).or
    (((graph.preferred node).findSome? values).or ((graph.others node).findSome? values))

def after : ℕ → ν → Option τ
  | 0 => graph.own
  | k + 1 => graph.round (after k)

/-- A value that reaches a node in a number of steps. -/
inductive Chain : ℕ → ν → τ → Prop
  | own {node : ν} {value : τ} : graph.own node = some value → Chain 0 node value
  | preferred {k : ℕ} {node source : ν} {value : τ} : graph.own node = none →
    source ∈ graph.preferred node → Chain k source value → Chain (k + 1) node value
  | other {k : ℕ} {node source : ν} {value : τ} : graph.own node = none →
    source ∈ graph.others node → Chain k source value → Chain (k + 1) node value

/-- A chain whose last step is from a preferred source. -/
def PreferredChain (k : ℕ) (node : ν) (value : τ) : Prop :=
  graph.own node = none ∧ ∃ source ∈ graph.preferred node, ∃ j, j + 1 = k ∧
    graph.Chain j source value

def OtherChain (k : ℕ) (node : ν) (value : τ) : Prop :=
  graph.own node = none ∧ ∃ source ∈ graph.others node, ∃ j, j + 1 = k ∧
    graph.Chain j source value

/-- Values are where chains lead, one's own first, and those of preferred sources next. -/
structure Closed (values : ν → Option τ) : Prop where
  reached : ∀ node, (∃ value, values node = some value) ↔ ∃ k value, graph.Chain k node value
  own : ∀ node value, graph.own node = some value → values node = some value
  preferred : ∀ node, graph.own node = none → ∀ source ∈ graph.preferred node, ∀ value,
    values source = some value →
      ∃ source' ∈ graph.preferred node, ∃ value', values source' = some value' ∧
        values node = some value'
  other : ∀ node, graph.own node = none →
    (∀ source ∈ graph.preferred node, values source = none) → ∀ value,
    values node = some value → ∃ source ∈ graph.others node, values source = some value

/-- Every node that a chain reaches is reached by one of at most `k` steps. -/
def ReachedWithin (k : ℕ) : Prop :=
  ∀ j node value, graph.Chain j node value → ∃ i ≤ k, ∃ value', graph.Chain i node value'

/-- All chains to a node lead to one value. -/
def SameValue (node : ν) : Prop :=
  ∀ i j value value', graph.Chain i node value → graph.Chain j node value' → value = value'

/-- Another source is no nearer than the preferred ones, unless both lead to one value. -/
def PreferredFirst : Prop :=
  ∀ node j value, graph.PreferredChain j node value → ∀ k value',
    graph.OtherChain k node value' →
      (∃ i ≤ k, ∃ value'', graph.PreferredChain i node value'') ∨ graph.SameValue node

/-- The preferred sources of a node lead to one value, and so do the others. -/
def NoConflict : Prop :=
  ∀ node i j value value',
    (graph.PreferredChain i node value → graph.PreferredChain j node value' → value = value') ∧
    (graph.OtherChain i node value → graph.OtherChain j node value' → value = value')

variable {graph} {k : ℕ} {value : τ} {node : ν}

theorem PreferredChain.chain (h : graph.PreferredChain k node value) :
    graph.Chain k node value := by
  obtain ⟨hown, source, hsource, j, rfl, hchain⟩ := h
  exact .preferred hown hsource hchain

theorem OtherChain.chain (h : graph.OtherChain k node value) : graph.Chain k node value := by
  obtain ⟨hown, source, hsource, j, rfl, hchain⟩ := h
  exact .other hown hsource hchain

theorem Chain.cases_none (h : graph.Chain k node value) (hown : graph.own node = none) :
    graph.PreferredChain k node value ∨ graph.OtherChain k node value := by
  cases h with
  | own hsome =>
    rw [hown] at hsome
    cases hsome
  | preferred _ hsource hchain => exact .inl ⟨hown, _, hsource, _, rfl, hchain⟩
  | other _ hsource hchain => exact .inr ⟨hown, _, hsource, _, rfl, hchain⟩

theorem after_succ_of_some (h : graph.after k node = some value) :
    graph.after (k + 1) node = some value := by
  rw [after, round, h]
  rfl

theorem after_mono {k l : ℕ} (hle : k ≤ l) (h : graph.after k node = some value) :
    graph.after l node = some value := by
  induction l, hle using Nat.le_induction with
  | base => exact h
  | succ l _ ih => exact after_succ_of_some ih

theorem after_of_own (h : graph.own node = some value) (k : ℕ) : graph.after k node = some value :=
  after_mono (Nat.zero_le k) h

theorem exists_findSome? {l : List ν} {values : ν → Option τ} {source : ν} (hmem : source ∈ l)
    (h : values source = some value) : ∃ value', l.findSome? values = some value' := by
  cases hfind : l.findSome? values with
  | some value' => exact ⟨value', rfl⟩
  | none =>
    rw [List.findSome?_eq_none_iff.mp hfind source hmem] at h
    cases h

/-- A chain reaches its node by the round of its length. -/
theorem Chain.after (h : graph.Chain k node value) :
    ∃ value', graph.after k node = some value' := by
  induction h with
  | own hown => exact ⟨_, hown⟩
  | @preferred k node source value _ hsource _ ih =>
    obtain ⟨value', hvalue⟩ := ih
    rw [Spread.after, round]
    cases graph.after k node with
    | some old => exact ⟨old, rfl⟩
    | none =>
      obtain ⟨found, hfound⟩ := exists_findSome? hsource hvalue
      exact ⟨found, by rw [hfound]; rfl⟩
  | @other k node source value _ hsource _ ih =>
    obtain ⟨value', hvalue⟩ := ih
    rw [Spread.after, round]
    cases graph.after k node with
    | some old => exact ⟨old, rfl⟩
    | none =>
      cases (graph.preferred node).findSome? (graph.after k) with
      | some found => exact ⟨found, rfl⟩
      | none =>
        obtain ⟨found, hfound⟩ := exists_findSome? hsource hvalue
        exact ⟨found, by rw [hfound]; rfl⟩

/-- How a value first comes to a node, in a round of its own. -/
inductive Arrival (graph : Spread ν τ) : ℕ → ν → τ → Prop
  | own {node : ν} {value : τ} : graph.own node = some value → Arrival graph 0 node value
  | preferred {k : ℕ} {node source : ν} {value : τ} : graph.own node = none →
    graph.after k node = none → source ∈ graph.preferred node →
    graph.after k source = some value → Arrival graph (k + 1) node value
  | other {k : ℕ} {node source : ν} {value : τ} : graph.own node = none →
    graph.after k node = none → (∀ near ∈ graph.preferred node, graph.after k near = none) →
    source ∈ graph.others node → graph.after k source = some value →
    Arrival graph (k + 1) node value

theorem own_eq_none_of_after (h : graph.after k node = none) : graph.own node = none := by
  cases hown : graph.own node with
  | none => rfl
  | some value =>
    rw [after_of_own hown k] at h
    cases h

theorem exists_arrival (h : graph.after k node = some value) :
    ∃ j ≤ k, Arrival graph j node value := by
  induction k with
  | zero => exact ⟨0, le_refl 0, .own h⟩
  | succ k ih =>
    cases hold : graph.after k node with
    | some old =>
      rw [after_succ_of_some hold] at h
      cases h
      obtain ⟨j, hj, harrival⟩ := ih hold
      exact ⟨j, Nat.le_succ_of_le hj, harrival⟩
    | none =>
      have hown := own_eq_none_of_after hold
      rw [after, round, hold, Option.none_or] at h
      cases hfind : (graph.preferred node).findSome? (graph.after k) with
      | some found =>
        rw [hfind, Option.some_or] at h
        cases h
        obtain ⟨source, hsource, hvalue⟩ := List.exists_of_findSome?_eq_some hfind
        exact ⟨k + 1, le_refl _, .preferred hown hold hsource hvalue⟩
      | none =>
        rw [hfind, Option.none_or] at h
        obtain ⟨source, hsource, hvalue⟩ := List.exists_of_findSome?_eq_some h
        have hnone := List.findSome?_eq_none_iff.mp hfind
        exact ⟨k + 1, le_refl _, .other hown hold hnone hsource hvalue⟩

/-- Values come along chains. -/
theorem exists_chain (h : graph.after k node = some value) : ∃ j ≤ k, graph.Chain j node value := by
  induction k using Nat.strong_induction_on generalizing node with
  | _ k ih =>
    obtain ⟨i, hi, harrival⟩ := exists_arrival h
    cases harrival with
    | own hown => exact ⟨0, Nat.zero_le k, .own hown⟩
    | @preferred i _ source _ hown _ hsource hvalue =>
      obtain ⟨j, hj, hchain⟩ := ih i hi hvalue
      exact ⟨j + 1, by omega, .preferred hown hsource hchain⟩
    | @other i _ source _ hown _ _ hsource hvalue =>
      obtain ⟨j, hj, hchain⟩ := ih i hi hvalue
      exact ⟨j + 1, by omega, .other hown hsource hchain⟩

/-- What came from another source is an other chain, and no preferred one is as short. -/
theorem other_arrival {node source : ν} (hown : graph.own node = none)
    (hnone : ∀ near ∈ graph.preferred node, graph.after k near = none)
    (hsource : source ∈ graph.others node) (hvalue : graph.after k source = some value) :
    (∃ j ≤ k + 1, graph.OtherChain j node value) ∧
      ∀ j ≤ k + 1, ∀ value', ¬ graph.PreferredChain j node value' := by
  constructor
  · obtain ⟨j, hj, hchain⟩ := exists_chain hvalue
    exact ⟨j + 1, by omega, hown, source, hsource, j, rfl, hchain⟩
  · rintro _ hle value' ⟨_, near, hnear, i, rfl, hchain⟩
    obtain ⟨found, hfound⟩ := hchain.after
    have hk := after_mono (show i ≤ k by omega) hfound
    rw [hnone near hnear] at hk
    cases hk

theorem reachedWithin_iff : graph.ReachedWithin k ↔
    ∀ node, (∃ value, graph.after k node = some value) ↔ ∃ j value, graph.Chain j node value := by
  constructor
  · intro h node
    constructor
    · rintro ⟨value, hvalue⟩
      obtain ⟨j, _, hchain⟩ := exists_chain hvalue
      exact ⟨j, value, hchain⟩
    · rintro ⟨j, value, hchain⟩
      obtain ⟨i, hi, value', hshort⟩ := h j node value hchain
      obtain ⟨found, hfound⟩ := hshort.after
      exact ⟨found, after_mono hi hfound⟩
  · intro h j node value hchain
    obtain ⟨found, hfound⟩ := (h node).mpr ⟨j, value, hchain⟩
    obtain ⟨i, hi, hshort⟩ := exists_chain hfound
    exact ⟨i, hi, found, hshort⟩

/-- Enough rounds, with no nearer other source, close the values. -/
theorem closed_of_reachedWithin (hwithin : graph.ReachedWithin k) (hfirst : graph.PreferredFirst) :
    graph.Closed (graph.after k) := by
  have hreached := reachedWithin_iff.mp hwithin
  constructor
  case reached => exact hreached
  case own =>
    intro node value h
    exact after_of_own h k
  case preferred =>
    intro node hown source hsource value hvalue
    obtain ⟨j, _, hchain⟩ := exists_chain hvalue
    have hpreferred : graph.PreferredChain (j + 1) node value :=
      ⟨hown, source, hsource, j, rfl, hchain⟩
    obtain ⟨value', hvalue'⟩ := (hreached node).mpr ⟨j + 1, value, hpreferred.chain⟩
    obtain ⟨i, hi, harrival⟩ := exists_arrival hvalue'
    cases harrival with
    | own hsome =>
      rw [hown] at hsome
      cases hsome
    | @preferred i _ near _ _ _ hnear hnearValue =>
      exact ⟨near, hnear, value', after_mono (Nat.le_of_succ_le hi) hnearValue, hvalue'⟩
    | @other i _ near _ _ _ hnone hnear hnearValue =>
      obtain ⟨⟨l, hl, hother⟩, hshort⟩ := other_arrival hown hnone hnear hnearValue
      rcases hfirst node (j + 1) value hpreferred l value' hother with
        ⟨m, hm, value'', hm'⟩ | hsame
      · exact absurd hm' (hshort m (le_trans hm hl) value'')
      · obtain rfl := hsame (j + 1) l value value' hpreferred.chain hother.chain
        exact ⟨source, hsource, value, hvalue, hvalue'⟩
  case other =>
    intro node hown hnone value hvalue
    obtain ⟨i, hi, harrival⟩ := exists_arrival hvalue
    cases harrival with
    | own hsome =>
      rw [hown] at hsome
      cases hsome
    | @preferred i _ near _ _ _ hnear hnearValue =>
      have hk := after_mono (Nat.le_of_succ_le hi) hnearValue
      rw [hnone near hnear] at hk
      cases hk
    | @other i _ near _ _ _ _ hnear hnearValue =>
      exact ⟨near, hnear, after_mono (Nat.le_of_succ_le hi) hnearValue⟩

/-- Where sources do not conflict, closed values need the preferred ones to be first. -/
theorem preferredFirst_of_closed (hconflict : graph.NoConflict)
    (hclosed : graph.Closed (graph.after k)) : graph.PreferredFirst := by
  intro node j value hpreferred l value' hother
  by_contra hneither
  obtain ⟨hlong, hdiffer⟩ := not_or.mp hneither
  have hown : graph.own node = none := hpreferred.1
  apply hdiffer
  -- the value that reached the node is both a preferred and an other one
  have hsame : value = value' := by
    obtain ⟨_, source, hsource, i, _, hchain⟩ := hpreferred
    obtain ⟨found, hfound⟩ := (hclosed.reached source).mpr ⟨i, value, hchain⟩
    obtain ⟨near, hnear, reached, hnearValue, hreached⟩ :=
      hclosed.preferred node hown source hsource found hfound
    obtain ⟨m, _, hnearChain⟩ := exists_chain hnearValue
    have hp : value = reached := by
      apply (hconflict node (i + 1) (m + 1) value reached).1
      · exact ⟨hown, source, hsource, i, rfl, hchain⟩
      · exact ⟨hown, near, hnear, m, rfl, hnearChain⟩
    obtain ⟨a, _, harrival⟩ := exists_arrival hreached
    cases harrival with
    | own hsome =>
      rw [hown] at hsome
      cases hsome
    | @preferred a _ first _ _ hold hfirst hfirstValue =>
      obtain ⟨m', hm', hfirstChain⟩ := exists_chain hfirstValue
      have hl : a + 1 ≤ l := by
        by_contra hlt
        obtain ⟨early, hearly⟩ := hother.chain.after
        have ha := after_mono (show l ≤ a by omega) hearly
        rw [hold] at ha
        cases ha
      exact absurd ⟨m' + 1, by omega, reached, hown, first, hfirst, m', rfl, hfirstChain⟩ hlong
    | @other a _ first _ _ _ hnone hfirst hfirstValue =>
      obtain ⟨⟨m', _, hfirstChain⟩, _⟩ := other_arrival hown hnone hfirst hfirstValue
      rw [hp]
      exact (hconflict node m' l reached value').2 hfirstChain hother
  intro i i' one two hone htwo
  have hall : ∀ i one, graph.Chain i node one → one = value := by
    intro i one hone
    rcases hone.cases_none hown with h | h
    · exact (hconflict node i j one value).1 h hpreferred
    · rw [hsame]
      exact (hconflict node i l one value').2 h hother
  rw [hall i one hone, hall i' two htwo]

/-- Without conflicts the value of a node depends on the chains only. -/
theorem after_eq_some_iff (hwithin : graph.ReachedWithin k) (hfirst : graph.PreferredFirst)
    (hconflict : graph.NoConflict) :
    graph.after k node = some value ↔ graph.own node = some value ∨
      (∃ j, graph.PreferredChain j node value) ∨
      ((∀ j value', ¬ graph.PreferredChain j node value') ∧ ∃ j, graph.OtherChain j node value) := by
  have hmp : ∀ value, graph.after k node = some value → graph.own node = some value ∨
      (∃ j, graph.PreferredChain j node value) ∨
      ((∀ j value', ¬ graph.PreferredChain j node value') ∧
        ∃ j, graph.OtherChain j node value) := by
    intro value hvalue
    obtain ⟨i, _, harrival⟩ := exists_arrival hvalue
    cases harrival with
    | own hown => exact .inl hown
    | @preferred i _ near _ hown _ hnear hnearValue =>
      obtain ⟨j, _, hchain⟩ := exists_chain hnearValue
      exact .inr (.inl ⟨j + 1, hown, near, hnear, j, rfl, hchain⟩)
    | @other i _ near _ hown _ hnone hnear hnearValue =>
      obtain ⟨⟨j, hj, hother⟩, hshort⟩ := other_arrival hown hnone hnear hnearValue
      by_cases hany : ∃ m value', graph.PreferredChain m node value'
      · obtain ⟨m, value', hpreferred⟩ := hany
        rcases hfirst node m value' hpreferred j value hother with ⟨m', hm', value'', h⟩ | hsame
        · exact absurd h (hshort m' (le_trans hm' hj) value'')
        · obtain rfl := hsame m j value' value hpreferred.chain hother.chain
          exact .inr (.inl ⟨m, hpreferred⟩)
      · right
        right
        refine ⟨?_, j, hother⟩
        intro m value' h
        exact hany ⟨m, value', h⟩
  constructor
  · exact hmp value
  · intro h
    have hchain : ∃ j, graph.Chain j node value := by
      rcases h with h | ⟨j, h⟩ | ⟨_, j, h⟩
      · exact ⟨0, .own h⟩
      · exact ⟨j, h.chain⟩
      · exact ⟨j, h.chain⟩
    obtain ⟨j, hchain⟩ := hchain
    obtain ⟨found, hfound⟩ := (reachedWithin_iff.mp hwithin node).mpr ⟨j, value, hchain⟩
    rw [hfound]
    rcases h with h | ⟨i, h⟩ | ⟨hnone, i, h⟩ <;>
      rcases hmp found hfound with h' | ⟨i', h'⟩ | ⟨hnone', i', h'⟩
    · exact h'.symm.trans h
    · exact absurd (h'.1.symm.trans h) (by simp)
    · exact absurd (h'.1.symm.trans h) (by simp)
    · exact absurd (h.1.symm.trans h') (by simp)
    · rw [(hconflict node i i' value found).1 h h']
    · exact absurd h (hnone' i value)
    · exact absurd (h.1.symm.trans h') (by simp)
    · exact absurd h' (hnone i' found)
    · rw [(hconflict node i i' value found).2 h h']

/-! Two graphs that list the same sources. -/

structure SameSources (graph graph' : Spread ν τ) : Prop where
  own : ∀ node, graph'.own node = graph.own node
  preferred : ∀ node source, source ∈ graph'.preferred node ↔ source ∈ graph.preferred node
  others : ∀ node source, source ∈ graph'.others node ↔ source ∈ graph.others node

variable {graph graph' : Spread ν τ} (h : SameSources graph graph')
include h

theorem SameSources.symm : SameSources graph' graph where
  own node := (h.own node).symm
  preferred node source := (h.preferred node source).symm
  others node source := (h.others node source).symm

theorem SameSources.chain (hchain : graph.Chain k node value) : graph'.Chain k node value := by
  induction hchain with
  | own hown => exact .own ((h.own _).trans hown)
  | preferred hown hsource _ ih =>
    exact .preferred ((h.own _).trans hown) ((h.preferred _ _).mpr hsource) ih
  | other hown hsource _ ih =>
    exact .other ((h.own _).trans hown) ((h.others _ _).mpr hsource) ih

theorem SameSources.chain_eq : graph'.Chain = graph.Chain := by
  funext k node value
  exact propext ⟨h.symm.chain, h.chain⟩

theorem SameSources.preferredChain_eq : graph'.PreferredChain = graph.PreferredChain := by
  funext k node value
  simp only [PreferredChain, h.own, h.preferred, h.chain_eq]

theorem SameSources.otherChain_eq : graph'.OtherChain = graph.OtherChain := by
  funext k node value
  simp only [OtherChain, h.own, h.others, h.chain_eq]

/-- The order of the sources does not matter where they do not conflict. -/
theorem SameSources.after_eq
    (hwithin : graph.ReachedWithin k) (hfirst : graph.PreferredFirst)
    (hconflict : graph.NoConflict) : graph'.after k = graph.after k := by
  have hwithin' : graph'.ReachedWithin k := by
    unfold ReachedWithin
    rw [h.chain_eq]
    exact hwithin
  have hfirst' : graph'.PreferredFirst := by
    unfold PreferredFirst SameValue
    rw [h.preferredChain_eq, h.otherChain_eq, h.chain_eq]
    exact hfirst
  have hconflict' : graph'.NoConflict := by
    unfold NoConflict
    rw [h.preferredChain_eq, h.otherChain_eq]
    exact hconflict
  funext node
  apply Option.ext
  intro value
  rw [after_eq_some_iff hwithin' hfirst' hconflict', after_eq_some_iff hwithin hfirst hconflict,
    h.own, h.preferredChain_eq, h.otherChain_eq]

end Spread

end EtasFrontend.Lib
