import EtasFrontend.Lib.Levels
import Mathlib.Algebra.Order.BigOperators.Group.Finset

/-! A depth-first walk with an explicit stack and a table of results. An entry of the stack is
flagged when everything it needs has been put above it. The results are those of a recursion over
what is needed, limited in its height. -/
namespace EtasFrontend.Lib
open Relation

/-! The recursion. -/

section
variable {α β : Type*}

def heightOver (as : List α) (d : α → ℕ) : ℕ := 1 + (as.map d).foldl max 0

theorem le_foldl_max (l : List ℕ) (n : ℕ) : n ≤ l.foldl max n ∧ ∀ k ∈ l, k ≤ l.foldl max n := by
  induction l generalizing n with
  | nil => exact ⟨le_rfl, fun k hk => by cases hk⟩
  | cons m l ih =>
    obtain ⟨hle, hall⟩ := ih (max n m)
    rw [List.foldl_cons]
    refine ⟨(le_max_left n m).trans hle, fun k hk => ?_⟩
    rcases List.mem_cons.mp hk with rfl | hk
    · exact (le_max_right n k).trans hle
    · exact hall k hk

theorem lt_heightOver {as : List α} (d : α → ℕ) {b : α} (hb : b ∈ as) :
    d b + 1 ≤ heightOver as d := by
  have h := (le_foldl_max (as.map d) 0).2 (d b) (List.mem_map_of_mem hb)
  unfold heightOver
  omega

theorem heightOver_congr {as : List α} {d d' : α → ℕ} (h : ∀ b ∈ as, d b = d' b) :
    heightOver as d = heightOver as d' := by
  unfold heightOver
  rw [List.map_congr_left h]

variable (needs : α → Option (List α)) (build : α → (α → β) → Option β) (limit : Option ℕ)

/-- `r` is built for `a` from the results of what `a` needs, at a height within the limit. -/
inductive Derives : α → β → ℕ → Prop
  | node {a : α} {as : List α} {r : β} (m : α → β) (d : α → ℕ) (hneeds : needs a = some as)
      (hm : ∀ b ∈ as, Derives b (m b) (d b)) (hlimit : ∀ l ∈ limit, heightOver as d ≤ l)
      (hbuild : build a m = some r) : Derives a r (heightOver as d)

/-- What is needed directly. -/
def needed (a : α) : List α := (needs a).getD []

/-- The result of a node depends on the results of what it needs only. -/
def BuildsFrom : Prop :=
  ∀ a as m m', needs a = some as → (∀ b ∈ as, m b = m' b) → build a m = build a m'

end

section
variable {α β : Type*} {needs : α → Option (List α)} {build : α → (α → β) → Option β}
  {limit : Option ℕ} {a b : α} {r r' : β} {h h' : ℕ}

namespace Derives

theorem unique (hbuild : BuildsFrom needs build) (hd : Derives needs build limit a r h)
    (hd' : Derives needs build limit a r' h') : r = r' ∧ h = h' := by
  induction hd generalizing r' h' with
  | @node a as r m d hneeds hm _ hr ih =>
    cases hd' with
    | @node _ as' _ m' d' hneeds' hm' _ hr' =>
      cases hneeds.symm.trans hneeds'
      have hsame : ∀ b ∈ as, m b = m' b ∧ d b = d' b := fun b hb => ih b hb (hm' b hb)
      refine ⟨?_, heightOver_congr fun b hb => (hsame b hb).2⟩
      rw [hbuild a as m m' hneeds fun b hb => (hsame b hb).1] at hr
      exact Option.some.inj (hr.symm.trans hr')

section
variable (hd : Derives needs build limit a r h)
include hd

theorem within {l : ℕ} (hl : limit = some l) : h ≤ l := by
  cases hd with
  | node _ _ _ _ hlimit _ => exact hlimit l hl

/-- What is needed has a result, at a smaller height. -/
theorem of_needed (hb : b ∈ needed needs a) :
    ∃ r' h', Derives needs build limit b r' h' ∧ h' + 1 ≤ h := by
  cases hd with
  | @node _ as _ m d hneeds hm _ _ =>
    rw [needed, hneeds, Option.getD_some] at hb
    exact ⟨m b, d b, hm b hb, lt_heightOver d hb⟩

theorem of_level {k : ℕ}
    (hb : Level (needed needs) [a] k b) :
    ∃ r' h', Derives needs build limit b r' h' ∧ h' + k ≤ h := by
  induction hb with
  | root ha =>
    cases List.mem_singleton.mp ha
    exact ⟨r, h, hd, le_rfl⟩
  | @step n c b _ hb ih =>
    obtain ⟨rc, hc, hdc, hle⟩ := ih
    obtain ⟨rb, hb, hdb, hlt⟩ := hdc.of_needed hb
    exact ⟨rb, hb, hdb, by omega⟩

theorem of_transGen
    (hb : TransGen (fun a b => b ∈ needed needs a) a b) :
    ∃ r' h', Derives needs build limit b r' h' ∧ h' + 1 ≤ h := by
  induction hb with
  | single hb => exact hd.of_needed hb
  | tail _ hb ih =>
    obtain ⟨rc, hc, hdc, hle⟩ := ih
    obtain ⟨rb, hb, hdb, hlt⟩ := hdc.of_needed hb
    exact ⟨rb, hb, hdb, by omega⟩

end

/-- The result of a node whose needs have theirs. -/
theorem node_iff (hbuild : BuildsFrom needs build) {as : List α} {m : α → β} {d : α → ℕ}
    (hneeds : needs a = some as) (hm : ∀ b ∈ as, Derives needs build limit b (m b) (d b)) :
    Derives needs build limit a r h ↔
      heightOver as d = h ∧ (∀ l ∈ limit, heightOver as d ≤ l) ∧ build a m = some r := by
  constructor
  · intro hd
    cases hd with
    | @node _ as' _ m' d' hneeds' hm' hlimit hr =>
      cases hneeds.symm.trans hneeds'
      have hsame : ∀ b ∈ as, m b = m' b ∧ d b = d' b :=
        fun b hb => (hm b hb).unique hbuild (hm' b hb)
      have hheight := heightOver_congr fun b hb => (hsame b hb).2
      rw [hheight, hbuild a as m m' hneeds fun b hb => (hsame b hb).1]
      exact ⟨rfl, hlimit, hr⟩
  · rintro ⟨rfl, hlimit, hr⟩
    exact .node m d hneeds hm hlimit hr

/-- What has a result does not need itself. -/
theorem acyclic (hbuild : BuildsFrom needs build) (hd : Derives needs build limit a r h) :
    ¬ TransGen (fun a b => b ∈ needed needs a) a a := by
  intro hcycle
  obtain ⟨r', h', hd', hlt⟩ := hd.of_transGen hcycle
  have := (hd.unique hbuild hd').2
  omega

end Derives
end

section
variable {α : Type*}

/-- The flagged entries of the stack. -/
def flagged (stack : List (α × Bool)) : List α := (stack.filter Prod.snd).map Prod.fst

@[simp] theorem flagged_cons_true (a : α) (rest : List (α × Bool)) :
    flagged ((a, true) :: rest) = a :: flagged rest := rfl

@[simp] theorem flagged_cons_false (a : α) (rest : List (α × Bool)) :
    flagged ((a, false) :: rest) = flagged rest := rfl

@[simp] theorem flagged_children (children : List α) (rest : List (α × Bool)) :
    flagged (children.map (·, false) ++ rest) = flagged rest := by
  induction children with
  | nil => rfl
  | cons c children ih => exact ih

theorem mem_flagged {a : α} {stack : List (α × Bool)} : a ∈ flagged stack ↔ (a, true) ∈ stack := by
  unfold flagged
  rw [List.mem_map]
  constructor
  · rintro ⟨⟨b, f⟩, hb, rfl⟩
    obtain ⟨hmem, hf⟩ := List.mem_filter.mp hb
    dsimp only at hf
    subst hf
    exact hmem
  · exact fun h => ⟨(a, true), List.mem_filter.mpr ⟨h, rfl⟩, rfl⟩

section
variable (succ : α → List α)

/-- A path leads from the root to each entry, through all flagged entries below it. -/
def OnPath (root : α) : List (α × Bool) → Prop
  | [] => True
  | x :: rest => Level succ [root] (flagged rest).length x.1 ∧ OnPath root rest

/-- Whatever a flagged entry needs is known or above it on the stack. `above` lists what stood above
the given part. -/
def SuppliedFrom (known : α → Prop) : List (α × Bool) → List α → Prop
  | [], _ => True
  | (a, finish) :: rest, above =>
    (finish = true → ∀ b ∈ succ a, known b ∨ b ∈ above) ∧ SuppliedFrom known rest (a :: above)

/-- What holds between two turns of the walk from `root`. -/
structure StackInv (root : α) (active : Finset α) (known : α → Prop) (stack : List (α × Bool)) :
    Prop where
  paths : OnPath succ root stack
  inside : stack.Pairwise fun x y => y.2 = true → TransGen (fun a b => b ∈ succ a) y.1 x.1
  supplied : SuppliedFrom succ known stack []
  entered : ∀ a, a ∈ active ↔ a ∈ flagged stack
  nodup : (flagged stack).Nodup
  apart : ∀ a ∈ active, ¬ known a
  done : known root ∨ ∃ finish, (root, finish) ∈ stack

end

variable {succ : α → List α} {known known' : α → Prop} {root current : α} {active : Finset α}
  {finish : Bool} {stack rest : List (α × Bool)} {above above' : List α}

namespace SuppliedFrom

theorem mono (h : SuppliedFrom succ known stack above) (hk : ∀ b, known b → known' b)
    (ha : ∀ b ∈ above, known' b ∨ b ∈ above') : SuppliedFrom succ known' stack above' := by
  induction stack generalizing above above' with
  | nil => trivial
  | cons x stack ih =>
    obtain ⟨hx, hrest⟩ := h
    refine ⟨fun hf b hb => ?_, ih hrest fun b hb => ?_⟩
    · rcases hx hf b hb with hb | hb
      · exact Or.inl (hk b hb)
      · exact ha b hb
    · rcases List.mem_cons.mp hb with rfl | hb
      · exact Or.inr List.mem_cons_self
      · exact (ha b hb).imp_right (List.mem_cons_of_mem _)

theorem append (children : List α)
    (h : SuppliedFrom succ known rest (children.reverse ++ above)) :
    SuppliedFrom succ known (children.map (·, false) ++ rest) above := by
  induction children generalizing above with
  | nil => exact h
  | cons c children ih => exact ⟨fun hf => (by cases hf), ih (by simpa using h)⟩

/-- What is known can leave the stack. -/
theorem pop (h : SuppliedFrom succ known ((current, finish) :: rest) [])
    (hk : ∀ b, known b → known' b) (hc : known' current) : SuppliedFrom succ known' rest [] := by
  refine h.2.mono hk fun b hb => ?_
  cases List.mem_singleton.mp hb
  exact Or.inl hc

theorem enter (h : SuppliedFrom succ known ((current, finish) :: rest) []) :
    SuppliedFrom succ known ((succ current).map (·, false) ++ (current, true) :: rest) [] := by
  refine append _ ⟨fun _ b hb => Or.inr (by simpa using hb), h.2.mono (fun _ h => h) fun b hb => ?_⟩
  cases List.mem_singleton.mp hb
  exact Or.inr List.mem_cons_self

end SuppliedFrom

variable [DecidableEq α]

namespace StackInv

omit [DecidableEq α] in
theorem start (hroot : active = ∅) : StackInv succ root active known [(root, false)] where
  paths := ⟨.root (List.mem_singleton_self root), trivial⟩
  inside := List.pairwise_singleton _ _
  supplied := ⟨fun hf => (by cases hf), trivial⟩
  entered a := by simp [hroot, flagged]
  nodup := List.nodup_nil
  apart a ha := by simp [hroot] at ha
  done := Or.inr ⟨false, List.mem_cons_self⟩

theorem card (h : StackInv succ root active known stack) :
    active.card = (flagged stack).length := by
  have heq : active = (flagged stack).toFinset := by
    ext a
    rw [h.entered, List.mem_toFinset]
  rw [heq, List.toFinset_card_of_nodup h.nodup]

omit [DecidableEq α] in
theorem reach (h : StackInv succ root active known ((current, finish) :: rest)) :
    ReflTransGen (fun a b => b ∈ succ a) root current := by
  have hlevel : Level succ [root] (flagged rest).length current := h.paths.1
  generalize (flagged rest).length = depth at hlevel
  clear h
  induction hlevel with
  | root hmem =>
    cases List.mem_singleton.mp hmem
    exact .refl
  | step _ hb ih => exact ih.tail hb

/-- The path to the top of the stack is as long as there are entries to be finished. -/
theorem level (h : StackInv succ root active known ((current, false) :: rest)) :
    Level succ [root] active.card current := by
  rw [h.card]
  exact h.paths.1

omit [DecidableEq α] in
/-- What is known is skipped. -/
theorem skip (h : StackInv succ root active known ((current, finish) :: rest))
    (hc : known current) : StackInv succ root active known rest := by
  have hfinish : finish = false := by
    cases finish with
    | false => rfl
    | true => exact absurd hc (h.apart current ((h.entered current).mpr List.mem_cons_self))
  subst hfinish
  refine ⟨h.paths.2, h.inside.of_cons, h.supplied.pop (fun _ h => h) hc, h.entered, h.nodup,
    h.apart, ?_⟩
  rcases h.done with hr | ⟨f, hf⟩
  · exact Or.inl hr
  · rcases List.mem_cons.mp hf with he | he
    · cases he
      exact Or.inl hc
    · exact Or.inr ⟨f, he⟩

/-- A finished entry is known from then on. -/
theorem finished (h : StackInv succ root active known ((current, true) :: rest))
    (hk : ∀ b, known' b ↔ b = current ∨ known b) :
    StackInv succ root (active.erase current) known' rest := by
  have hnodup := List.nodup_cons.mp h.nodup
  refine ⟨h.paths.2, h.inside.of_cons,
    h.supplied.pop (fun b hb => (hk b).mpr (Or.inr hb)) ((hk current).mpr (Or.inl rfl)),
    fun a => ?_, hnodup.2, fun a ha => ?_, ?_⟩
  · rw [Finset.mem_erase, h.entered, flagged_cons_true, List.mem_cons]
    constructor
    · rintro ⟨hne, rfl | ha⟩
      · exact absurd rfl hne
      · exact ha
    · intro ha
      refine ⟨?_, Or.inr ha⟩
      rintro rfl
      exact hnodup.1 ha
  · obtain ⟨hne, ha⟩ := Finset.mem_erase.mp ha
    rw [hk, not_or]
    exact ⟨hne, h.apart a ha⟩
  · rcases h.done with hr | ⟨f, hf⟩
    · exact Or.inl ((hk root).mpr (Or.inr hr))
    · rcases List.mem_cons.mp hf with he | he
      · cases he
        exact Or.inl ((hk root).mpr (Or.inl rfl))
      · exact Or.inr ⟨f, he⟩

omit [DecidableEq α] in
theorem onPath_children {children : List α} {rest : List (α × Bool)}
    (hrest : OnPath succ root rest)
    (h : ∀ b ∈ children, Level succ [root] (flagged rest).length b) :
    OnPath succ root (children.map (·, false) ++ rest) := by
  induction children with
  | nil => exact hrest
  | cons c children ih =>
    obtain ⟨hc, hchildren⟩ := List.forall_mem_cons.mp h
    refine ⟨?_, ih hchildren⟩
    change Level succ [root] (flagged (children.map (·, false) ++ rest)).length c
    rwa [flagged_children]

/-- An entry met for the first time: what it needs goes on the stack above it. -/
theorem enter (h : StackInv succ root active known ((current, false) :: rest))
    (hc : ¬ known current) (ha : current ∉ active) :
    StackInv succ root (insert current active) known
      ((succ current).map (·, false) ++ (current, true) :: rest) := by
  have hinside := List.pairwise_cons.mp h.inside
  have hflagged : flagged ((succ current).map (·, false) ++ (current, true) :: rest) =
      current :: flagged rest := by rw [flagged_children, flagged_cons_true]
  refine ⟨?_, ?_, h.supplied.enter, fun a => ?_, ?_, fun a hmem => ?_, ?_⟩
  · refine onPath_children ⟨h.paths.1, h.paths.2⟩ fun b hb => ?_
    rw [flagged_cons_true, List.length_cons]
    exact .step h.paths.1 hb
  · -- the new entries are one step below `current`, and so below what `current` is below
    refine List.pairwise_append.mpr ⟨?_, List.pairwise_cons.mpr ⟨fun y hy hf => hinside.1 y hy hf,
      hinside.2⟩, fun x hx y hy hf => ?_⟩
    · exact List.pairwise_map.mpr (List.pairwise_of_forall fun _ _ hf => by cases hf)
    · obtain ⟨b, hb, rfl⟩ := List.mem_map.mp hx
      rcases List.mem_cons.mp hy with rfl | hy
      · exact .single hb
      · exact (hinside.1 y hy hf).tail hb
  · rw [Finset.mem_insert, h.entered, hflagged, List.mem_cons]
    rfl
  · rw [hflagged]
    refine List.nodup_cons.mpr ⟨fun hmem => ha ((h.entered current).mpr hmem), h.nodup⟩
  · rcases Finset.mem_insert.mp hmem with rfl | hmem
    · exact hc
    · exact h.apart a hmem
  · rcases h.done with hr | ⟨f, hf⟩
    · exact Or.inl hr
    · rcases List.mem_cons.mp hf with he | he
      · cases he
        exact Or.inr ⟨true, by simp⟩
      · exact Or.inr ⟨f, by simp [he]⟩

omit [DecidableEq α] in
theorem done_of_nil (h : StackInv succ root active known []) : known root := by
  rcases h.done with hr | ⟨f, hf⟩
  · exact hr
  · cases hf

omit [DecidableEq α] in
/-- An entry met inside of itself lies on a cycle. -/
theorem cycle (h : StackInv succ root active known ((current, false) :: rest))
    (ha : current ∈ active) : TransGen (fun a b => b ∈ succ a) current current := by
  have hmem : (current, true) ∈ rest := mem_flagged.mp ((h.entered current).mp ha)
  exact (List.pairwise_cons.mp h.inside).1 _ hmem rfl

end StackInv

variable (succ) [DecidablePred known]

/-- What is still to be pushed: an entry for each node not entered yet and for each of its needs. -/
def toPush (nodes active : Finset α) (known : α → Prop) [DecidablePred known] : ℕ :=
  ∑ a ∈ nodes with a ∉ active ∧ ¬ known a, ((succ a).length + 1)

theorem toPush_le (nodes active : Finset α) :
    toPush succ nodes active known ≤ ∑ a ∈ nodes, ((succ a).length + 1) :=
  Finset.sum_le_sum_of_subset (Finset.filter_subset _ _)

theorem toPush_enter (known : α → Prop) [DecidablePred known] {nodes : Finset α}
    (hc : current ∈ nodes) (ha : current ∉ active) (hk : ¬ known current) :
    toPush succ nodes active known = (succ current).length + 1 +
      toPush succ nodes (insert current active) known := by
  have hfilter : {a ∈ nodes | a ∉ insert current active ∧ ¬ known a} =
      ({a ∈ nodes | a ∉ active ∧ ¬ known a}).erase current := by
    ext a
    simp only [Finset.mem_filter, Finset.mem_insert, not_or, Finset.mem_erase]
    tauto
  unfold toPush
  rw [hfilter]
  refine (Finset.add_sum_erase _ (fun a => (succ a).length + 1) ?_).symm
  exact Finset.mem_filter.mpr ⟨hc, ha, hk⟩

theorem toPush_finish [DecidablePred known'] (nodes active : Finset α)
    (hk : ∀ b, known' b ↔ b = current ∨ known b) :
    toPush succ nodes (active.erase current) known' ≤ toPush succ nodes active known := by
  unfold toPush
  refine Finset.sum_le_sum_of_subset fun a h => ?_
  simp only [Finset.mem_filter, Finset.mem_erase, hk, not_or] at h ⊢
  obtain ⟨hmem, ha, hne, hnot⟩ := h
  exact ⟨hmem, fun h => ha ⟨hne, h⟩, hnot⟩

end
end EtasFrontend.Lib
