import EtasFrontend.Alias.UnificationCorrect

/-! What arrives at a variable when the constraints are applied once, in the order of their list. -/
namespace EtasFrontend.Alias
open Lib

/-- What a set may have: anything at all, a place, or everything. -/
inductive Item where
  | something
  | one (place : Place)
  | everything

def AliasSet.Has : AliasSet → Item → Prop
  | .bottom, _ => False
  | .known _, .something => True
  | .known places, .one place => place ∈ places
  | .known _, .everything => False
  | .unknown, _ => True

def Item.project (config : AliasPrecisionConfig) (projection : Projection) : Item → Item
  | .something => .something
  | .one place =>
    if config.maxProjectionDepth ≤ place.projections.length then .everything
    else .one { place with projections := place.projections ++ [projection] }
  | .everything => .everything

/-- Items that some set within the limit could have. -/
structure Saturated (limit : ℕ) (has : Item → Prop) : Prop where
  all : has .everything → ∀ item, has item
  crowd : ∀ places : Finset Place, limit < places.card → (∀ place ∈ places, has (.one place)) →
    has .everything

variable {item : Item}

namespace AliasSet
variable {s t : AliasSet} {limit : ℕ} {has : Item → Prop} {config : AliasPrecisionConfig}
  {projection : Projection}

@[simp] theorem has_unknown (item : Item) : AliasSet.unknown.Has item := trivial

theorem has_everything : s.Has .everything ↔ s = .unknown := by
  cases s <;> simp [Has]

theorem le_iff_has : s ≤ t ↔ ∀ item, s.Has item → t.Has item := by
  constructor
  · intro h item hitem
    cases t with
    | unknown => trivial
    | bottom =>
      rw [le_bottom_iff] at h
      rwa [h] at hitem
    | known places =>
      cases s with
      | bottom => exact hitem.elim
      | unknown => cases h
      | known others =>
        cases item with
        | something => trivial
        | one place => exact known_le_known.mp h hitem
        | everything => exact hitem
  · intro h
    cases s with
    | bottom => exact bottom_le t
    | unknown =>
      rw [has_everything.mp (h .everything trivial)]
    | known others =>
      cases t with
      | bottom => exact (h .something trivial).elim
      | unknown => exact le_unknown _
      | known places => exact known_le_known.mpr fun place hplace => h (.one place) hplace

theorem saturated (h : s.Within limit) : Saturated limit s.Has where
  all hall item := by
    rw [has_everything.mp hall]
    trivial
  crowd places hcard hplaces := by
    cases s with
    | unknown => trivial
    | bottom =>
      obtain ⟨place, hplace⟩ := Finset.card_pos.mp (Nat.zero_lt_of_lt hcard)
      exact (hplaces place hplace).elim
    | known others =>
      exact absurd ((Finset.card_le_card hplaces).trans h) (Nat.not_le_of_lt hcard)

theorem has_join (hsat : Saturated limit has) (hs : ∀ item, s.Has item → has item)
    (ht : ∀ item, t.Has item → has item) (h : (joinWithLimit s t limit).Has item) : has item := by
  cases s with
  | bottom => exact ht item (by rwa [bottom_join] at h)
  | unknown => exact hs item trivial
  | known left =>
    cases t with
    | bottom => exact hs item h
    | unknown => exact ht item trivial
    | known right =>
      rw [joinWithLimit] at h
      have hunion : ∀ place ∈ left ∪ right, has (.one place) := fun place hplace =>
        (Finset.mem_union.mp hplace).elim (hs (.one place)) (ht (.one place))
      split at h
      case isTrue hcard => exact hsat.all (hsat.crowd _ hcard hunion) item
      case isFalse =>
        cases item with
        | something => exact hs .something trivial
        | one place => exact hunion place h
        | everything => exact h.elim

theorem has_project_of_has (h : s.Has item) :
    (s.project projection config).Has (item.project config projection) := by
  cases s with
  | bottom => exact h.elim
  | unknown => trivial
  | known places =>
    unfold AliasSet.project AliasValue.project
    dsimp only
    split
    · trivial
    split
    · trivial
    case isFalse hshallow _ =>
      cases item with
      | something => trivial
      | everything => exact h.elim
      | one place =>
        rw [Item.project, if_neg fun hdeep => hshallow ⟨place, h, hdeep⟩]
        exact Finset.mem_image_of_mem _ h

theorem has_project (hsat : Saturated config.maxAliasSetSize has)
    (hs : ∀ item, s.Has item → has (item.project config projection))
    (h : (s.project projection config).Has item) : has item := by
  cases s with
  | bottom => exact h.elim
  | unknown => exact hsat.all (hs .everything trivial) item
  | known places =>
    unfold AliasSet.project AliasValue.project at h
    dsimp only at h
    split at h
    case isTrue hdeep =>
      obtain ⟨place, hplace, hdeep⟩ := hdeep
      have := hs (.one place) hplace
      rw [Item.project, if_pos hdeep] at this
      exact hsat.all this item
    case isFalse hshallow =>
      have himage : ∀ place ∈ places.image fun place : Place =>
          { place with projections := place.projections ++ [projection] }, has (.one place) := by
        intro place hplace
        obtain ⟨below, hbelow, rfl⟩ := Finset.mem_image.mp hplace
        have := hs (.one below) hbelow
        rwa [Item.project, if_neg fun hdeep => hshallow ⟨below, hbelow, hdeep⟩] at this
      split at h
      case isTrue hcard => exact hsat.all (hsat.crowd _ hcard himage) item
      case isFalse =>
        cases item with
        | something => exact hs .something trivial
        | one place => exact himage place h
        | everything => exact h.elim

end AliasSet

/-- The two variables that a constraint makes one. -/
def AliasConstraint.copied : AliasConstraint → Option (AliasVar × AliasVar)
  | .copy dst src | .load dst src | .store dst src => some (dst, src)
  | _ => none

/-- The constraints make the variables one, in some steps. -/
def Linked (constraints : List AliasConstraint) : AliasVar → AliasVar → Prop :=
  Relation.EqvGen fun x y => ∃ constraint ∈ constraints, constraint.copied = some (x, y)

/-- What arrives at the variables: a projection takes along what the constraints before it bring. -/
inductive Arrives (config : AliasPrecisionConfig) (seeds : List (AliasVar × AliasValue)) :
    List AliasConstraint → AliasVar → Item → Prop where
  | seed {constraints var entry item} : entry ∈ seeds → entry.2.may.Has item →
    Linked constraints var entry.1 → Arrives config seeds constraints var item
  | addrOf {constraints var dst target item} : .addrOf dst target ∈ constraints →
    (AliasSet.known {target}).Has item → Linked constraints var dst →
    Arrives config seeds constraints var item
  | project {constraints before dst base projection after var item} :
    constraints = before ++ .project dst base projection :: after →
    Arrives config seeds before base item → Linked constraints var dst →
    Arrives config seeds constraints var (item.project config projection)
  | call {constraints var dst callee args site item} :
    .call (some dst) callee args site ∈ constraints → Linked constraints var dst →
    Arrives config seeds constraints var item
  | all {constraints var item} : Arrives config seeds constraints var .everything →
    Arrives config seeds constraints var item
  | crowd {constraints var} (places : Finset Place) : config.maxAliasSetSize < places.card →
    (∀ place ∈ places, Arrives config seeds constraints var (.one place)) →
    Arrives config seeds constraints var .everything

namespace Linked
variable {constraints others : List AliasConstraint} {x y z : AliasVar}

theorem mono (h : Linked constraints x y) (hsub : ∀ c ∈ constraints, c ∈ others) :
    Linked others x y :=
  Relation.EqvGen.mono (fun _ _ ⟨c, hc, heq⟩ => ⟨c, hsub c hc, heq⟩) _ _ h

theorem refl (x : AliasVar) : Linked constraints x x := Relation.EqvGen.refl x

theorem symm (h : Linked constraints x y) : Linked constraints y x := Relation.EqvGen.symm _ _ h

theorem trans (h : Linked constraints x y) (h' : Linked constraints y z) : Linked constraints x z :=
  Relation.EqvGen.trans _ _ _ h h'

end Linked

namespace Arrives
variable {config : AliasPrecisionConfig} {seeds : List (AliasVar × AliasValue)}
  {constraints : List AliasConstraint} {x y : AliasVar} {item : Item}

theorem saturated (constraints : List AliasConstraint) (x : AliasVar) :
    Saturated config.maxAliasSetSize (Arrives config seeds constraints x) where
  all h _ := .all h
  crowd places hcard h := .crowd places hcard h

theorem linked (h : Arrives config seeds constraints x item) (hxy : Linked constraints y x) :
    Arrives config seeds constraints y item := by
  induction h with
  | seed hmem hitem hlink => exact .seed hmem hitem (hxy.trans hlink)
  | addrOf hmem hitem hlink => exact .addrOf hmem hitem (hxy.trans hlink)
  | project hsplit hbase hlink => exact .project hsplit hbase (hxy.trans hlink)
  | call hmem hlink => exact .call hmem (hxy.trans hlink)
  | all _ ih => exact .all (ih hxy)
  | crowd places hcard _ ih => exact .crowd places hcard fun place hplace => ih place hplace hxy

theorem append (h : Arrives config seeds constraints x item) (others : List AliasConstraint) :
    Arrives config seeds (constraints ++ others) x item := by
  have hsub : ∀ {l : List AliasConstraint}, ∀ c ∈ l, c ∈ l ++ others :=
    fun c hc => List.mem_append_left _ hc
  induction h with
  | seed hmem hitem hlink => exact .seed hmem hitem (hlink.mono hsub)
  | addrOf hmem hitem hlink => exact .addrOf (hsub _ hmem) hitem (hlink.mono hsub)
  | @project constraints before dst base projection after _ _ hsplit hbase hlink =>
    have hsplit' : constraints ++ others =
        before ++ .project dst base projection :: (after ++ others) := by
      rw [hsplit, List.append_assoc, List.cons_append]
    exact .project hsplit' hbase (hlink.mono hsub)
  | call hmem hlink => exact .call (hsub _ hmem) (hlink.mono hsub)
  | all _ ih => exact .all ih
  | crowd places hcard _ ih => exact .crowd places hcard ih

end Arrives

/-! The machine over classes, against what arrives. -/

namespace Classes

/-- The variables of one class denote the same. -/
def Uniform (classes : Classes) : Prop :=
  ∀ x y, classes.root x = classes.root y → classes.may x = classes.may y

/-- Classes are put together and sets grow. -/
structure Grows (classes next : Classes) : Prop where
  root : ∀ {x y}, classes.root x = classes.root y → next.root x = next.root y
  may : ∀ x, classes.may x ≤ next.may x

theorem Grows.refl (classes : Classes) : classes.Grows classes := ⟨id, fun _ => le_refl _⟩

theorem Grows.trans {a b c : Classes} (h : a.Grows b) (h' : b.Grows c) : a.Grows c :=
  ⟨fun heq => h'.root (h.root heq), fun x => (h.may x).trans (h'.may x)⟩

variable {config : AliasPrecisionConfig} {le : AliasVar → AliasVar → Bool} {classes : Classes}

theorem join_uniform (h : classes.Uniform) (var : AliasVar) (set : AliasSet) (limit : ℕ) :
    (classes.join var set limit).Uniform := by
  intro x y hxy
  dsimp only [join] at hxy ⊢
  rw [hxy, h _ _ hxy]

theorem join_grows (classes : Classes) (var : AliasVar) (set : AliasSet) (limit : ℕ) :
    classes.Grows (classes.join var set limit) where
  root := id
  may x := by
    dsimp only [join]
    split
    · exact AliasSet.le_join_left ..
    · exact le_refl _

theorem le_join {var x : AliasVar} (hroot : classes.root x = classes.root var)
    (set : AliasSet) (limit : ℕ) : set ≤ (classes.join var set limit).may x := by
  dsimp only [join]
  rw [if_pos hroot]
  exact AliasSet.le_join_right ..

theorem merge_root (left right x y : AliasVar) :
    (classes.merge config le left right).root x = (classes.merge config le left right).root y ↔
      classes.root x = classes.root y ∨
        (classes.root x = classes.root left ∧ classes.root y = classes.root right) ∨
        (classes.root x = classes.root right ∧ classes.root y = classes.root left) := by
  unfold merge
  dsimp only
  split
  case isTrue heq =>
    rw [heq]
    constructor
    · exact Or.inl
    · rintro (h | ⟨h, h'⟩ | ⟨h, h'⟩)
      · exact h
      · exact h.trans h'.symm
      · exact h.trans h'.symm
  case isFalse hne =>
    dsimp only
    cases le (classes.root left) (classes.root right) with
    | true =>
      simp only [if_true, UnionFind.linkRoot]
      split <;> split <;> grind
    | false =>
      simp only [Bool.false_eq_true, if_false, UnionFind.linkRoot]
      split <;> split <;> grind

theorem merge_may (left right x : AliasVar) :
    (classes.merge config le left right).may x =
      if classes.root left = classes.root right then classes.may x
      else if classes.root x = classes.root left ∨ classes.root x = classes.root right then
        (classes.may left).joinWithLimit (classes.may right) config.maxAliasSetSize
      else classes.may x := by
  unfold merge
  dsimp only
  split <;> rfl

section
variable (h : classes.Uniform)
include h

theorem merge_uniform (left right : AliasVar) : (classes.merge config le left right).Uniform := by
  intro x y hxy
  rw [merge_root] at hxy
  rw [merge_may, merge_may]
  split
  case isTrue heq =>
    apply h
    obtain hxy | ⟨hx, hy⟩ | ⟨hx, hy⟩ := hxy
    · exact hxy
    · rw [hx, hy, heq]
    · rw [hx, hy, heq]
  case isFalse =>
    obtain hxy | ⟨hx, hy⟩ | ⟨hx, hy⟩ := hxy
    · rw [hxy, h _ _ hxy]
    · rw [if_pos (Or.inl hx), if_pos (Or.inr hy)]
    · rw [if_pos (Or.inr hx), if_pos (Or.inl hy)]

theorem merge_grows (left right : AliasVar) :
    classes.Grows (classes.merge config le left right) where
  root hxy := (merge_root ..).mpr (Or.inl hxy)
  may x := by
    rw [merge_may]
    split
    · exact le_refl _
    split
    case isFalse => exact le_refl _
    case isTrue hx =>
      obtain hx | hx := hx
      · rw [h _ _ hx]
        exact AliasSet.le_join_left ..
      · rw [h _ _ hx]
        exact AliasSet.le_join_right ..

theorem apply_uniform (constraint : AliasConstraint) :
    (classes.apply config le constraint).Uniform := by
  cases constraint with
  | addrOf dst target => exact join_uniform h _ _ _
  | copy dst src => exact merge_uniform h _ _
  | load dst src => exact merge_uniform h _ _
  | store dst src => exact merge_uniform h _ _
  | project dst base projection => exact join_uniform h _ _ _
  | call dst callee args site =>
    cases dst with
    | none => exact h
    | some dst => exact join_uniform h _ _ _

theorem apply_grows (constraint : AliasConstraint) :
    classes.Grows (classes.apply config le constraint) := by
  cases constraint with
  | addrOf dst target => exact join_grows ..
  | copy dst src => exact merge_grows h ..
  | load dst src => exact merge_grows h ..
  | store dst src => exact merge_grows h ..
  | project dst base projection => exact join_grows ..
  | call dst callee args site =>
    cases dst with
    | none => exact .refl _
    | some dst => exact join_grows ..

theorem foldl_apply_uniform (constraints : List AliasConstraint) :
    (constraints.foldl (apply config le) classes).Uniform := by
  induction constraints generalizing classes with
  | nil => exact h
  | cons constraint constraints ih => exact ih (apply_uniform h constraint)

theorem foldl_apply_grows (constraints : List AliasConstraint) :
    classes.Grows (constraints.foldl (apply config le) classes) := by
  induction constraints generalizing classes with
  | nil => exact .refl _
  | cons constraint constraints ih =>
    exact (apply_grows h constraint).trans (ih (apply_uniform h constraint))

end

section
variable (seeds : List (AliasVar × AliasValue))

theorem foldl_seed_root : (seeds.foldl (seed config) classes).root = classes.root := by
  induction seeds generalizing classes with
  | nil => rfl
  | cons entry seeds ih => exact ih

theorem foldl_seed_grows : classes.Grows (seeds.foldl (seed config) classes) := by
  induction seeds generalizing classes with
  | nil => exact .refl _
  | cons entry seeds ih => exact (join_grows ..).trans ih

theorem foldl_seed_seeded : Seeded seeds (seeds.foldl (seed config) classes).may := by
  induction seeds generalizing classes with
  | nil => exact List.forall_mem_nil _
  | cons first seeds ih =>
    have hfirst : first.2.may ≤ (seed config classes first).may first.1 := le_join rfl ..
    exact List.forall_mem_cons.mpr ⟨hfirst.trans ((foldl_seed_grows seeds).may _), ih⟩

end

section Run
variable {seeds : List (AliasVar × AliasValue)} {constraints : List AliasConstraint}

theorem seeds_uniform : (seeds.foldl (seed config) start).Uniform := by
  intro x y hxy
  rw [foldl_seed_root] at hxy
  exact congrArg _ hxy

theorem run_uniform : (run config le seeds constraints).Uniform :=
  foldl_apply_uniform seeds_uniform constraints

theorem run_append (constraints others : List AliasConstraint) :
    run config le seeds (constraints ++ others) =
      others.foldl (apply config le) (run config le seeds constraints) :=
  List.foldl_append

theorem run_seeded : Seeded seeds (run config le seeds constraints).may := by
  intro entry hentry
  exact (foldl_seed_seeded seeds entry hentry).trans
    ((foldl_apply_grows seeds_uniform constraints).may _)

variable {constraint : AliasConstraint}

theorem grows_of_mem {before after : List AliasConstraint}
    (h : constraints = before ++ constraint :: after) :
    ((run config le seeds before).apply config le constraint).Grows
      (run config le seeds constraints) := by
  rw [h, run_append]
  exact foldl_apply_grows (apply_uniform run_uniform constraint) after

variable {x y : AliasVar}

theorem apply_of_copied (h : constraint.copied = some (x, y)) :
    classes.apply config le constraint = classes.merge config le x y := by
  cases constraint with
  | addrOf => cases h
  | copy dst src =>
    obtain ⟨rfl, rfl⟩ := Prod.mk.inj (Option.some.inj h)
    rfl
  | load dst src =>
    obtain ⟨rfl, rfl⟩ := Prod.mk.inj (Option.some.inj h)
    rfl
  | store dst src =>
    obtain ⟨rfl, rfl⟩ := Prod.mk.inj (Option.some.inj h)
    rfl
  | project => cases h
  | call => cases h

theorem apply_root_of_not_copied (h : constraint.copied = none) :
    (classes.apply config le constraint).root = classes.root := by
  cases constraint with
  | addrOf => rfl
  | copy => cases h
  | load => cases h
  | store => cases h
  | project => rfl
  | call dst => cases dst <;> rfl

theorem root_eq_of_linked (h : Linked constraints x y) :
    (run config le seeds constraints).root x = (run config le seeds constraints).root y := by
  induction h with
  | rel x y hedge =>
    obtain ⟨constraint, hmem, hcopied⟩ := hedge
    obtain ⟨before, after, hsplit⟩ := List.append_of_mem hmem
    apply (grows_of_mem hsplit).root
    rw [apply_of_copied hcopied, merge_root]
    exact Or.inr (Or.inl ⟨rfl, rfl⟩)
  | refl x => rfl
  | symm x y _ ih => exact ih.symm
  | trans x y z _ _ ih ih' => exact ih.trans ih'

theorem root_eq_iff :
    (run config le seeds constraints).root x = (run config le seeds constraints).root y ↔
      Linked constraints x y := by
  refine ⟨fun h => ?_, root_eq_of_linked⟩
  induction constraints using List.reverseRecOn generalizing x y with
  | nil =>
    have hroot : (run config le seeds []).root = id := foldl_seed_root seeds
    rw [hroot] at h
    rw [show x = y from h]
    exact .refl y
  | append_singleton constraints constraint ih =>
    have hsub : ∀ c ∈ constraints, c ∈ constraints ++ [constraint] :=
      fun c hc => List.mem_append_left _ hc
    rw [run_append, List.foldl_cons, List.foldl_nil] at h
    cases hcopied : constraint.copied with
    | none =>
      rw [apply_root_of_not_copied hcopied] at h
      exact (ih h).mono hsub
    | some edge =>
      obtain ⟨left, right⟩ := edge
      have hedge : Linked (constraints ++ [constraint]) left right :=
        .rel _ _ ⟨constraint, List.mem_append_right _ (List.mem_singleton_self _), hcopied⟩
      rw [apply_of_copied hcopied, merge_root] at h
      obtain h | ⟨hx, hy⟩ | ⟨hx, hy⟩ := h
      · exact (ih h).mono hsub
      · exact ((ih hx).mono hsub).trans (hedge.trans ((ih hy).mono hsub).symm)
      · exact ((ih hx).mono hsub).trans (hedge.symm.trans ((ih hy).mono hsub).symm)

end Run
end Classes

/-- The sets that a list starts from are within the limit. -/
structure WithinLimit (config : AliasPrecisionConfig) (seeds : List (AliasVar × AliasValue))
    (constraints : List AliasConstraint) : Prop where
  seeds : ∀ entry ∈ seeds, entry.2.may.Within config.maxAliasSetSize
  addrOf : ∀ dst target, .addrOf dst target ∈ constraints → 1 ≤ config.maxAliasSetSize

namespace WithinLimit
variable {config : AliasPrecisionConfig} {seeds : List (AliasVar × AliasValue)}
  {constraints others : List AliasConstraint}

theorem mono (h : WithinLimit config seeds constraints) (hsub : ∀ c ∈ others, c ∈ constraints) :
    WithinLimit config seeds others where
  seeds := h.seeds
  addrOf dst target hmem := h.addrOf dst target (hsub _ hmem)

theorem target (h : WithinLimit config seeds constraints) {dst : AliasVar} {target : Place}
    (hmem : .addrOf dst target ∈ constraints) :
    (AliasSet.known {target}).Within config.maxAliasSetSize := by
  change ({target} : Finset Place).card ≤ _
  rw [Finset.card_singleton]
  exact h.addrOf dst target hmem

end WithinLimit

namespace Classes
variable {config : AliasPrecisionConfig} {le : AliasVar → AliasVar → Bool} {classes : Classes}
  {seeds : List (AliasVar × AliasValue)} {constraints : List AliasConstraint}

theorem join_within {limit : ℕ} (h : ∀ x, (classes.may x).Within limit) (var : AliasVar)
    {set : AliasSet} (hset : set.Within limit) (x : AliasVar) :
    ((classes.join var set limit).may x).Within limit := by
  dsimp only [join]
  split
  · exact AliasSet.join_within (h x) hset
  · exact h x

theorem run_within (h : WithinLimit config seeds constraints) (x : AliasVar) :
    ((run config le seeds constraints).may x).Within config.maxAliasSetSize := by
  have hmerge : ∀ classes : Classes, (∀ x, (classes.may x).Within config.maxAliasSetSize) →
      ∀ left right x, ((classes.merge config le left right).may x).Within
        config.maxAliasSetSize := by
    intro classes hclasses left right x
    rw [merge_may]
    split
    · exact hclasses x
    split
    · exact AliasSet.join_within (hclasses left) (hclasses right)
    · exact hclasses x
  have hseeds : ∀ classes : Classes, (∀ x, (classes.may x).Within config.maxAliasSetSize) →
      ∀ x, ((seeds.foldl (seed config) classes).may x).Within config.maxAliasSetSize := by
    have hseeds := h.seeds
    clear h
    induction seeds with
    | nil => exact fun classes hclasses => hclasses
    | cons entry seeds ih =>
      intro classes hclasses
      exact ih (fun other hother => hseeds other (List.mem_cons_of_mem _ hother)) _
        (join_within hclasses entry.1 (hseeds entry List.mem_cons_self))
  induction constraints using List.reverseRecOn generalizing x with
  | nil => exact hseeds start (fun _ => trivial) x
  | append_singleton constraints constraint ih =>
    have hmem := List.mem_append_right constraints (List.mem_singleton_self constraint)
    have hbefore := ih (h.mono fun c hc => List.mem_append_left _ hc)
    rw [run_append, List.foldl_cons, List.foldl_nil]
    cases constraint with
    | addrOf dst target => exact join_within hbefore dst (h.target hmem) x
    | copy dst src => exact hmerge _ hbefore dst src x
    | load dst src => exact hmerge _ hbefore dst src x
    | store dst src => exact hmerge _ hbefore dst src x
    | project dst base projection => exact join_within hbefore dst AliasValue.project_within x
    | call dst callee args site =>
      cases dst with
      | none => exact hbefore x
      | some dst => exact join_within hbefore dst (by trivial) x

theorem has_of_arrives (h : WithinLimit config seeds constraints) {x : AliasVar}
    (harrives : Arrives config seeds constraints x item) :
    ((run config le seeds constraints).may x).Has item := by
  have hjoined {constraints before after : List AliasConstraint} {constraint : AliasConstraint}
      (hsplit : constraints = before ++ constraint :: after) {set : AliasSet} {x dst : AliasVar}
      (happly : (run config le seeds before).apply config le constraint =
        (run config le seeds before).join dst set config.maxAliasSetSize)
      (hlink : Linked constraints x dst) {item : Item} (hitem : set.Has item) :
      ((run config le seeds constraints).may x).Has item := by
    have hle : set ≤ (run config le seeds constraints).may dst := by
      refine le_trans ?_ ((grows_of_mem hsplit).may dst)
      rw [happly]
      exact le_join rfl set _
    rw [run_uniform _ _ (root_eq_of_linked hlink)]
    exact AliasSet.le_iff_has.mp hle item hitem
  induction harrives with
  | seed hmem hitem hlink =>
    rw [run_uniform _ _ (root_eq_of_linked hlink)]
    exact AliasSet.le_iff_has.mp (run_seeded _ hmem) _ hitem
  | addrOf hmem hitem hlink =>
    obtain ⟨before, after, hsplit⟩ := List.append_of_mem hmem
    exact hjoined hsplit rfl hlink hitem
  | @project constraints before dst base projection after var item hsplit hbase hlink ih =>
    have hbefore : ∀ c ∈ before, c ∈ constraints := fun c hc => by
      rw [hsplit]
      exact List.mem_append_left _ hc
    exact hjoined hsplit rfl hlink (AliasSet.has_project_of_has (ih (h.mono hbefore)))
  | call hmem hlink =>
    obtain ⟨before, after, hsplit⟩ := List.append_of_mem hmem
    exact hjoined hsplit rfl hlink (AliasSet.has_unknown _)
  | all _ ih => exact (AliasSet.saturated (run_within h _)).all (ih h) _
  | crowd places hcard _ ih =>
    exact (AliasSet.saturated (run_within h _)).crowd places hcard fun place hplace =>
      ih place hplace h

theorem arrives_of_has_seeds {others : List (AliasVar × AliasValue)}
    (hsub : ∀ entry ∈ others, entry ∈ seeds) (hroot : classes.root = id)
    (hclasses : ∀ x item, (classes.may x).Has item → Arrives config seeds [] x item) :
    ∀ x item, ((others.foldl (seed config) classes).may x).Has item →
      Arrives config seeds [] x item := by
  induction others generalizing classes with
  | nil => exact hclasses
  | cons entry others ih =>
    refine ih (fun other hother => hsub other (List.mem_cons_of_mem _ hother)) hroot ?_
    intro x item hitem
    dsimp only [seed, join] at hitem
    split at hitem
    case isTrue hx =>
      rw [hroot] at hx
      obtain rfl : x = entry.1 := hx
      exact AliasSet.has_join (Arrives.saturated [] entry.1) (hclasses entry.1)
        (fun item h => .seed (hsub entry List.mem_cons_self) h (.refl _)) hitem
    case isFalse => exact hclasses x item hitem

theorem arrives_of_has {x : AliasVar} (h : ((run config le seeds constraints).may x).Has item) :
    Arrives config seeds constraints x item := by
  induction constraints using List.reverseRecOn generalizing x item with
  | nil =>
    have hstart : ∀ x item, (start.may x).Has item → Arrives config seeds [] x item :=
      fun _ _ hitem => False.elim hitem
    exact arrives_of_has_seeds (fun _ hentry => hentry) rfl hstart x item h
  | append_singleton constraints constraint ih =>
    have hmem := List.mem_append_right constraints (List.mem_singleton_self constraint)
    have hsub : ∀ c ∈ constraints, c ∈ constraints ++ [constraint] :=
      fun c hc => List.mem_append_left _ hc
    have hold {y : AliasVar} (hy : Linked (constraints ++ [constraint]) x y) (item : Item)
        (hitem : ((run config le seeds constraints).may y).Has item) :
        Arrives config seeds (constraints ++ [constraint]) x item :=
      ((ih hitem).append [constraint]).linked hy
    have hsat : Saturated config.maxAliasSetSize
        (Arrives config seeds (constraints ++ [constraint]) x) := Arrives.saturated _ x
    -- a set that joins the class of a variable
    have hjoin {dst : AliasVar} {set : AliasSet}
        (hset : Linked (constraints ++ [constraint]) x dst → ∀ item, set.Has item →
          Arrives config seeds (constraints ++ [constraint]) x item)
        (h : (((run config le seeds constraints).join dst set config.maxAliasSetSize).may x).Has
          item) : Arrives config seeds (constraints ++ [constraint]) x item := by
      dsimp only [join] at h
      split at h
      case isTrue hroot =>
        have hlink := (root_eq_iff.mp hroot).mono hsub
        exact AliasSet.has_join hsat (hold (.refl x)) (hset hlink) h
      case isFalse => exact hold (.refl x) item h
    have hmerge {left right : AliasVar} (hcopied : constraint.copied = some (left, right))
        (h : (((run config le seeds constraints).merge config le left right).may x).Has item) :
        Arrives config seeds (constraints ++ [constraint]) x item := by
      have hedge : Linked (constraints ++ [constraint]) left right :=
        .rel _ _ ⟨constraint, hmem, hcopied⟩
      rw [merge_may] at h
      split at h
      · exact hold (.refl x) item h
      split at h
      case isTrue hroot =>
        have hx : Linked (constraints ++ [constraint]) x left := by
          obtain hroot | hroot := hroot
          · exact (root_eq_iff.mp hroot).mono hsub
          · exact ((root_eq_iff.mp hroot).mono hsub).trans hedge.symm
        exact AliasSet.has_join hsat (hold hx) (hold (hx.trans hedge)) h
      case isFalse => exact hold (.refl x) item h
    rw [run_append, List.foldl_cons, List.foldl_nil] at h
    cases constraint with
    | addrOf dst target => exact hjoin (fun hlink item hitem => .addrOf hmem hitem hlink) h
    | copy dst src => exact hmerge rfl h
    | load dst src => exact hmerge rfl h
    | store dst src => exact hmerge rfl h
    | project dst base projection =>
      refine hjoin (fun hlink item hitem => AliasSet.has_project hsat (fun item h => ?_) hitem) h
      exact .project rfl (ih h) hlink
    | call dst callee args site =>
      cases dst with
      | none => exact hold (.refl x) item h
      | some dst => exact hjoin (fun hlink item _ => .call hmem hlink) h

end Classes
end EtasFrontend.Alias
