import EtasFrontend.Effects.Registration
import EtasFrontend.Lib.Fallible

/-! Which requirement a tag ends up with, for every order of registration. -/
namespace EtasFrontend.Effects
open Lib EtasFrontend.Types Relation

/-- One registration after the standard library: a new tag, or an extension between two tags. -/
inductive Registration where
  | tag (id : EffectTagId) (name : String) (requirement : Option RuntimeRequirementReason)
  | extension (child parent : EffectTagId)

/-- Only what the requirements depend on. -/
def EffectRegistry.SameTags (r r' : EffectRegistry) : Prop :=
  r'.tags = r.tags ∧ r'.extensions = r.extensions

/-- The registry reached from `start` by a list of registrations. A tag is new when it is
registered, and an extension is between registered tags: others are skipped by the callers. -/
inductive Registered (start : EffectRegistry) : List Registration → EffectRegistry → Prop
  | start : Registered start [] start
  | tag {ops : List Registration} {r : EffectRegistry} {id : EffectTagId} (name : String)
      (requirement : Option RuntimeRequirementReason) (h : Registered start ops r)
      (hid : r.tags.get id = none) :
      Registered start (ops ++ [.tag id name requirement]) (r.registerTag id name requirement)
  | extension {ops : List Registration} {r : EffectRegistry} {child parent : EffectTagId}
      (h : Registered start ops r) (hc : (r.tags.get child).isSome)
      (hp : (r.tags.get parent).isSome) :
      Registered start (ops ++ [.extension child parent]) (r.addExtension child parent)
  | same {ops : List Registration} {r r' : EffectRegistry} (h : Registered start ops r)
      (hs : r.SameTags r') : Registered start ops r'

section Spec
variable (start : EffectRegistry)

/-- The requirement the tag is registered with. -/
def Own (ops : List Registration) (t : EffectTagId) (q : RuntimeRequirementReason) : Prop :=
  start.runtimeRequirementReason t = some q ∨ ∃ name, .tag t name (some q) ∈ ops

/-- `q` is the requirement of a nearest tag with one of its own, on the way up from `t`. -/
inductive Visible (ops : List Registration) : EffectTagId → RuntimeRequirementReason → Prop
  | own {t : EffectTagId} {q : RuntimeRequirementReason} (h : Own start ops t q) : Visible ops t q
  | step {t p : EffectTagId} {q : RuntimeRequirementReason} (ht : ∀ q', ¬ Own start ops t q')
      (he : .extension t p ∈ ops) (hp : Visible ops p q) : Visible ops t q

/-- Some chain of extensions from `t` to a tag with a requirement of its own was registered from
that tag downwards. -/
inductive Fed : List Registration → EffectTagId → Prop
  | own {ops : List Registration} {t : EffectTagId} {q : RuntimeRequirementReason}
      (h : Own start ops t q) : Fed ops t
  | step {ops ops' : List Registration} {t p : EffectTagId} (h : Fed ops p) :
      Fed (ops ++ .extension t p :: ops') t

end Spec

variable {t c p : EffectTagId}

namespace EffectRegistry

/-- A tag with an extension has a requirement: so it is after the standard library. -/
def Settled (r : EffectRegistry) : Prop :=
  ∀ c, r.extensions.parentsOf c ≠ [] → (r.runtimeRequirementReason c).isSome

theorem runtimeRequirementReason_isSome {r : EffectRegistry}
    (h : (r.runtimeRequirementReason t).isSome) : (r.tags.get t).isSome := by
  unfold runtimeRequirementReason at h
  cases ht : r.tags.get t with
  | none => simp [ht] at h
  | some tag => rfl

theorem get_giveRequirement (r : EffectRegistry) (id : EffectTagId)
    (requirement : Option RuntimeRequirementReason) (t : EffectTagId) :
    (r.giveRequirement id requirement).tags.get t = if t = id then
      (r.tags.get id).map fun tag =>
        { tag with runtimeRequirement := tag.runtimeRequirement.or requirement }
      else r.tags.get t := by
  unfold giveRequirement
  split
  · rename_i h
    split_ifs with ht
    · rw [ht, h]
      rfl
    · rfl
  · rename_i tag h
    rw [Map.get_insert, h]
    rfl

theorem giveRequirement_frame (r : EffectRegistry) (id : EffectTagId)
    (requirement : Option RuntimeRequirementReason) :
    (r.giveRequirement id requirement).extensions = r.extensions ∧
      (r.giveRequirement id requirement).names = r.names ∧
      (r.giveRequirement id requirement).symbolTags = r.symbolTags := by
  unfold giveRequirement
  split
  · exact ⟨rfl, rfl, rfl⟩
  · exact ⟨rfl, rfl, rfl⟩

theorem isSome_giveRequirement (r : EffectRegistry) (id : EffectTagId)
    (requirement : Option RuntimeRequirementReason) (t : EffectTagId) :
    ((r.giveRequirement id requirement).tags.get t).isSome = (r.tags.get t).isSome := by
  rw [get_giveRequirement]
  split_ifs with ht
  · rw [ht, Option.isSome_map]
  · rfl

theorem isSome_addExtension (r : EffectRegistry) (c p t : EffectTagId) :
    ((r.addExtension c p).tags.get t).isSome = (r.tags.get t).isSome :=
  isSome_giveRequirement ..

theorem requirement_addExtension {r : EffectRegistry} (hc : (r.tags.get c).isSome)
    (t : EffectTagId) :
    (r.addExtension c p).runtimeRequirementReason t =
      if t = c then (r.runtimeRequirementReason c).or (r.runtimeRequirementReason p)
      else r.runtimeRequirementReason t := by
  obtain ⟨tag, htag⟩ := Option.isSome_iff_exists.mp hc
  rw [runtimeRequirementReason, addExtension, get_giveRequirement]
  split_ifs with ht
  · simp [runtimeRequirementReason, htag]
  · rfl

theorem requirement_registerTag (r : EffectRegistry) (id : EffectTagId) (name : String)
    (requirement : Option RuntimeRequirementReason) (t : EffectTagId) :
    (r.registerTag id name requirement).runtimeRequirementReason t =
      if t = id then requirement else r.runtimeRequirementReason t := by
  rw [runtimeRequirementReason, registerTag, Map.get_insert]
  split_ifs
  · rfl
  · rfl

theorem mem_parentsOf_addExtension (r : EffectRegistry) (c p c' p' : EffectTagId) :
    p' ∈ (r.addExtension c p).extensions.parentsOf c' ↔
      p' ∈ r.extensions.parentsOf c' ∨ (c' = c ∧ p' = p) := by
  rw [addExtension, (giveRequirement_frame _ _ _).1]
  exact r.extensions.mem_parentsOf_addExtension c p c' p'

end EffectRegistry

variable {id : EffectTagId}

open EffectRegistry

section Run
variable {start : EffectRegistry} {ops ops' : List Registration} {r : EffectRegistry}
variable {q : RuntimeRequirementReason}

theorem Own.mono (h : ∀ op ∈ ops, op ∈ ops') (ho : Own start ops t q) : Own start ops' t q := by
  rcases ho with ho | ⟨name, ho⟩
  · exact Or.inl ho
  · exact Or.inr ⟨name, h _ ho⟩

theorem Visible.mono (h : ∀ op ∈ ops, op ∈ ops')
    (hown : ∀ t p q, .extension t p ∈ ops → Own start ops' t q → Own start ops t q)
    (hv : Visible start ops t q) :
    Visible start ops' t q := by
  induction hv with
  | own ho => exact .own (ho.mono h)
  | step ht he _ ih => exact .step (fun q' ho => ht q' (hown _ _ q' he ho)) (h _ he) ih

/-- What holds along every run. -/
structure RunInv (start : EffectRegistry) (ops : List Registration) (r : EffectRegistry) : Prop where
  declared : ∀ t, (r.tags.get t).isSome ↔
    (start.tags.get t).isSome ∨ ∃ name q, .tag t name q ∈ ops
  ends : ∀ c p, .extension c p ∈ ops → (r.tags.get c).isSome ∧ (r.tags.get p).isSome
  edges : ∀ c p, p ∈ r.extensions.parentsOf c ↔
    p ∈ start.extensions.parentsOf c ∨ .extension c p ∈ ops
  own : ∀ t q, Own start ops t q → r.runtimeRequirementReason t = some q
  visible : ∀ t q, r.runtimeRequirementReason t = some q → Visible start ops t q

theorem RunInv.declared_of_own (h : RunInv start ops r) (ho : Own start ops t q) :
    (r.tags.get t).isSome := by
  rw [h.declared]
  rcases ho with ho | ⟨name, ho⟩
  · exact Or.inl (runtimeRequirementReason_isSome (by simp [ho]))
  · exact Or.inr ⟨name, some q, ho⟩

theorem RunInv.registerTag (h : RunInv start ops r) (hid : r.tags.get id = none) (name : String)
    (requirement : Option RuntimeRequirementReason) :
    RunInv start (ops ++ [.tag id name requirement]) (r.registerTag id name requirement) := by
  have hget : ∀ t, ((r.registerTag id name requirement).tags.get t).isSome ↔
      t = id ∨ (r.tags.get t).isSome := by
    intro t
    rw [EffectRegistry.registerTag, Map.get_insert]
    by_cases ht : t = id
    · simp [ht]
    · simp [ht]
  have hown : ∀ t q, Own start (ops ++ [.tag id name requirement]) t q →
      Own start ops t q ∨ (t = id ∧ requirement = some q) := by
    rintro t q (ho | ⟨n, ho⟩)
    · exact Or.inl (Or.inl ho)
    · rcases List.mem_append.mp ho with ho | ho
      · exact Or.inl (Or.inr ⟨n, ho⟩)
      · cases List.mem_singleton.mp ho
        exact Or.inr ⟨rfl, rfl⟩
  have hfresh : ∀ t, (r.tags.get t).isSome → t ≠ id := by
    rintro t ht rfl
    simp [hid] at ht
  constructor
  · intro t
    rw [hget, h.declared]
    constructor
    · rintro (rfl | hs | ⟨n, q, hm⟩)
      · exact Or.inr ⟨name, requirement, by simp⟩
      · exact Or.inl hs
      · exact Or.inr ⟨n, q, List.mem_append_left _ hm⟩
    · rintro (hs | ⟨n, q, hm⟩)
      · exact Or.inr (Or.inl hs)
      · rcases List.mem_append.mp hm with hm | hm
        · exact Or.inr (Or.inr ⟨n, q, hm⟩)
        · cases List.mem_singleton.mp hm
          exact Or.inl rfl
  · intro c p hm
    rcases List.mem_append.mp hm with hm | hm
    · exact ⟨(hget c).mpr (Or.inr (h.ends c p hm).1), (hget p).mpr (Or.inr (h.ends c p hm).2)⟩
    · cases List.mem_singleton.mp hm
  · intro c p
    simpa [EffectRegistry.registerTag] using h.edges c p
  · intro t q ho
    rw [requirement_registerTag]
    rcases hown t q ho with ho | ⟨rfl, hq⟩
    · rw [if_neg (hfresh t (h.declared_of_own ho)), h.own t q ho]
    · rw [if_pos rfl, hq]
  · intro t q hq
    rw [requirement_registerTag] at hq
    split_ifs at hq with ht
    · subst ht hq
      exact .own (Or.inr ⟨name, by simp⟩)
    · refine (h.visible t q hq).mono (fun op hop => List.mem_append_left _ hop) ?_
      intro t' p q' he ho
      rcases hown t' q' ho with ho | ⟨rfl, -⟩
      · exact ho
      · exact absurd rfl (hfresh _ (h.ends t' p he).1)

theorem RunInv.addExtension (h : RunInv start ops r) (hc : (r.tags.get c).isSome)
    (hp : (r.tags.get p).isSome) :
    RunInv start (ops ++ [.extension c p]) (r.addExtension c p) := by
  have hown : ∀ t q, Own start (ops ++ [.extension c p]) t q → Own start ops t q := by
    rintro t q (ho | ⟨n, ho⟩)
    · exact Or.inl ho
    · exact Or.inr ⟨n, by simpa using ho⟩
  have hmono : ∀ t q, Visible start ops t q → Visible start (ops ++ [.extension c p]) t q :=
    fun t q hv => hv.mono (fun op hop => List.mem_append_left _ hop) fun t' _ q' _ ho => hown t' q' ho
  constructor
  · intro t
    rw [isSome_addExtension, h.declared]
    simp
  · intro c' p' hm
    rw [isSome_addExtension, isSome_addExtension]
    rcases List.mem_append.mp hm with hm | hm
    · exact h.ends c' p' hm
    · cases List.mem_singleton.mp hm
      exact ⟨hc, hp⟩
  · intro c' p'
    rw [mem_parentsOf_addExtension, h.edges]
    simp [or_assoc]
  · intro t q ho
    rw [requirement_addExtension hc]
    split_ifs with ht
    · rw [← ht, h.own t q (hown t q ho)]
      rfl
    · exact h.own t q (hown t q ho)
  · intro t q hq
    rw [requirement_addExtension hc] at hq
    split_ifs at hq with ht
    · subst ht
      cases hr : r.runtimeRequirementReason t with
      | some q' =>
        rw [hr, Option.some_or] at hq
        exact hmono t q (h.visible t q (hr.trans hq))
      | none =>
        rw [hr, Option.none_or] at hq
        refine .step (fun q' ho => ?_) (by simp) (hmono p q (h.visible p q hq))
        rw [h.own t q' (hown t q' ho)] at hr
        cases hr
    · exact hmono t q (h.visible t q hq)

theorem Registered.inv (h : Registered start ops r) : RunInv start ops r := by
  induction h with
  | start =>
    refine ⟨by simp, by simp, by simp, ?_, fun t q hq => .own (Or.inl hq)⟩
    rintro t q (ho | ⟨n, ho⟩)
    · exact ho
    · simp at ho
  | tag name requirement _ hid ih => exact ih.registerTag hid name requirement
  | extension _ hc hp ih => exact ih.addExtension hc hp
  | same _ hs ih =>
    obtain ⟨ht, he⟩ := hs
    have hreq := fun t => congrArg (fun tags => (Map.get tags t).bind EffectTag.runtimeRequirement) ht
    exact ⟨fun t => ht ▸ ih.declared t, fun c p hm => ht ▸ ih.ends c p hm,
      fun c p => he ▸ ih.edges c p, fun t q ho => (hreq t).trans (ih.own t q ho),
      fun t q hq => ih.visible t q ((hreq t).symm.trans hq)⟩

theorem EffectRegistry.SameTags.requirement {r r' : EffectRegistry} (h : r.SameTags r')
    (t : EffectTagId) : r'.runtimeRequirementReason t = r.runtimeRequirementReason t := by
  rw [runtimeRequirementReason, runtimeRequirementReason, h.1]

theorem Registered.keeps_of_append {before after : List Registration}
    (h : Registered start (before ++ after) r) :
    ∃ r₁, Registered start before r₁ ∧ ∀ t q, r₁.runtimeRequirementReason t = some q →
      r.runtimeRequirementReason t = some q := by
  generalize hl : before ++ after = l at h
  induction h generalizing after with
  | start =>
    obtain ⟨rfl, rfl⟩ := List.append_eq_nil_iff.mp hl
    exact ⟨start, .start, fun _ _ hq => hq⟩
  | @tag ops r id name requirement h hid ih =>
    rcases List.eq_nil_or_concat after with rfl | ⟨after', op, rfl⟩
    · rw [List.append_nil] at hl
      exact ⟨_, hl ▸ .tag name requirement h hid, fun _ _ hq => hq⟩
    · rw [List.concat_eq_append, ← List.append_assoc] at hl
      obtain ⟨r₁, hr₁, hkeep⟩ := ih (List.append_inj_left' hl rfl)
      refine ⟨r₁, hr₁, fun t q hq => ?_⟩
      have hne : t ≠ id := by
        rintro rfl
        have := runtimeRequirementReason_isSome
          (Option.isSome_iff_exists.mpr ⟨q, hkeep t q hq⟩)
        simp [hid] at this
      rw [requirement_registerTag, if_neg hne, hkeep t q hq]
  | @extension ops r c p h hc hp ih =>
    rcases List.eq_nil_or_concat after with rfl | ⟨after', op, rfl⟩
    · rw [List.append_nil] at hl
      exact ⟨_, hl ▸ .extension h hc hp, fun _ _ hq => hq⟩
    · rw [List.concat_eq_append, ← List.append_assoc] at hl
      obtain ⟨r₁, hr₁, hkeep⟩ := ih (List.append_inj_left' hl rfl)
      refine ⟨r₁, hr₁, fun t q hq => ?_⟩
      rw [requirement_addExtension hc]
      split_ifs with ht
      · rw [← ht, hkeep t q hq]
        rfl
      · exact hkeep t q hq
  | same h hs ih =>
    obtain ⟨r₁, hr₁, hkeep⟩ := ih hl
    exact ⟨r₁, hr₁, fun t q hq => (hs.requirement t).trans (hkeep t q hq)⟩

theorem Registered.last_extension {t p : EffectTagId}
    (h : Registered start (ops ++ [.extension t p]) r) :
    ∃ r₁, Registered start ops r₁ ∧
      ((r₁.runtimeRequirementReason p).isSome → (r.runtimeRequirementReason t).isSome) := by
  generalize hl : ops ++ [.extension t p] = l at h
  induction h with
  | start => simp at hl
  | @tag ops' r id name requirement h hid ih =>
    cases List.append_inj_right' hl rfl
  | @extension ops' r c p' h hc hp ih =>
    obtain ⟨rfl, hop⟩ := List.append_inj' hl rfl
    cases hop
    refine ⟨r, h, fun hsome => ?_⟩
    rw [requirement_addExtension hc, if_pos rfl, Option.isSome_or, hsome,
      Bool.or_true]
  | same h hs ih =>
    obtain ⟨r₁, hr₁, hgive⟩ := ih hl
    exact ⟨r₁, hr₁, fun hsome => (hs.requirement t).symm ▸ hgive hsome⟩

theorem Fed.requirement (hf : Fed start ops t) (h : Registered start ops r) :
    (r.runtimeRequirementReason t).isSome := by
  induction hf generalizing r with
  | own ho => rw [h.inv.own _ _ ho]; rfl
  | @step ops ops' t p _ ih =>
    rw [← List.singleton_append, ← List.append_assoc] at h
    obtain ⟨r₂, hr₂, hkeep⟩ := h.keeps_of_append
    obtain ⟨r₁, hr₁, hgive⟩ := hr₂.last_extension
    obtain ⟨q, hq⟩ := Option.isSome_iff_exists.mp (hgive (ih hr₁))
    rw [hkeep t q hq]
    rfl

theorem Registered.exists_visible_iff (hs : start.Settled) (h : Registered start ops r)
    (t : EffectTagId) :
    (∃ q, Visible start ops t q) ↔ ∃ a q, r.tagExtends t a = true ∧ Own start ops a q := by
  simp only [tagExtends, ExtensionGraph.extendsTag_iff]
  constructor
  · rintro ⟨q, hv⟩
    induction hv with
    | own ho => exact ⟨_, _, .refl, ho⟩
    | step _ he _ ih =>
      obtain ⟨a, q', ha, ho⟩ := ih
      exact ⟨a, q', .head ((h.inv.edges _ _).mpr (Or.inr he)) ha, ho⟩
  · rintro ⟨a, q, ha, ho⟩
    induction ha using ReflTransGen.head_induction_on with
    | refl => exact ⟨q, .own ho⟩
    | @head c p hcp _ ih =>
      by_cases hc : ∃ q', Own start ops c q'
      · obtain ⟨q', hq'⟩ := hc
        exact ⟨q', .own hq'⟩
      · obtain ⟨q', hv⟩ := ih
        rcases (h.inv.edges c p).mp hcp with hstart | hop
        · have hsome := hs c (List.ne_nil_of_mem hstart)
          obtain ⟨q'', hq''⟩ := Option.isSome_iff_exists.mp hsome
          exact absurd ⟨q'', Or.inl hq''⟩ hc
        · exact ⟨q', .step (fun q'' ho' => hc ⟨q'', ho'⟩) hop hv⟩

theorem Own.perm (hp : ops.Perm ops') : Own start ops t q ↔ Own start ops' t q :=
  ⟨fun h => h.mono fun _ hop => hp.mem_iff.mp hop, fun h => h.mono fun _ hop => hp.mem_iff.mpr hop⟩

theorem Visible.perm (hp : ops.Perm ops') (h : Visible start ops t q) : Visible start ops' t q :=
  h.mono (fun _ hop => hp.mem_iff.mp hop) fun _ _ _ _ ho => (Own.perm hp).mpr ho

/-- A tag keeps the requirement it is registered with. Any other requirement is that of a nearest
tag it extends, and it has one as soon as a chain to such a tag was registered downwards. Where
the nearest tags agree, all these orders give the same. -/
theorem registered_requirement (hs : start.Settled) (h : Registered start ops r)
    (t : EffectTagId) :
    (∀ q, Own start ops t q → r.runtimeRequirementReason t = some q) ∧
    ((∃ q, Visible start ops t q) ↔ ∃ a q, r.tagExtends t a = true ∧ Own start ops a q) ∧
    (∀ q, r.runtimeRequirementReason t = some q → Visible start ops t q) ∧
    (Fed start ops t → ∃ q, r.runtimeRequirementReason t = some q ∧ Visible start ops t q) ∧
    (∀ ops' r', ops.Perm ops' → Registered start ops' r' → Fed start ops t → Fed start ops' t →
      (∀ q q', Visible start ops t q → Visible start ops t q' → q = q') →
      r'.runtimeRequirementReason t = r.runtimeRequirementReason t) := by
  refine ⟨h.inv.own t, h.exists_visible_iff hs t, h.inv.visible t, fun hf => ?_, ?_⟩
  · obtain ⟨q, hq⟩ := Option.isSome_iff_exists.mp (hf.requirement h)
    exact ⟨q, hq, h.inv.visible t q hq⟩
  · intro ops' r' hp h' hf hf' hagree
    obtain ⟨q, hq⟩ := Option.isSome_iff_exists.mp (hf.requirement h)
    obtain ⟨q', hq'⟩ := Option.isSome_iff_exists.mp (hf'.requirement h')
    have heq := hagree q q' (h.inv.visible t q hq) ((h'.inv.visible t q' hq').perm hp.symm)
    rw [hq, hq', heq]

end Run

section Build
variable {start : EffectRegistry} {r r' : EffectRegistry}

namespace EffectRegistry

/-- Names and symbols stand for registered tags. -/
structure Named (r : EffectRegistry) : Prop where
  names : ∀ name id, r.names.get name = some id → (r.tags.get id).isSome
  symbols : ∀ symbol id, r.symbolTags.get symbol = some id → (r.tags.get id).isSome

theorem Named.tagByPath (h : r.Named) {path : List String} (hp : r.tagByPath path = some id) :
    (r.tags.get id).isSome := by
  rcases Option.or_eq_some_iff.mp hp with hq | ⟨-, hq⟩
  · exact h.names _ id hq
  · split at hq
    · exact h.names _ id hq
    · cases hq

theorem Named.giveRequirement (h : r.Named) (id : EffectTagId)
    (requirement : Option RuntimeRequirementReason) : (r.giveRequirement id requirement).Named := by
  obtain ⟨-, hnames, hsymbols⟩ := giveRequirement_frame r id requirement
  constructor
  · intro n t ht
    rw [isSome_giveRequirement]
    exact h.names n t (hnames ▸ ht)
  · intro n t ht
    rw [isSome_giveRequirement]
    exact h.symbols n t (hsymbols ▸ ht)

theorem Named.addExtension (h : r.Named) (c p : EffectTagId) : (r.addExtension c p).Named :=
  Named.giveRequirement (r := { r with extensions := r.extensions.addExtension c p })
    ⟨h.names, h.symbols⟩ c _

theorem get_nextDynamicTag (r : EffectRegistry) (h : (r.tags.get id).isSome) :
    id < r.nextDynamicTag := by
  have hkey : id ∈ r.tags.keys := AList.lookup_isSome.mp h
  unfold nextDynamicTag
  cases hmax : r.tags.keys.max? with
  | none =>
    rw [List.max?_eq_none_iff.mp hmax] at hkey
    cases hkey
  | some m =>
    have hle : id ≤ m := (List.max?_eq_some_iff.mp hmax).2 id hkey
    exact Nat.lt_of_lt_of_le (Nat.lt_succ_of_le hle) (le_max_left _ _)

end EffectRegistry

/-- The registry reached so far is one some list of registrations leads to. -/
structure Built (start r : EffectRegistry) : Prop where
  run : ∃ ops, Registered start ops r
  named : r.Named

section
variable (h : Built start r)
include h

theorem Built.registerTag (hid : r.tags.get id = none) (name : String)
    (requirement : Option RuntimeRequirementReason) :
    Built start (r.registerTag id name requirement) := by
  obtain ⟨ops, hops⟩ := h.run
  have hkeep : ∀ t, (r.tags.get t).isSome →
      ((r.registerTag id name requirement).tags.get t).isSome := by
    intro t ht
    rw [EffectRegistry.registerTag, Map.get_insert]
    split_ifs
    · rfl
    · exact ht
  exact ⟨⟨_, .tag name requirement hops hid⟩,
    ⟨fun n t ht => hkeep t (h.named.names n t ht), fun n t ht => hkeep t (h.named.symbols n t ht)⟩⟩

theorem Built.addExtension (hc : (r.tags.get c).isSome)
    (hp : (r.tags.get p).isSome) : Built start (r.addExtension c p) := by
  obtain ⟨ops, hops⟩ := h.run
  exact ⟨⟨_, .extension hops hc hp⟩, h.named.addExtension c p⟩

theorem Built.same (hs : r.SameTags r')
    (hn : ∀ name id, r'.names.get name = some id →
      r.names.get name = some id ∨ (r.tags.get id).isSome)
    (hy : ∀ symbol id, r'.symbolTags.get symbol = some id →
      r.symbolTags.get symbol = some id ∨ (r.tags.get id).isSome) : Built start r' := by
  obtain ⟨ops, hops⟩ := h.run
  refine ⟨⟨ops, .same hops hs⟩, ⟨fun name id hid => ?_, fun symbol id hid => ?_⟩⟩
  · rw [hs.1]
    exact (hn name id hid).elim (h.named.names name id) fun hs => hs
  · rw [hs.1]
    exact (hy symbol id hid).elim (h.named.symbols symbol id) fun hs => hs

theorem Built.registerDependencyTag {tag : DependencyEffectTag}
    (hr : r.registerDependencyTag tag = .ok r') : Built start r' := by
  unfold EffectRegistry.registerDependencyTag at hr
  split at hr
  · cases hr
  · split at hr
    · cases hr
      exact h
    · cases hr
      rename_i name _ _ _
      have hid : r.tags.get r.nextDynamicTag = none := by
        by_contra hne
        exact Nat.lt_irrefl _ (r.get_nextDynamicTag (Option.isSome_iff_ne_none.mpr hne))
      refine (h.registerTag hid name tag.runtimeRequirement).same ⟨rfl, rfl⟩ ?_ fun _ _ => Or.inl
      intro n id hn
      rw [Map.get_insert] at hn
      split_ifs at hn
      · cases hn
        exact Or.inr (by simp [EffectRegistry.registerTag])
      · exact Or.inl hn

theorem Built.registerDependencyActionDecl {action : DependencyEffectAction}
    (hr : r.registerDependencyActionDecl action = .ok r') : Built start r' := by
  have hsame : r.SameTags r' ∧ r'.names = r.names ∧ r'.symbolTags = r.symbolTags := by
    unfold EffectRegistry.registerDependencyActionDecl at hr
    split at hr
    · split at hr
      · cases hr
      · split at hr
        · cases hr
        · split at hr
          · cases hr
            exact ⟨⟨rfl, rfl⟩, rfl, rfl⟩
          · cases hr
            exact ⟨⟨rfl, rfl⟩, rfl, rfl⟩
    · cases hr
  obtain ⟨hs, hn, hy⟩ := hsame
  exact h.same hs (fun _ _ hid => Or.inl (hn ▸ hid)) fun _ _ hid => Or.inl (hy ▸ hid)

theorem Built.registerDependencyExtension
    (extension : DependencyEffectExtension) :
    Built start (r.registerDependencyExtension extension) := by
  unfold EffectRegistry.registerDependencyExtension
  split
  · rename_i hc hp
    exact h.addExtension (h.named.tagByPath hc) (h.named.tagByPath hp)
  · exact h.same ⟨rfl, rfl⟩ (fun _ _ => Or.inl) fun _ _ => Or.inl

end

variable {metadata : DependencyEffectMetadata}

theorem Built.registerDependencyMetadata (h : Built start r)
    (hr : r.registerDependencyMetadata metadata = .ok r') : Built start r' := by
  obtain ⟨r₁, h₁, hr⟩ := bind_eq_ok.mp hr
  obtain ⟨r₂, h₂, hr⟩ := bind_eq_ok.mp hr
  cases hr
  have hb₁ := foldlM_ok_keeps_mem (fun _ _ _ _ hb hs => hb.registerDependencyTag hs) h h₁
  have hb₂ := foldlM_ok_keeps_mem (fun _ _ _ _ hb hs => hb.registerDependencyActionDecl hs) hb₁ h₂
  exact foldl_keeps (p := Built start) (fun _ e hb => hb.registerDependencyExtension e) hb₂ _

theorem Built.registerHirNames (h : Built start r) (effect : HirEffectDecl)
    (hid : (r.tags.get id).isSome) : Built start (r.registerHirNames effect id) := by
  unfold EffectRegistry.registerHirNames
  split
  · exact h
  · have hsame : ∀ name, r.registerEffectNames id name = r := by
      intro name
      obtain ⟨tag, htag⟩ := Option.isSome_iff_exists.mp hid
      simp [registerEffectNames, htag]
    simp only [hsame]
    refine h.same ⟨rfl, rfl⟩ (fun n t ht => ?_) fun _ _ => Or.inl
    have hnames : r.names.get n = some t ∨ t = id := by
      split at ht
      · rw [Map.get_insert] at ht
        split_ifs at ht
        · exact Or.inr (Option.some.inj ht).symm
        · exact Or.inl ht
      · rw [Map.get_insert, Map.get_insert] at ht
        split_ifs at ht
        · exact Or.inr (Option.some.inj ht).symm
        · exact Or.inr (Option.some.inj ht).symm
        · exact Or.inl ht
    rcases hnames with hn | rfl
    · exact Or.inl hn
    · exact Or.inr hid

theorem Built.bindSymbol (h : Built start r) (effect : HirEffectDecl)
    (hid : (r.tags.get id).isSome) : Built start (r.bindSymbol effect id) := by
  have hbound : Built start { r with symbolTags := r.symbolTags.insert effect.symbol id } := by
    refine h.same ⟨rfl, rfl⟩ (fun _ _ => Or.inl) fun s t ht => ?_
    rw [Map.get_insert] at ht
    split_ifs at ht
    · exact Or.inr ((Option.some.inj ht) ▸ hid)
    · exact Or.inl ht
  exact hbound.registerHirNames effect hid

variable {effect : HirEffectDecl}

theorem bindSymbol_fresh {name : String} (hn : effect.name = some name)
    (hid : r.tags.get id = none) :
    r.bindSymbol effect id = (r.registerTag id name).bindSymbol effect id := by
  have hget : (r.registerTag id name).tags.get id = some ⟨id, name, none, none⟩ := by
    simp [registerTag]
  simp only [bindSymbol, registerHirNames, hn,
    registerEffectNames, hid, hget]
  rfl

/-- The tags in use stay below the counter for new ones. -/
structure HirBuilt (start : EffectRegistry) (s : EffectRegistry.HirEffectState) : Prop where
  built : Built start s.registry
  below : ∀ id, (s.registry.tags.get id).isSome → id < s.nextUserTag

theorem tags_registerHirNames (hid : (r.tags.get id).isSome) :
    (r.registerHirNames effect id).tags = r.tags := by
  obtain ⟨tag, htag⟩ := Option.isSome_iff_exists.mp hid
  unfold registerHirNames
  split
  · rfl
  · simp only [registerEffectNames, htag]

theorem tags_bindSymbol (hid : (r.tags.get id).isSome) : (r.bindSymbol effect id).tags = r.tags :=
  @tags_registerHirNames id { r with symbolTags := r.symbolTags.insert effect.symbol id } effect hid

variable {s s' : EffectRegistry.HirEffectState}

theorem HirBuilt.registerHirEffect (h : HirBuilt start s)
    (hr : EffectRegistry.registerHirEffect s effect = .ok s') :
    HirBuilt start s' := by
  unfold EffectRegistry.registerHirEffect at hr
  split at hr
  · rename_i existing hex
    cases hr
    have hid := h.built.named.symbols _ _ hex
    exact ⟨h.built.registerHirNames effect hid, fun id => tags_registerHirNames hid ▸ h.below id⟩
  · split at hr
    · cases hr
      exact h
    · rename_i name hname
      split at hr
      · split at hr
        · cases hr
        · rename_i id hpath
          split_ifs at hr
          cases hr
          have hid := h.built.named.tagByPath hpath
          exact ⟨h.built.bindSymbol effect hid, fun id => tags_bindSymbol hid ▸ h.below id⟩
      · split at hr
        · rename_i existing hex
          cases hr
          have hid := h.built.named.names _ _ (Option.filter_eq_some_iff.mp hex).1
          exact ⟨h.built.bindSymbol effect hid, fun id => tags_bindSymbol hid ▸ h.below id⟩
        · cases hr
          have hid : s.registry.tags.get s.nextUserTag = none := by
            by_contra hne
            exact Nat.lt_irrefl _ (h.below _ (Option.isSome_iff_ne_none.mpr hne))
          have hnew : ((s.registry.registerTag s.nextUserTag name).tags.get s.nextUserTag).isSome := by
            simp [EffectRegistry.registerTag]
          constructor
          · dsimp only
            rw [bindSymbol_fresh hname hid]
            exact (h.built.registerTag hid name none).bindSymbol effect hnew
          · intro id hsome
            dsimp only at hsome ⊢
            rw [bindSymbol_fresh hname hid, tags_bindSymbol hnew, EffectRegistry.registerTag,
              Map.get_insert] at hsome
            split_ifs at hsome with heq
            · exact heq ▸ Nat.lt_succ_self _
            · exact Nat.lt_succ_of_lt (h.below id hsome)

variable {hir : List HirEffectDecl}

theorem Built.registerHirEffects (h : Built start r)
    (hr : r.registerHirEffects hir metadata = .ok r') :
    Built start r' := by
  obtain ⟨bindings, -, hr⟩ := bind_eq_ok.mp hr
  obtain ⟨s, hs, hr⟩ := bind_eq_ok.mp hr
  have hstart : HirBuilt start ⟨r, bindings, r.nextDynamicTag⟩ :=
    ⟨h, fun id hid => r.get_nextDynamicTag hid⟩
  have hbuilt := foldlM_ok_keeps_mem (fun _ _ _ _ hb hstep => hb.registerHirEffect hstep) hstart hs
  split_ifs at hr
  cases hr
  exact hbuilt.built

theorem Built.registerHirEffectExtension (h : Built start r) (effect : HirEffectDecl) :
    Built start (r.registerHirEffectExtension effect) := by
  unfold EffectRegistry.registerHirEffectExtension
  split
  · rename_i child parent hc hp
    refine h.addExtension (h.named.symbols _ _ hc) ?_
    obtain ⟨reference, -, href⟩ := Option.bind_eq_some_iff.mp hp
    cases reference with
    | unresolved => cases href
    | resolved symbol importAlias =>
      rcases Option.or_eq_some_iff.mp href with hs | ⟨-, hs⟩
      · exact h.named.symbols _ _ hs
      · obtain ⟨path, -, hpath⟩ := Option.bind_eq_some_iff.mp hs
        exact h.named.names _ _ hpath
  · exact h

theorem requirement_giveRequirement_isSome {id t : EffectTagId}
    {requirement : Option RuntimeRequirementReason} (h : (r.runtimeRequirementReason t).isSome) :
    ((r.giveRequirement id requirement).runtimeRequirementReason t).isSome := by
  rw [runtimeRequirementReason] at h ⊢
  rw [get_giveRequirement]
  split_ifs with ht
  · subst ht
    cases htag : r.tags.get t with
    | none => simp [htag] at h
    | some tag =>
      rw [htag, Option.bind_some] at h
      simp [h]
  · exact h

/-- After the standard library names are registered and tags with an extension have a
requirement. -/
structure Standard (r : EffectRegistry) : Prop where
  named : r.Named
  settled : r.Settled

theorem Standard.addExtension (h : Standard r) (hc : (r.runtimeRequirementReason c).isSome) :
    Standard (r.addExtension c p) := by
  refine ⟨h.named.addExtension c p, fun c' hc' => requirement_giveRequirement_isSome ?_⟩
  change (r.runtimeRequirementReason c').isSome
  obtain ⟨p', hp'⟩ := List.exists_mem_of_ne_nil _ hc'
  rcases (r.mem_parentsOf_addExtension c p c' p').mp hp' with hold | ⟨rfl, -⟩
  · exact h.settled c' (List.ne_nil_of_mem hold)
  · exact hc

theorem Standard.registerStandardEffect (h : Standard r) (effect : StdEffect) :
    Standard (r.registerStandardEffect effect) := by
  unfold EffectRegistry.registerStandardEffect
  split_ifs
  · exact h
  · split
    · rename_i id requirement _ _
      refine (foldl_keeps (p := fun r => Standard r ∧ (r.runtimeRequirementReason id).isSome)
        ?_ ⟨⟨⟨?_, ?_⟩, ?_⟩, ?_⟩ effect.parents).1
      · rintro r parent ⟨hr, hid⟩
        split
        · exact ⟨hr.addExtension hid, requirement_giveRequirement_isSome hid⟩
        · exact ⟨hr, hid⟩
      · intro n t ht
        have hold : t = id ∨ r.names.get n = some t := by
          simp only [registerTag, Map.get_insert] at ht
          split_ifs at ht
          · exact Or.inl (Option.some.inj ht).symm
          · exact Or.inl (Option.some.inj ht).symm
          · exact Or.inr ht
        simp only [registerTag, Map.get_insert]
        split_ifs with hid
        · rfl
        · exact h.named.names n t (hold.resolve_left hid)
      · intro n t ht
        simp only [registerTag, Map.get_insert] at ht ⊢
        split_ifs
        · rfl
        · exact h.named.symbols n t ht
      · intro c hc
        change ((r.registerTag id effect.name (some requirement)).runtimeRequirementReason c).isSome
        rw [requirement_registerTag]
        split_ifs
        · rfl
        · exact h.settled c hc
      · change ((r.registerTag id effect.name (some requirement)).runtimeRequirementReason id).isSome
        rw [requirement_registerTag, if_pos rfl]
        rfl
    · exact h

theorem Standard.registerStandardActionDecl (h : Standard r) (action : StdEffectAction) :
    Standard (r.registerStandardActionDecl action) := by
  unfold EffectRegistry.registerStandardActionDecl
  split
  · rename_i id owner _ _
    dsimp only
    generalize action.runtimeRequirement.or (r.runtimeRequirementReason owner) = requirement
    unfold registerStandardAction
    split
    · exact ⟨⟨h.named.names, h.named.symbols⟩, h.settled⟩
    · let known : EffectRegistry := { r with
        standardActions := r.standardActions.insert id
          ⟨id, owner, action.name, action.effectArgs⟩ }
      have hext := (giveRequirement_frame known owner requirement).1
      have hnamed : known.Named := ⟨h.named.names, h.named.symbols⟩
      have hgiven := hnamed.giveRequirement owner requirement
      refine ⟨⟨hgiven.names, hgiven.symbols⟩, fun c hc => ?_⟩
      exact requirement_giveRequirement_isSome (h.settled c (hext ▸ hc))
  · exact h

/-- Before the standard library there is no extension. -/
structure CoreOnly (r : EffectRegistry) : Prop where
  named : r.Named
  extensions : r.extensions = .empty

theorem CoreOnly.registerCore (h : CoreOnly r) (core : CoreEffect) :
    CoreOnly (r.registerCore core) := by
  have hkeep : ∀ t, t = core.tag ∨ (r.tags.get t).isSome →
      ((r.registerCore core).tags.get t).isSome := by
    intro t ht
    rw [EffectRegistry.registerCore, Map.get_insert]
    split_ifs with hid
    · rfl
    · exact ht.resolve_left hid
  refine ⟨⟨fun n t ht => hkeep t ?_, fun n t ht => hkeep t (Or.inr (h.named.symbols n t ht))⟩,
    h.extensions⟩
  simp only [EffectRegistry.registerCore, Map.get_insert] at ht
  split_ifs at ht
  · exact Or.inl (Option.some.inj ht).symm
  · exact Or.inl (Option.some.inj ht).symm
  · exact Or.inl (Option.some.inj ht).symm
  · exact Or.inr (h.named.names n t ht)

theorem withStandardEffectsFrom_standard (std : StdRegistry) :
    Standard (EffectRegistry.withStandardEffectsFrom std) := by
  have hempty : CoreOnly .empty := by
    refine ⟨⟨?_, ?_⟩, rfl⟩
    · nofun
    · nofun
  have hcore := foldl_keeps (p := CoreOnly) (fun _ c h => h.registerCore c) hempty
    [CoreEffect.agentic, .network, .fileIo, .command, .memory, .secret, .time, .human, .error]
  have hstd : Standard _ := ⟨hcore.named, fun c hc => absurd (by rw [hcore.extensions]; rfl) hc⟩
  have heffects := foldl_keeps (p := Standard) (fun _ e h => h.registerStandardEffect e) hstd
    std.effects
  exact foldl_keeps (p := Standard) (fun _ a h => h.registerStandardActionDecl a) heffects
    std.actions

/-- A symbol that is bound keeps its tag, and a tag the path of its dependency. -/
def EffectRegistry.KeepsBound (r r' : EffectRegistry) : Prop :=
  (∀ symbol id, r.tagBySymbol symbol = some id → r'.tagBySymbol symbol = some id) ∧
    r'.dependencyTagPaths = r.dependencyTagPaths

/-- The symbol stands for the tag of the dependency with this path. -/
def EffectRegistry.BoundTo (r : EffectRegistry) (symbol : SymbolId) (path : List String) : Prop :=
  ∃ id, r.tagBySymbol symbol = some id ∧ r.dependencyTagPaths.get id = some path

theorem EffectRegistry.BoundTo.keeps {symbol : SymbolId} {path : List String}
    (h : r.BoundTo symbol path) (hkeeps : r.KeepsBound r') : r'.BoundTo symbol path := by
  obtain ⟨id, hid, hpath⟩ := h
  exact ⟨id, hkeeps.1 symbol id hid, by rw [hkeeps.2, hpath]⟩

theorem registerHirNames_bound (r : EffectRegistry) (effect : HirEffectDecl) (id : EffectTagId) :
    (r.registerHirNames effect id).symbolTags = r.symbolTags ∧
      (r.registerHirNames effect id).dependencyTagPaths = r.dependencyTagPaths := by
  unfold registerHirNames registerEffectNames
  cases effect.name with
  | none => exact ⟨rfl, rfl⟩
  | some name => cases r.tags.get id <;> exact ⟨rfl, rfl⟩

theorem bindSymbol_bound (hnone : r.tagBySymbol effect.symbol = none) (id : EffectTagId) :
    r.KeepsBound (r.bindSymbol effect id) ∧
      (r.bindSymbol effect id).tagBySymbol effect.symbol = some id := by
  obtain ⟨hsymbols, hpaths⟩ := registerHirNames_bound
    { r with symbolTags := r.symbolTags.insert effect.symbol id } effect id
  have hget (symbol : SymbolId) : (r.bindSymbol effect id).tagBySymbol symbol =
      if symbol = effect.symbol then some id else r.tagBySymbol symbol :=
    (congrArg (Map.get · symbol) hsymbols).trans (Map.get_insert ..)
  refine ⟨⟨fun symbol other hother => ?_, hpaths⟩, by rw [hget, if_pos rfl]⟩
  have hne : symbol ≠ effect.symbol := by
    intro heq
    rw [heq, hnone] at hother
    cases hother
  rw [hget, if_neg hne, hother]

/-- One declaration binds its symbol, and a binding is only taken off for the tag it names. -/
theorem registerHirEffect_bound (h : EffectRegistry.registerHirEffect s effect = .ok s') :
    s.registry.KeepsBound s'.registry ∧
      (effect.name.isSome → (s'.registry.tagBySymbol effect.symbol).isSome) ∧
      ∀ symbol path, s.bindings.get symbol = some path → s'.bindings.get symbol = some path ∨
        symbol = effect.symbol ∧ s'.registry.BoundTo symbol path := by
  unfold registerHirEffect at h
  split at h
  · rename_i existing hexisting
    cases h
    obtain ⟨hsymbols, hpaths⟩ := registerHirNames_bound s.registry effect existing
    have hget (symbol : SymbolId) : (s.registry.registerHirNames effect existing).tagBySymbol symbol =
      s.registry.tagBySymbol symbol := congrArg (Map.get · symbol) hsymbols
    refine ⟨⟨fun symbol id hid => (hget symbol).trans hid, hpaths⟩, fun _ => ?_,
      fun _ _ => Or.inl⟩
    rw [hget, hexisting]
    rfl
  rename_i hnone
  have hbind := bindSymbol_bound hnone
  split at h
  · rename_i hname
    cases h
    exact ⟨⟨fun _ _ hid => hid, rfl⟩, fun hsome => by simp [hname] at hsome, fun _ _ => Or.inl⟩
  split at h
  · rename_i path hpath
    split at h
    · cases h
    · rename_i id _
      split_ifs at h with htag
      cases h
      refine ⟨(hbind id).1, fun _ => by rw [(hbind id).2]; rfl, fun symbol other hother => ?_⟩
      by_cases heq : symbol = effect.symbol
      · subst heq
        rw [hpath] at hother
        cases hother
        exact Or.inr ⟨rfl, id, (hbind id).2, by rw [(hbind id).1.2, htag]⟩
      · exact Or.inl (by rw [Map.get_remove, if_neg heq, hother])
  · split at h
    · cases h
      exact ⟨(hbind _).1, fun _ => by rw [(hbind _).2]; rfl, fun _ _ => Or.inl⟩
    · cases h
      exact ⟨(hbind _).1, fun _ => by rw [(hbind _).2]; rfl, fun _ _ => Or.inl⟩

theorem EffectRegistry.KeepsBound.trans {r'' : EffectRegistry} (h : r.KeepsBound r')
    (h' : r'.KeepsBound r'') : r.KeepsBound r'' :=
  ⟨fun symbol id hid => h'.1 symbol id (h.1 symbol id hid), h'.2.trans h.2⟩

theorem registerHirEffects_bound (h : r.registerHirEffects hir metadata = .ok r') :
    (∀ effect ∈ hir, effect.name.isSome → (r'.tagBySymbol effect.symbol).isSome) ∧
      ∀ binding ∈ metadata.sourceBindings, (∃ effect ∈ hir, effect.symbol = binding.symbol) ∧
        r'.BoundTo binding.symbol binding.path := by
  obtain ⟨bindings, hbindings, h⟩ := bind_eq_ok.mp h
  obtain ⟨s, hs, h⟩ := bind_eq_ok.mp h
  have hlisted := foldlM_ok_complete
    (p := fun done (found : Map SymbolId (List String)) => ∀ binding ∈ done,
      found.get binding.symbol = some binding.path) ?_ (List.forall_mem_nil _) hbindings
  have hrun := foldlM_ok_complete
    (p := fun done (s : EffectRegistry.HirEffectState) =>
      (∀ effect ∈ done, effect.name.isSome → (s.registry.tagBySymbol effect.symbol).isSome) ∧
      ∀ symbol path, bindings.get symbol = some path → s.bindings.get symbol = some path ∨
        (∃ effect ∈ done, effect.symbol = symbol) ∧ s.registry.BoundTo symbol path) ?_
    ⟨List.forall_mem_nil _, fun _ _ => Or.inl⟩ hs
  · split_ifs at h with hempty
    cases h
    refine ⟨hrun.1, fun binding hmem => ?_⟩
    rcases hrun.2 _ _ (hlisted binding hmem) with hleft | hbound
    · have hin := Map.mem_toList.mpr hleft
      rw [List.isEmpty_iff.mp hempty] at hin
      cases hin
    · exact hbound
  · intro done s effect s' ⟨heffects, hbound⟩ hstep
    obtain ⟨hkeeps, hname, htaken⟩ := registerHirEffect_bound hstep
    refine ⟨List.forall_mem_append.mpr ⟨fun e hmem he => ?_, by simpa using hname⟩, ?_⟩
    · obtain ⟨id, hid⟩ := Option.isSome_iff_exists.mp (heffects e hmem he)
      exact Option.isSome_iff_exists.mpr ⟨id, hkeeps.1 _ id hid⟩
    · intro symbol path hpath
      rcases hbound symbol path hpath with hleft | ⟨⟨e, hmem, he⟩, hto⟩
      · refine (htaken symbol path hleft).imp_right fun ⟨heq, hto⟩ => ⟨⟨effect, ?_, heq.symm⟩, hto⟩
        exact List.mem_append_right _ List.mem_cons_self
      · exact Or.inr ⟨⟨e, List.mem_append_left _ hmem, he⟩, hto.keeps hkeeps⟩
  · intro done found binding found' hdone hstep
    split_ifs at hstep with hsome
    cases hstep
    refine List.forall_mem_append.mpr ⟨fun other hmem => ?_, by simp⟩
    rw [Map.get_insert_ne, hdone other hmem]
    intro heq
    rw [← heq, hdone other hmem] at hsome
    exact hsome rfl

theorem registerHirEffectExtension_bound (r : EffectRegistry) (effect : HirEffectDecl) :
    r.KeepsBound (r.registerHirEffectExtension effect) := by
  unfold registerHirEffectExtension
  split
  · unfold addExtension giveRequirement
    split <;> exact ⟨fun _ _ hid => hid, rfl⟩
  · exact ⟨fun _ _ hid => hid, rfl⟩

theorem fromHirDependenciesAndStd_registered {std : StdRegistry}
    (h : EffectRegistry.fromHirDependenciesAndStd hir metadata std = .ok r) :
    (EffectRegistry.withStandardEffectsFrom std).Settled ∧
      (∃ ops, Registered (EffectRegistry.withStandardEffectsFrom std) ops r) ∧ r.Named ∧
      (∀ effect ∈ hir, effect.name.isSome → (r.tagBySymbol effect.symbol).isSome) ∧
      ∀ binding ∈ metadata.sourceBindings, (∃ effect ∈ hir, effect.symbol = binding.symbol) ∧
        r.BoundTo binding.symbol binding.path := by
  have hstd := withStandardEffectsFrom_standard std
  have hstart : Built (.withStandardEffectsFrom std) (.withStandardEffectsFrom std) :=
    ⟨⟨[], .start⟩, hstd.named⟩
  obtain ⟨r₁, h₁, h⟩ := bind_eq_ok.mp h
  obtain ⟨r₂, h₂, h⟩ := bind_eq_ok.mp h
  cases h
  have hsource := (hstart.registerDependencyMetadata h₁).registerHirEffects h₂
  have hall := foldl_keeps (p := Built (.withStandardEffectsFrom std))
    (fun _ e hb => hb.registerHirEffectExtension e) hsource hir
  obtain ⟨heffects, hbindings⟩ := registerHirEffects_bound h₂
  have hkeeps := foldl_keeps (p := r₂.KeepsBound)
    (fun r e hb => hb.trans (registerHirEffectExtension_bound r e)) ⟨fun _ _ hid => hid, rfl⟩ hir
  refine ⟨hstd.settled, hall.run, hall.named, fun effect hmem hname => ?_, fun binding hmem => ?_⟩
  · obtain ⟨id, hid⟩ := Option.isSome_iff_exists.mp (heffects effect hmem hname)
    exact Option.isSome_iff_exists.mpr ⟨id, hkeeps.1 _ id hid⟩
  · obtain ⟨hdeclared, hbound⟩ := hbindings binding hmem
    exact ⟨hdeclared, hbound.keeps hkeeps⟩

/-- The source names the effect of a dependency. -/
theorem fromHirDependenciesAndStd_registered_mail :
    ∃ r, EffectRegistry.fromHirDependenciesAndStd [⟨7, some "Mail", none, none⟩]
        ⟨[⟨["mail", "Mail"], none⟩], [], [], [⟨7, ["mail", "Mail"]⟩]⟩ ⟨[], []⟩ = .ok r ∧
      r.BoundTo 7 ["mail", "Mail"] := by
  have hok : ∃ r, EffectRegistry.fromHirDependenciesAndStd [⟨7, some "Mail", none, none⟩]
      ⟨[⟨["mail", "Mail"], none⟩], [], [], [⟨7, ["mail", "Mail"]⟩]⟩ ⟨[], []⟩ = .ok r := ⟨_, rfl⟩
  obtain ⟨r, hr⟩ := hok
  have hbound := (fromHirDependenciesAndStd_registered hr).2.2.2.2 _ List.mem_cons_self
  exact ⟨r, hr, hbound.2⟩

end Build

section Orders

/-- The registry of the core effects alone. -/
def coreRegistry : EffectRegistry := .withStandardEffectsFrom ⟨[], []⟩

theorem coreRegistry_settled : coreRegistry.Settled :=
  (withStandardEffectsFrom_standard ⟨[], []⟩).settled

/-- `Console` with a requirement of its own under `FileIO`, and a chain of two extensions. -/
def consoleOps : List Registration := [.tag 1024 "Console" (some .console), .extension 1024 2]

def upwardOps : List Registration :=
  [.tag 1024 "Mail" none, .tag 1025 "Outbox" none, .extension 1025 1024, .extension 1024 1]

def downwardOps : List Registration :=
  [.tag 1024 "Mail" none, .tag 1025 "Outbox" none, .extension 1024 1, .extension 1025 1024]

def consoleRegistry : EffectRegistry :=
  (coreRegistry.registerTag 1024 "Console" (some .console)).addExtension 1024 2

def mailTags : EffectRegistry :=
  (coreRegistry.registerTag 1024 "Mail").registerTag 1025 "Outbox"

theorem consoleOps_registered : Registered coreRegistry consoleOps consoleRegistry :=
  .extension (.tag "Console" (some .console) .start (by decide)) (by decide) (by decide)

theorem mailTags_registered : Registered coreRegistry
    [.tag 1024 "Mail" none, .tag 1025 "Outbox" none] mailTags :=
  .tag "Outbox" none (.tag "Mail" none .start (by decide)) (by decide)

theorem upwardOps_registered : Registered coreRegistry upwardOps
    ((mailTags.addExtension 1025 1024).addExtension 1024 1) :=
  .extension (.extension mailTags_registered (by decide) (by decide)) (by decide) (by decide)

/-- Two parents with different requirements, in two orders. -/
def forkOps (first second : EffectTagId) : List Registration :=
  [.tag 1024 "Mail" none, .extension 1024 first, .extension 1024 second]

def forkRegistry (first second : EffectTagId) : EffectRegistry :=
  ((coreRegistry.registerTag 1024 "Mail").addExtension 1024 first).addExtension 1024 second

theorem forkOps_registered : Registered coreRegistry (forkOps 1 2) (forkRegistry 1 2) ∧
    Registered coreRegistry (forkOps 2 1) (forkRegistry 2 1) := by
  have htag : Registered coreRegistry [.tag 1024 "Mail" none] (coreRegistry.registerTag 1024 "Mail") :=
    .tag "Mail" none .start (by decide)
  exact ⟨.extension (.extension htag (by decide) (by decide)) (by decide) (by decide),
    .extension (.extension htag (by decide) (by decide)) (by decide) (by decide)⟩

theorem downwardOps_registered : Registered coreRegistry downwardOps
    ((mailTags.addExtension 1024 1).addExtension 1025 1024) :=
  .extension (.extension mailTags_registered (by decide) (by decide)) (by decide) (by decide)

/-- A tag with a requirement of its own does not take over that of the tag it extends; of two
parents the first one registered decides; and a chain registered from below leaves its lowest tag
without the requirement that the other order gives. -/
theorem requirement_not_inherited :
    (∃ r, Registered coreRegistry consoleOps r ∧ r.tagExtends 1024 2 = true ∧
      Own coreRegistry consoleOps 2 .fileIo ∧
      r.runtimeRequirementReason 1024 ≠ some .fileIo) ∧
    (∃ r r', (forkOps 1 2).Perm (forkOps 2 1) ∧ Registered coreRegistry (forkOps 1 2) r ∧
      Registered coreRegistry (forkOps 2 1) r' ∧
      r.runtimeRequirementReason 1024 ≠ r'.runtimeRequirementReason 1024) ∧
    ∃ r r', upwardOps.Perm downwardOps ∧ Registered coreRegistry upwardOps r ∧
      Registered coreRegistry downwardOps r' ∧
      r.runtimeRequirementReason 1025 ≠ r'.runtimeRequirementReason 1025 := by
  refine ⟨⟨_, consoleOps_registered, by decide, Or.inl (by decide), by decide⟩,
    ⟨_, _, ?_, forkOps_registered.1, forkOps_registered.2, by decide⟩,
    ⟨_, _, ?_, upwardOps_registered, downwardOps_registered, by decide⟩⟩
  · exact (List.Perm.swap _ _ []).cons _
  · exact ((List.Perm.swap _ _ []).cons _).cons _

/-- The chain registered downwards. -/
theorem registered_requirement_downward :
    ∃ q, ((mailTags.addExtension 1024 1).addExtension 1025 1024).runtimeRequirementReason 1025 =
      some q ∧ Visible coreRegistry downwardOps 1025 q := by
  refine (registered_requirement coreRegistry_settled downwardOps_registered 1025).2.2.2.1 ?_
  have hcore : Fed coreRegistry [.tag 1024 "Mail" none, .tag 1025 "Outbox" none] 1 :=
    .own (q := .network) (Or.inl (by decide))
  have hmail : Fed coreRegistry
      [.tag 1024 "Mail" none, .tag 1025 "Outbox" none, .extension 1024 1] 1024 :=
    @Fed.step _ [_, _] [] 1024 1 hcore
  exact @Fed.step _ [_, _, _] [] 1025 1024 hmail

end Orders

end EtasFrontend.Effects
