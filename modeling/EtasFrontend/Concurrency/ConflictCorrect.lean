import EtasFrontend.Concurrency.Conflict
import EtasFrontend.Effects.Disjoint

/-! When branches that are scheduled together have no effects that cover one another. -/
namespace EtasFrontend.Concurrency
open Analysis Effects EtasFrontend.Types

variable {registry : EffectRegistry}

/-! The comparison of two effects is symmetric. -/

theorem selectorRelation_comm (left right : EffectArgRef) :
    selectorRelation registry left right = selectorRelation registry right left := by
  cases left with
  | wildcard => cases right <;> rfl
  | path left =>
    cases right with
    | path right => simp only [selectorRelation, Bool.or_comm]
    | wildcard | string | int | type => rfl
  | string left =>
    cases right with
    | string right => simp only [selectorRelation, eq_comm]
    | wildcard | path | int | type => rfl
  | int left =>
    cases right with
    | int right => simp only [selectorRelation, eq_comm]
    | wildcard | path | string | type => rfl
  | type left =>
    cases right with
    | type right =>
      simp only [selectorRelation, Bool.or_assoc, Bool.beq_comm (a := left)]
      rw [Bool.or_comm (registry.memoryPlaceContains left right), Bool.and_comm]
    | wildcard | path | string | int => rfl

theorem selectorsConflict_zip_comm (left right : List EffectArgRef) (dynamic : Bool) :
    selectorsConflict registry (left.zip right) dynamic =
      selectorsConflict registry (right.zip left) dynamic := by
  induction left generalizing right dynamic with
  | nil => rw [List.zip_nil_left, List.zip_nil_right]
  | cons l left ih =>
    cases right with
    | nil => rfl
    | cons r right =>
      simp only [List.zip_cons_cons, selectorsConflict, ih right]
      rw [selectorRelation_comm l r]

theorem resourcesConflict_comm (left right : List EffectArgRef) :
    resourcesConflict registry left right = resourcesConflict registry right left := by
  unfold resourcesConflict
  rw [Bool.or_comm, selectorsConflict_zip_comm]
  simp only [ne_comm]

theorem actionConflict_comm (left : ActionRef) (leftArgs : Option (List EffectArgRef))
    (right : ActionRef) (rightArgs : Option (List EffectArgRef)) :
    actionConflict registry left leftArgs right rightArgs =
      actionConflict registry right rightArgs left leftArgs := by
  unfold actionConflict
  by_cases htag : left.tag = right.tag
  · rw [if_neg (not_not.mpr htag), if_neg (not_not.mpr htag.symm), htag]
    simp only [and_comm (a := left.action = memoryReadAction)]
    cases leftArgs <;> cases rightArgs <;> try rfl
    cases registry.actionSignature left <;> cases registry.actionSignature right <;> try rfl
    simp only [resourcesConflict_comm]
  · rw [if_pos htag, if_pos (Ne.symm htag)]

theorem effectConflict_comm (left right : Effect) :
    effectConflict registry left right = effectConflict registry right left := by
  cases left <;> cases right <;> try rfl
  case action.action | action.appliedAction | appliedAction.action | appliedAction.appliedAction =>
    rw [effectConflict, effectConflict]
    exact actionConflict_comm ..
  case tag.tag | tag.applied | applied.tag =>
    rw [effectConflict, effectConflict]
    simp only [eq_comm]
  case applied.applied tag args tag' args' =>
    rw [effectConflict, effectConflict]
    simp only [eq_comm (a := tag), eq_comm (a := args)]

variable {left right : BranchFact}

theorem scanMembers_eq_known_iff {pairs : List (Effect × Effect)}
    {found : Option ResourceConflict} :
    scanMembers registry left right pairs found = .known ↔
      ∃ p ∈ pairs, effectConflict registry p.1 p.2 = .known := by
  induction pairs generalizing found with
  | nil => cases found <;> simp [scanMembers]
  | cons p pairs ih =>
    rw [scanMembers]
    split
    next h => simp [ih, h]
    next h => simp [h]
    next h => simp [ih, h]

theorem scanMembers_eq_disjoint_iff {pairs : List (Effect × Effect)}
    {found : Option ResourceConflict} :
    scanMembers registry left right pairs found = .disjoint ↔
      found = none ∧ ∀ p ∈ pairs, effectConflict registry p.1 p.2 = .disjoint := by
  induction pairs generalizing found with
  | nil => cases found <;> simp [scanMembers]
  | cons p pairs ih =>
    rw [scanMembers]
    split
    next h => simp [ih, h]
    next h => simp [h]
    next h => cases found <;> simp [ih, h]

/-- Every member of the one and every member of the other. -/
def ForMembers (R : Effect → Effect → Prop) (left right : BranchFact) : Prop :=
  ∀ l ∈ left.members, ∀ r ∈ right.members, R l r

theorem branchConflict_ne_known_iff :
    branchConflict registry left right ≠ .known ↔
      ForMembers (fun l r => effectConflict registry l r ≠ .known) left right := by
  rw [branchConflict, Ne, scanMembers_eq_known_iff]
  simp only [List.mem_flatMap, List.mem_map, ForMembers]
  constructor
  · intro h l hl r hr hk
    exact h ⟨(l, r), ⟨l, hl, r, hr, rfl⟩, hk⟩
  · rintro h ⟨p, ⟨l, hl, r, hr, rfl⟩, hk⟩
    exact h l hl r hr hk

theorem branchConflict_eq_disjoint_iff :
    branchConflict registry left right = .disjoint ↔
      ForMembers (fun l r => effectConflict registry l r = .disjoint) left right := by
  rw [branchConflict, scanMembers_eq_disjoint_iff]
  simp only [true_and, List.mem_flatMap, List.mem_map, ForMembers]
  constructor
  · intro h l hl r hr
    exact h (l, r) ⟨l, hl, r, hr, rfl⟩
  · rintro h p ⟨l, hl, r, hr, rfl⟩
    exact h l hl r hr

variable {guards : List ResourceConflict} {left : BranchFact}

theorem scanBranches_eq_none_iff {rights : List BranchFact} :
    scanBranches registry left rights guards = none ↔
      ∃ right ∈ rights, branchConflict registry left right = .known := by
  induction rights generalizing guards with
  | nil => simp [scanBranches]
  | cons right rights ih =>
    rw [scanBranches]
    split
    next h => simp [ih, h]
    next h => simp [h]
    next h => simp [ih, h]

theorem scanBranches_eq_nil_iff {rights : List BranchFact} :
    scanBranches registry left rights guards = some [] ↔
      guards = [] ∧ ∀ right ∈ rights, branchConflict registry left right = .disjoint := by
  induction rights generalizing guards with
  | nil => simp [scanBranches]
  | cons right rights ih =>
    rw [scanBranches]
    split
    next h => simp [ih, h]
    next h => simp [h]
    next h => simp [ih, h]

/-- Every two branches of the list, and a mapper with itself. -/
def ForCompared (R : BranchFact → BranchFact → Prop) (branches : List BranchFact) : Prop :=
  branches.Pairwise R ∧ ∀ b ∈ branches, b.shape = .mapperInvocation → R b b

variable {branches : List BranchFact}

theorem ForCompared.mono {R S : BranchFact → BranchFact → Prop}
    (h : ForCompared R branches) (hRS : ∀ b c, R b c → S b c) : ForCompared S branches :=
  ⟨h.1.imp fun {b c} => hRS b c, fun b hb hm => hRS b b (h.2 b hb hm)⟩

theorem forCompared_cons {R : BranchFact → BranchFact → Prop} {rest : List BranchFact} :
    ForCompared R (left :: rest) ↔
      (∀ right ∈ rest ++ if left.shape = .mapperInvocation then [left] else [], R left right) ∧
        ForCompared R rest := by
  unfold ForCompared
  rw [List.pairwise_cons, List.forall_mem_cons, List.forall_mem_append]
  split_ifs with hm
  · simp only [hm, List.forall_mem_singleton]
    tauto
  · simp only [hm]
    tauto

theorem scheduleLoop_eq_serialize_iff :
    scheduleLoop registry branches guards = .serialize ↔
      ¬ ForCompared (fun b c => branchConflict registry b c ≠ .known) branches := by
  induction branches generalizing guards with
  | nil =>
    rw [scheduleLoop]
    split_ifs <;> simp [ForCompared]
  | cons left rest ih =>
    rw [scheduleLoop, forCompared_cons]
    split
    next h =>
      obtain ⟨right, hr, hk⟩ := scanBranches_eq_none_iff.mp h
      simp only [true_iff]
      exact fun hc => hc.1 right hr hk
    next guards' h =>
      have hn : ∀ right ∈ rest ++ if left.shape = .mapperInvocation then [left] else [],
          branchConflict registry left right ≠ .known := by
        intro right hr hk
        rw [scanBranches_eq_none_iff.mpr ⟨right, hr, hk⟩] at h
        cases h
      rw [ih, not_iff_not]
      exact ⟨fun h => ⟨hn, h⟩, fun h => h.2⟩

theorem scheduleLoop_eq_concurrent_iff :
    scheduleLoop registry branches guards = .concurrent ↔
      guards = [] ∧ ForCompared (fun b c => branchConflict registry b c = .disjoint) branches := by
  induction branches generalizing guards with
  | nil =>
    rw [scheduleLoop]
    split_ifs with h <;> simp_all [ForCompared]
  | cons left rest ih =>
    rw [scheduleLoop, forCompared_cons, ← and_assoc, ← scanBranches_eq_nil_iff]
    split
    next h => simp [h]
    next guards' h => simp [h, ih]

theorem scheduleLoop_ne_reject : scheduleLoop registry branches guards ≠ .reject := by
  induction branches generalizing guards with
  | nil =>
    rw [scheduleLoop]
    split_ifs <;> simp
  | cons left rest ih =>
    rw [scheduleLoop]
    split
    · simp
    · exact ih

/-! The kind of decision does not depend on the order. -/

inductive DecisionKind where
  | concurrent | serialize | runtimeGuard | reject

def SchedulingDecision.kind : SchedulingDecision → DecisionKind
  | .concurrent => .concurrent
  | .serialize => .serialize
  | .runtimeGuard _ => .runtimeGuard
  | .reject => .reject

/-- The same branch with its effects and actions in another order. -/
structure BranchFact.Reordered (b c : BranchFact) : Prop where
  taskSite : b.taskSite = c.taskSite
  effects : b.effects.Perm c.effects
  actions : b.actions.Perm c.actions
  shape : b.shape = c.shape

/-- The same branches in another order, each with its effects in another order. -/
def Reordered (branches branches' : List BranchFact) : Prop :=
  ∃ shuffled, branches.Perm shuffled ∧ List.Forall₂ BranchFact.Reordered shuffled branches'

theorem BranchFact.Reordered.mem_members {b c : BranchFact} (h : b.Reordered c) {e : Effect} :
    e ∈ b.members ↔ e ∈ c.members := by
  rw [members, members, List.mem_append, List.mem_append, h.effects.mem_iff, h.actions.mem_iff]

variable {R : Effect → Effect → Prop}

theorem ForMembers.reordered {b b' c c' : BranchFact} (h : ForMembers R b c) (hb : b.Reordered b')
    (hc : c.Reordered c') : ForMembers R b' c' :=
  fun l hl r hr => h l (hb.mem_members.mpr hl) r (hc.mem_members.mpr hr)

variable {branches branches' : List BranchFact}

theorem ForCompared.perm {R : BranchFact → BranchFact → Prop} (h : ForCompared R branches)
    (hR : ∀ {b c}, R b c → R c b) (hp : branches.Perm branches') :
    ForCompared R branches' :=
  ⟨(hp.pairwise_iff hR).mp h.1, fun b hb => h.2 b (hp.mem_iff.mpr hb)⟩

theorem ForCompared.forall₂ (h : ForCompared (ForMembers R) branches)
    (hf : List.Forall₂ BranchFact.Reordered branches branches') :
    ForCompared (ForMembers R) branches' := by
  induction hf with
  | nil => exact h
  | @cons b c bs cs hbc hf ih =>
    rw [forCompared_cons] at h ⊢
    refine ⟨fun right hr => ?_, ih h.2⟩
    rcases List.mem_append.mp hr with hr | hr
    · obtain ⟨i, hi, rfl⟩ := List.mem_iff_getElem.mp hr
      have hi' : i < bs.length := hf.length_eq ▸ hi
      exact (h.1 bs[i] (List.mem_append_left _ (List.getElem_mem hi'))).reordered hbc
        (hf.get hi' hi)
    · split_ifs at hr with hm
      · rw [List.mem_singleton.mp hr]
        refine (h.1 b (List.mem_append_right _ ?_)).reordered hbc hbc
        rw [if_pos (hbc.shape.trans hm)]
        exact List.mem_singleton_self b
      · cases hr

theorem ForCompared.reordered (h : ForCompared (ForMembers R) branches) (hR : ∀ l r, R l r → R r l)
    (ho : Reordered branches branches') :
    ForCompared (ForMembers R) branches' := by
  obtain ⟨shuffled, hp, hf⟩ := ho
  refine (h.perm ?_ hp).forall₂ hf
  intro b c hbc l hl r hr
  exact hR r l (hbc r hr l hl)

theorem BranchFact.Reordered.symm {b c : BranchFact} (h : b.Reordered c) : c.Reordered b :=
  ⟨h.taskSite.symm, h.effects.symm, h.actions.symm, h.shape.symm⟩

theorem Reordered.symm (h : Reordered branches branches') : Reordered branches' branches := by
  obtain ⟨shuffled, hp, hf⟩ := h
  obtain ⟨mid, hm, hq⟩ := List.perm_comp_forall₂ hp hf
  exact ⟨mid, hq.symm, hm.flip.imp fun _ _ h => h.symm⟩

theorem schedulingDecision_eq_serialize_iff :
    schedulingDecision registry branches false = .serialize ↔
      ¬ ForCompared (ForMembers fun l r => effectConflict registry l r ≠ .known) branches := by
  rw [schedulingDecision, if_neg Bool.false_ne_true, scheduleLoop_eq_serialize_iff]
  simp only [branchConflict_ne_known_iff]

theorem schedulingDecision_eq_concurrent_iff :
    schedulingDecision registry branches false = .concurrent ↔
      ForCompared (ForMembers fun l r => effectConflict registry l r = .disjoint) branches := by
  rw [schedulingDecision, if_neg Bool.false_ne_true, scheduleLoop_eq_concurrent_iff]
  simp only [branchConflict_eq_disjoint_iff, true_and]

/-- A decision is never a rejection, so the two conditions above fix its kind. -/
theorem kind_eq_of_iff
    (hs : schedulingDecision registry branches false = .serialize ↔
      schedulingDecision registry branches' false = .serialize)
    (hc : schedulingDecision registry branches false = .concurrent ↔
      schedulingDecision registry branches' false = .concurrent) :
    (schedulingDecision registry branches false).kind =
      (schedulingDecision registry branches' false).kind := by
  have hn : schedulingDecision registry branches false ≠ .reject := scheduleLoop_ne_reject
  have hn' : schedulingDecision registry branches' false ≠ .reject := scheduleLoop_ne_reject
  revert hs hc hn hn'
  generalize schedulingDecision registry branches false = d
  generalize schedulingDecision registry branches' false = d'
  cases d <;> cases d' <;> simp [SchedulingDecision.kind]

theorem Reordered.kind_eq (h : Reordered branches branches') :
    (schedulingDecision registry branches false).kind =
      (schedulingDecision registry branches' false).kind := by
  refine kind_eq_of_iff ?_ ?_
  · have hR : ∀ l r, effectConflict registry l r ≠ .known →
        effectConflict registry r l ≠ .known := by
      intro l r hk
      rw [effectConflict_comm r l]
      exact hk
    rw [schedulingDecision_eq_serialize_iff, schedulingDecision_eq_serialize_iff, not_iff_not]
    exact ⟨fun hb => hb.reordered hR h, fun hb => hb.reordered hR h.symm⟩
  · have hR : ∀ l r, effectConflict registry l r = .disjoint →
        effectConflict registry r l = .disjoint :=
      fun l r hd => (effectConflict_comm r l).trans hd
    rw [schedulingDecision_eq_concurrent_iff, schedulingDecision_eq_concurrent_iff]
    exact ⟨fun hb => hb.reordered hR h, fun hb => hb.reordered hR h.symm⟩

/-! Effects that the scheduler keeps apart. -/

/-- Actions of one tag, neither errors nor both reads of memory. -/
def ActionsMeet (left right : ActionRef) : Prop :=
  left.tag = right.tag ∧ left.tag ≠ errorTag ∧
    ¬ (left.tag = memoryTag ∧ left.action = memoryReadAction ∧ right.action = memoryReadAction)

/-- Both actions are declared and select as many resources, two of them distinct. -/
def SelectorsApart (registry : EffectRegistry) (left right : ActionInstanceRef) : Prop :=
  ∃ ls rs, registry.actionSignature left.action = some ls ∧
    registry.actionSignature right.action = some rs ∧
    (resourceSelectors ls.effectArgs left.args).length =
      (resourceSelectors rs.effectArgs right.args).length ∧
    ∃ p ∈ (resourceSelectors ls.effectArgs left.args).zip
        (resourceSelectors rs.effectArgs right.args),
      selectorRelation registry p.1 p.2 = .disjoint

/-- A variable meets everything, a tag its own, an action those of its tag that may touch the same
resource. -/
def Clashes (registry : EffectRegistry) : Effect → Effect → Prop
  | .var _, _ => True
  | _, .var _ => True
  | .tag left, .tag right => left = right
  | .tag left, .applied right _ => left = right
  | .applied left _, .tag right => left = right
  | .applied left _, .applied right _ => left = right
  | .action left, .action right => ActionsMeet left right
  | .action left, .appliedAction right => ActionsMeet left right.action
  | .appliedAction left, .action right => ActionsMeet left.action right
  | .appliedAction left, .appliedAction right => ActionsMeet left.action right.action ∧
      (left.action.tag = memoryTag ∨ ¬ SelectorsApart registry left right)
  | _, _ => False

theorem selectorsConflict_eq_disjoint_iff {pairs : List (EffectArgRef × EffectArgRef)}
    {dynamic : Bool} :
    selectorsConflict registry pairs dynamic = .disjoint ↔
      ∃ p ∈ pairs, selectorRelation registry p.1 p.2 = .disjoint := by
  induction pairs generalizing dynamic with
  | nil => cases dynamic <;> simp [selectorsConflict]
  | cons p pairs ih =>
    rw [selectorsConflict]
    split
    next h => simp [h]
    next h => simp [ih, h]
    next h => simp [ih, h]

theorem resourcesConflict_eq_disjoint_iff {left right : List EffectArgRef} :
    resourcesConflict registry left right = .disjoint ↔
      left.length = right.length ∧
        ∃ p ∈ left.zip right, selectorRelation registry p.1 p.2 = .disjoint := by
  unfold resourcesConflict
  split_ifs with he hl
  · rw [Bool.or_eq_true, List.isEmpty_iff, List.isEmpty_iff] at he
    rcases he with rfl | rfl <;> simp
  · simp [hl]
  · rw [selectorsConflict_eq_disjoint_iff]
    simp only [ne_eq, not_not] at hl
    simp [hl]

variable {leftArgs rightArgs : Option (List EffectArgRef)} {left right : ActionRef}

theorem actionConflict_eq_disjoint_of_not_meet (h : ¬ ActionsMeet left right) :
    actionConflict registry left leftArgs right rightArgs = .disjoint := by
  unfold actionConflict
  split_ifs with ht he hr hm <;> first | rfl | exact absurd ⟨not_not.mp ht, he, hr⟩ h

theorem actionConflict_eq_guard_of_memory (h : ActionsMeet left right) (hm : left.tag = memoryTag) :
    actionConflict registry left leftArgs right rightArgs = .guard := by
  unfold actionConflict
  rw [if_neg (not_not.mpr h.1), if_neg h.2.1, if_neg h.2.2, if_pos hm]

theorem actionConflict_ne_disjoint_iff (h : leftArgs = none ∨ rightArgs = none) :
    actionConflict registry left leftArgs right rightArgs ≠ .disjoint ↔ ActionsMeet left right := by
  by_cases hk : ActionsMeet left right
  · simp only [hk, iff_true]
    by_cases hm : left.tag = memoryTag
    · simp [actionConflict_eq_guard_of_memory hk hm]
    · unfold actionConflict
      rw [if_neg (not_not.mpr hk.1), if_neg hk.2.1, if_neg hk.2.2, if_neg hm]
      rcases h with rfl | rfl
      · simp
      · cases leftArgs <;> simp
  · simp [actionConflict_eq_disjoint_of_not_meet hk, hk]

theorem actionConflict_applied_ne_disjoint_iff {left right : ActionInstanceRef} :
    actionConflict registry left.action (some left.args) right.action (some right.args) ≠
        .disjoint ↔
      ActionsMeet left.action right.action ∧
        (left.action.tag = memoryTag ∨ ¬ SelectorsApart registry left right) := by
  by_cases hk : ActionsMeet left.action right.action
  · simp only [hk, true_and]
    by_cases hm : left.action.tag = memoryTag
    · simp [actionConflict_eq_guard_of_memory hk hm, hm]
    · unfold actionConflict SelectorsApart
      rw [if_neg (not_not.mpr hk.1), if_neg hk.2.1, if_neg hk.2.2, if_neg hm]
      simp only [hm, false_or]
      split
      next ls rs hl hr =>
        rw [Ne, not_iff_not, resourcesConflict_eq_disjoint_iff]
        simp [hl, hr]
      next hn =>
        simp only [ne_eq, reduceCtorEq, not_false_eq_true, true_iff]
        rintro ⟨ls, rs, hl, hr, -⟩
        exact hn ls rs hl hr
  · simp [actionConflict_eq_disjoint_of_not_meet hk, hk]

variable {left right : Effect}

theorem effectConflict_ne_disjoint_iff :
    effectConflict registry left right ≠ .disjoint ↔ Clashes registry left right := by
  cases left <;> cases right <;> try simp [effectConflict, Clashes]; done
  case action.action | action.appliedAction | appliedAction.action =>
    rw [effectConflict, actionConflict_ne_disjoint_iff (by simp), Clashes]
  case appliedAction.appliedAction =>
    rw [effectConflict, actionConflict_applied_ne_disjoint_iff, Clashes]
  case applied.applied =>
    simp only [effectConflict, Clashes]
    split_ifs with ht ha <;> simp [ht]

/-! Coverage that the scheduler overlooks. -/

def isMemoryRead : Effect → Prop
  | .action action => action.tag = memoryTag ∧ action.action = memoryReadAction
  | .appliedAction action =>
    action.action.tag = memoryTag ∧ action.action.action = memoryReadAction
  | _ => False

/-- Errors and reads of memory do not interfere with their like. -/
def Excused (left right : Effect) : Prop :=
  EffectCoverage.memberTag left = some errorTag ∧ EffectCoverage.memberTag right = some errorTag ∨
    isMemoryRead left ∧ isMemoryRead right

/-- A tag against an action of it or of a descendant, a tag against a proper descendant, and
actions whose arguments cover one another while a pair of their selectors is apart. -/
def Overlooked (coverage : EffectCoverage) : Effect → Effect → Prop
  | .tag left, .tag right => left ≠ right ∧ coverage.Extends right left
  | .tag left, .applied right args => left ≠ right ∧ coverage.Extends right left ∧ args = []
  | .tag left, .action right => coverage.Extends right.tag left
  | .tag left, .appliedAction right => coverage.Extends right.action.tag left
  | .applied left args, .applied right other =>
    left ≠ right ∧ coverage.appliedCovers left args right other = true
  | .appliedAction left, .appliedAction right =>
    left.action.tag ≠ memoryTag ∧ SelectorsApart coverage.registry left right ∧
      coverage.appliedActionCovers left right = true
  | _, _ => False

variable {coverage : EffectCoverage}

theorem actionsMeet_self_of_not_excused {action : ActionRef}
    (hl : left = .action action ∨ ∃ args, left = .appliedAction ⟨action, args⟩)
    (hr : right = .action action ∨ ∃ args, right = .appliedAction ⟨action, args⟩)
    (h : ¬ Excused left right) : ActionsMeet action action := by
  refine ⟨rfl, fun he => h (Or.inl ?_), fun hm => h (Or.inr ?_)⟩
  · rcases hl with rfl | ⟨_, rfl⟩ <;> rcases hr with rfl | ⟨_, rfl⟩ <;>
      exact ⟨congrArg some he, congrArg some he⟩
  · rcases hl with rfl | ⟨_, rfl⟩ <;> rcases hr with rfl | ⟨_, rfl⟩ <;>
      exact ⟨⟨hm.1, hm.2.1⟩, hm.1, hm.2.1⟩

theorem covers_iff_overlooked (hx : ¬ Excused left right)
    (hc : ¬ Clashes coverage.registry left right) :
    coverage.covers left right = true ↔ Overlooked coverage left right := by
  cases left <;> cases right <;>
    try simp [EffectCoverage.covers, Overlooked]; done
  case tag.tag | tag.applied =>
    have hne := hc
    rw [Clashes] at hne
    simp [EffectCoverage.covers, Overlooked, EffectCoverage.tagCovers_iff, hne, and_comm]
  case tag.action | tag.appliedAction =>
    simp [EffectCoverage.covers, Overlooked, EffectCoverage.tagCovers_iff]
  case applied.applied =>
    have hne := hc
    rw [Clashes] at hne
    simp [EffectCoverage.covers, Overlooked, hne]
  case applied.error tag args ty =>
    refine iff_of_false (fun h => ?_) id
    rcases EffectCoverage.covers_applied h with ⟨_, _, h, -⟩ | ⟨_, -, rfl⟩
    · cases h
    · exact hx (Or.inl ⟨rfl, rfl⟩)
  case error.applied ty tag args =>
    refine iff_of_false (fun h => ?_) id
    have ht := EffectCoverage.covers_memberTag h rfl
    exact hx (Or.inl ⟨rfl, ht⟩)
  case error.error => exact absurd (Or.inl ⟨rfl, rfl⟩) hx
  case action.action left right =>
    refine iff_of_false (fun h => hc ?_) id
    obtain rfl : left = right := beq_iff_eq.mp h
    exact actionsMeet_self_of_not_excused (Or.inl rfl) (Or.inl rfl) hx
  case action.appliedAction left right =>
    refine iff_of_false (fun h => hc ?_) id
    obtain rfl : left = right.action := beq_iff_eq.mp h
    exact actionsMeet_self_of_not_excused (Or.inl rfl) (Or.inr ⟨_, rfl⟩) hx
  case appliedAction.appliedAction left right =>
    refine ⟨fun h => ?_, fun h => h.2.2⟩
    have hc' : coverage.appliedActionCovers left right = true := h
    have ha := (EffectCoverage.appliedActionCovers_iff.mp hc').1
    have hk : ActionsMeet left.action left.action :=
      actionsMeet_self_of_not_excused (Or.inr ⟨_, rfl⟩)
        (Or.inr ⟨right.args, by rw [ha]⟩) hx
    rw [Clashes, ← ha, not_and, not_or, not_not] at hc
    obtain ⟨hm, hs⟩ := hc hk
    exact ⟨hm, hs, hc'⟩
  all_goals exact absurd (by simp [Clashes]) hc

theorem Excused.symm (h : Excused left right) : Excused right left :=
  h.imp And.symm And.symm

theorem Clashes.symm (h : Clashes registry left right) : Clashes registry right left := by
  rw [← effectConflict_ne_disjoint_iff] at h ⊢
  rwa [effectConflict_comm]

theorem not_covers_iff (hc : ¬ Clashes coverage.registry left right) :
    (¬ Excused left right → coverage.covers left right = false ∧
        coverage.covers right left = false) ↔
      (¬ Excused left right → ¬ Overlooked coverage left right ∧ ¬ Overlooked coverage right left) := by
  refine imp_congr_right fun hx => ?_
  rw [← covers_iff_overlooked hx hc,
    ← covers_iff_overlooked (fun h => hx h.symm) (fun h => hc h.symm), Bool.not_eq_true,
    Bool.not_eq_true]

theorem ForCompared.imp_members {R S T : Effect → Effect → Prop}
    (hR : ForCompared (ForMembers R) branches) (hS : ForCompared (ForMembers S) branches)
    (h : ∀ l r, R l r → S l r → T l r) : ForCompared (ForMembers T) branches := by
  have hboth : ForCompared (fun b c => ForMembers R b c ∧ ForMembers S b c) branches :=
    ⟨hR.1.and hS.1, fun b hb hm => ⟨hR.2 b hb hm, hS.2 b hb hm⟩⟩
  refine hboth.mono fun b c hbc l hl r hr => ?_
  exact h l r (hbc.1 l hl r hr) (hbc.2 l hl r hr)

/-- The decision takes no note of the order, and branches that run together cover one another
nowhere exactly when, in a list without clashes, nothing is overlooked. -/
theorem schedulingDecision_sound_iff (coverage : EffectCoverage) (branches : List BranchFact) :
    ((schedulingDecision coverage.registry branches false = .concurrent →
        ForCompared (ForMembers fun l r => ¬ Excused l r →
          coverage.covers l r = false ∧ coverage.covers r l = false) branches) ∧
      ∀ branches', Reordered branches branches' →
        (schedulingDecision coverage.registry branches false).kind =
          (schedulingDecision coverage.registry branches' false).kind) ↔
    (ForCompared (ForMembers fun l r => ¬ Clashes coverage.registry l r) branches →
      ForCompared (ForMembers fun l r => ¬ Excused l r →
        ¬ Overlooked coverage l r ∧ ¬ Overlooked coverage r l) branches) := by
  have hd : schedulingDecision coverage.registry branches false = .concurrent ↔
      ForCompared (ForMembers fun l r => ¬ Clashes coverage.registry l r) branches := by
    simp only [schedulingDecision_eq_concurrent_iff, ← effectConflict_ne_disjoint_iff, not_not]
  rw [hd, and_iff_left fun branches' h => h.kind_eq]
  refine imp_congr_right fun h => ⟨fun hs => ?_, fun ho => ?_⟩
  · exact h.imp_members hs fun l r hc => (not_covers_iff hc).mp
  · exact h.imp_members ho fun l r hc => (not_covers_iff hc).mpr

/-- A registry with one effect and an action of it. -/
def auditCoverage : EffectCoverage where
  registry := (EffectRegistry.empty.registerTag 1024 "Audit").registerDependencyAction
    ⟨1024, 1024, "record", []⟩
  types := .new
  depth := 1

def auditBranch (site : Analysis.HirExprId) (effect : Effect) : BranchFact where
  taskSite := site
  effects := [effect]
  actions := []
  shape := .explicitStart

/-- One task may perform the whole effect, the other one of its actions. -/
theorem schedulingDecision_concurrent_covered :
    schedulingDecision auditCoverage.registry
        [auditBranch 1 (.tag 1024), auditBranch 2 (.action ⟨1024, 1024⟩)] false = .concurrent ∧
      ¬ Excused (.tag 1024) (.action ⟨1024, 1024⟩) ∧
      auditCoverage.covers (.tag 1024) (.action ⟨1024, 1024⟩) = true := by
  refine ⟨by decide, ?_, by decide⟩
  rintro (⟨h, -⟩ | ⟨h, -⟩)
  · exact absurd h (by decide)
  · exact h

end EtasFrontend.Concurrency
