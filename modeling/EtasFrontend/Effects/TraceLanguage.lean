import EtasFrontend.Effects.Trace
import EtasFrontend.Lib.Keyed
import EtasFrontend.Lib.Words

/-! The language of a trace, and that the operations on traces only enlarge it. -/
namespace EtasFrontend.Effects
open Lib Computability

/-- What a run does at one point: an action, or a call of a parameter. -/
inductive Letter where
  | action (action : Effect)
  | call (key : CallKey)

namespace ActionTraceDomain

/-! Letters. -/

/-- The letters of a node itself. -/
def own (node : ActionTraceDomain) : Set Letter :=
  {x | (∃ e ∈ node.ownActions, x = .action e) ∨ ∃ c ∈ node.ownCalls, x = .call c.key}

def nodeLetters (nodes : List ActionTraceDomain) : Set Letter := {x | ∃ n ∈ nodes, x ∈ n.own}

def letters (trace : ActionTraceDomain) : Set Letter := nodeLetters trace.visited

theorem nodeLetters_append (l r : List ActionTraceDomain) :
    nodeLetters (l ++ r) = nodeLetters l ∪ nodeLetters r := by
  ext x
  simp only [nodeLetters, List.mem_append, Set.mem_ofPred_eq, Set.mem_union]
  constructor
  · rintro ⟨n, hn | hn, hx⟩
    · exact Or.inl ⟨n, hn, hx⟩
    · exact Or.inr ⟨n, hn, hx⟩
  · rintro (⟨n, hn, hx⟩ | ⟨n, hn, hx⟩)
    · exact ⟨n, Or.inl hn, hx⟩
    · exact ⟨n, Or.inr hn, hx⟩

theorem nodeLetters_cons (n : ActionTraceDomain) (l : List ActionTraceDomain) :
    nodeLetters (n :: l) = n.own ∪ nodeLetters l := by
  rw [← List.singleton_append, nodeLetters_append]
  congr 1
  ext x
  simp [nodeLetters]

theorem nodeLetters_inner {n : ActionTraceDomain} (ha : n.ownActions = ∅) (hc : n.ownCalls = [])
    (l : List ActionTraceDomain) : nodeLetters (n :: l) = nodeLetters l := by
  have hown : n.own = ∅ := by
    ext x
    simp [own, ha, hc]
  rw [nodeLetters_cons, hown, Set.empty_union]

theorem nodeLetters_visitedParts (parts : List ActionTraceDomain) :
    nodeLetters (visitedParts parts) = {x | ∃ p ∈ parts, x ∈ p.letters} := by
  induction parts with
  | nil => simp [visitedParts, nodeLetters]
  | cons p parts ih =>
    rw [visitedParts, nodeLetters_append, ih]
    ext x
    simp [letters, or_comm]

mutual

/-- Both orders visit the same letters. -/
theorem nodeLetters_preorder : (t : ActionTraceDomain) → nodeLetters t.preorder = t.letters
  | .parallel parts => by
    rw [letters, preorder, visited, nodeLetters_cons, nodeLetters_cons, nodeLetters_preorderParts]
  | .seq parts => by
    rw [letters, preorder, visited, nodeLetters_cons, nodeLetters_cons, nodeLetters_preorderParts]
  | .choice parts => by
    rw [letters, preorder, visited, nodeLetters_cons, nodeLetters_cons, nodeLetters_preorderParts]
  | .repeat inner => by
    rw [letters, preorder, visited, nodeLetters_cons, nodeLetters_cons, nodeLetters_preorder inner]
    rfl
  | .taskStart site body => by
    rw [letters, preorder, visited, nodeLetters_cons, nodeLetters_cons, nodeLetters_preorder body]
    rfl
  | .empty | .event _ | .parameterCall _ _ _ | .taskAwait _ | .unknownOrder _ | .widened _ _ => rfl

theorem nodeLetters_preorderParts : (parts : List ActionTraceDomain) →
    nodeLetters (preorderParts parts) = nodeLetters (visitedParts parts)
  | [] => rfl
  | part :: parts => by
    rw [preorderParts, visitedParts, nodeLetters_append, nodeLetters_append,
      nodeLetters_preorder part, nodeLetters_preorderParts parts, Set.union_comm]
    rfl

end

theorem letters_parallel (parts : List ActionTraceDomain) :
    (parallel parts).letters = {x | ∃ p ∈ parts, x ∈ p.letters} := by
  rw [letters, visited, nodeLetters_inner rfl rfl, nodeLetters_visitedParts]

theorem letters_seq (parts : List ActionTraceDomain) :
    (seq parts).letters = {x | ∃ p ∈ parts, x ∈ p.letters} := by
  rw [letters, visited, nodeLetters_inner rfl rfl, nodeLetters_visitedParts]

theorem letters_choice (parts : List ActionTraceDomain) :
    (choice parts).letters = {x | ∃ p ∈ parts, x ∈ p.letters} := by
  rw [letters, visited, nodeLetters_inner rfl rfl, nodeLetters_visitedParts]

theorem letters_repeat (inner : ActionTraceDomain) : («repeat» inner).letters = inner.letters :=
  nodeLetters_inner rfl rfl _

theorem letters_taskStart (site : HirExprId) (body : ActionTraceDomain) :
    (taskStart site body).letters = body.letters :=
  nodeLetters_inner rfl rfl _

variable {t : ActionTraceDomain}

theorem letters_leaf (h : t.visited = [t]) : t.letters = t.own := by
  rw [letters, h]
  ext x
  simp [nodeLetters]

mutual

def lang : ActionTraceDomain → Language Letter
  | .empty => 1
  | .event e => {[.action e.action]}
  | .parameterCall target _ span => {[.call ⟨target, span⟩]}
  | .parallel parts => langParallel parts
  | .taskStart _ body => lang body
  | .taskAwait _ => 1
  | .seq parts => langSeq parts
  | .choice parts => langChoice parts
  | .repeat inner => (lang inner)∗
  | .unknownOrder actions => wordsOver {x | ∃ e ∈ actions, x = .action e}
  | .widened actions calls =>
    wordsOver {x | (∃ e ∈ actions, x = .action e) ∨ ∃ c ∈ calls, x = .call c.key}

def langSeq : List ActionTraceDomain → Language Letter
  | [] => 1
  | part :: parts => lang part * langSeq parts

def langChoice : List ActionTraceDomain → Language Letter
  | [] => 0
  | part :: parts => lang part + langChoice parts

def langParallel : List ActionTraceDomain → Language Letter
  | [] => 1
  | part :: parts => shuffle (lang part) (langParallel parts)

end

theorem langSeq_append (l r : List ActionTraceDomain) :
    langSeq (l ++ r) = langSeq l * langSeq r := by
  induction l with
  | nil => rw [List.nil_append, langSeq, one_mul]
  | cons p l ih => rw [List.cons_append, langSeq, langSeq, ih, mul_assoc]

theorem mem_langChoice {parts : List ActionTraceDomain} {w : List Letter} :
    w ∈ langChoice parts ↔ ∃ p ∈ parts, w ∈ lang p := by
  induction parts with
  | nil => simp [langChoice]
  | cons p parts ih =>
    rw [langChoice, Language.mem_add, ih]
    simp

private theorem subset_parts {p : ActionTraceDomain} {parts : List ActionTraceDomain}
    (h : p ∈ parts) : p.letters ⊆ {x | ∃ p ∈ parts, x ∈ p.letters} := fun _ hx => ⟨p, h, hx⟩

private theorem tail_subset_parts (p : ActionTraceDomain) (parts : List ActionTraceDomain) :
    {x | ∃ p ∈ parts, x ∈ p.letters} ⊆ {x | ∃ q ∈ p :: parts, x ∈ q.letters} :=
  fun _ ⟨q, hq, hx⟩ => ⟨q, List.mem_cons_of_mem _ hq, hx⟩

mutual

/-- Every word of a trace is over its letters. -/
theorem lang_le : (t : ActionTraceDomain) → t.lang ≤ wordsOver t.letters
  | .empty => one_le_wordsOver
  | .taskAwait _ => one_le_wordsOver
  | .event e => by
    rw [letters_leaf rfl]
    exact singleton_le_wordsOver (Or.inl ⟨e.action, Finset.mem_singleton_self _, rfl⟩)
  | .parameterCall target parameter span => by
    rw [letters_leaf rfl]
    exact singleton_le_wordsOver (Or.inr ⟨⟨target, parameter, span⟩, List.mem_singleton_self _, rfl⟩)
  | .parallel parts => by
    rw [letters_parallel]
    exact langParallel_le parts
  | .seq parts => by
    rw [letters_seq]
    exact langSeq_le parts
  | .choice parts => by
    rw [letters_choice]
    exact langChoice_le parts
  | .repeat inner => by
    rw [letters_repeat]
    exact kstar_le_wordsOver (lang_le inner)
  | .taskStart site body => by
    rw [letters_taskStart]
    exact lang_le body
  | .unknownOrder actions => by
    rw [letters_leaf rfl]
    exact wordsOver_mono fun x hx => Or.inl hx
  | .widened actions calls => by
    rw [letters_leaf rfl]
    exact le_rfl

theorem langSeq_le : (parts : List ActionTraceDomain) →
    langSeq parts ≤ wordsOver {x | ∃ p ∈ parts, x ∈ p.letters}
  | [] => one_le_wordsOver
  | part :: parts => mul_le_wordsOver
      ((lang_le part).trans (wordsOver_mono (subset_parts List.mem_cons_self)))
      ((langSeq_le parts).trans (wordsOver_mono (tail_subset_parts part parts)))

theorem langChoice_le : (parts : List ActionTraceDomain) →
    langChoice parts ≤ wordsOver {x | ∃ p ∈ parts, x ∈ p.letters}
  | [] => bot_le
  | part :: parts => sup_le
      ((lang_le part).trans (wordsOver_mono (subset_parts List.mem_cons_self)))
      ((langChoice_le parts).trans (wordsOver_mono (tail_subset_parts part parts)))

theorem langParallel_le : (parts : List ActionTraceDomain) →
    langParallel parts ≤ wordsOver {x | ∃ p ∈ parts, x ∈ p.letters}
  | [] => one_le_wordsOver
  | part :: parts => shuffle_le_wordsOver
      ((lang_le part).trans (wordsOver_mono (subset_parts List.mem_cons_self)))
      ((langParallel_le parts).trans (wordsOver_mono (tail_subset_parts part parts)))

end

/-! Collected actions and calls. -/

theorem mem_collectActions {nodes : List ActionTraceDomain} {e : Effect} :
    e ∈ collectActions nodes ↔ ∃ n ∈ nodes, e ∈ n.ownActions := by
  have hfold : ∀ acc : EffectSet,
      e ∈ nodes.foldl (fun actions node => actions ∪ node.ownActions) acc ↔
        e ∈ acc ∨ ∃ n ∈ nodes, e ∈ n.ownActions := by
    induction nodes with
    | nil => simp
    | cons n nodes ih =>
      intro acc
      rw [List.foldl_cons, ih, Finset.mem_union, or_assoc]
      simp
  simpa [collectActions] using hfold ∅

theorem exists_callValues {nodes : List ActionTraceDomain} {key : CallKey} :
    (∃ c ∈ callValues (collectParameterCalls nodes), c.key = key) ↔
      ∃ n ∈ nodes, ∃ c ∈ n.ownCalls, c.key = key := by
  have hmem : ∀ c, c ∈ callValues (collectParameterCalls nodes) ↔
      ∃ k, (collectParameterCalls nodes).get k = some c := by
    intro c
    simp [callValues, Map.mem_toList]
  constructor
  · rintro ⟨c, hc, rfl⟩
    obtain ⟨k, hk⟩ := (hmem c).mp hc
    obtain ⟨c', hc', he⟩ := List.mem_map.mp (Map.get_ofList_eq_some hk)
    obtain ⟨n, hn, hcn⟩ := List.mem_flatMap.mp hc'
    cases he
    exact ⟨n, hn, c, hcn, rfl⟩
  · rintro ⟨n, hn, c, hcn, rfl⟩
    have hin : (c.key, c) ∈ (nodes.flatMap ownCalls).map fun call => (call.key, call) :=
      List.mem_map.mpr ⟨c, List.mem_flatMap.mpr ⟨n, hn, hcn⟩, rfl⟩
    obtain ⟨c', hc'⟩ := Option.isSome_iff_exists.mp (Map.get_ofList_isSome hin)
    refine ⟨c', (hmem c').mpr ⟨c.key, hc'⟩, ?_⟩
    obtain ⟨c'', -, he⟩ := List.mem_map.mp (Map.get_ofList_eq_some hc')
    obtain ⟨hk, rfl⟩ := Prod.mk.inj he
    exact hk

theorem collected_eq (nodes : List ActionTraceDomain) :
    {x | (∃ e ∈ collectActions nodes, x = .action e) ∨
      ∃ c ∈ callValues (collectParameterCalls nodes), x = .call c.key} = nodeLetters nodes := by
  ext x
  constructor
  · rintro (⟨e, he, rfl⟩ | ⟨c, hc, rfl⟩)
    · obtain ⟨n, hn, hen⟩ := mem_collectActions.mp he
      exact ⟨n, hn, Or.inl ⟨e, hen, rfl⟩⟩
    · obtain ⟨n, hn, c', hc', hk⟩ := exists_callValues.mp ⟨c, hc, rfl⟩
      exact ⟨n, hn, Or.inr ⟨c', hc', congrArg _ hk.symm⟩⟩
  · rintro ⟨n, hn, ⟨e, he, rfl⟩ | ⟨c, hc, rfl⟩⟩
    · exact Or.inl ⟨e, mem_collectActions.mpr ⟨n, hn, he⟩, rfl⟩
    · obtain ⟨c', hc', hk⟩ := exists_callValues.mpr ⟨n, hn, c, hc, rfl⟩
      exact Or.inr ⟨c', hc', congrArg _ hk.symm⟩

theorem widenNodes_spec (nodes : List ActionTraceDomain) :
    (widenNodes nodes).letters = nodeLetters nodes ∧
      (widenNodes nodes).lang = wordsOver (nodeLetters nodes) := by
  rw [← collected_eq]
  simp only [widenNodes]
  split_ifs with h
  · have hnone : ({x | (∃ e ∈ collectActions nodes, x = .action e) ∨
        ∃ c ∈ callValues (collectParameterCalls nodes), x = .call c.key} : Set Letter) = ∅ := by
      ext x
      simp [h.1, callValues, h.2]
    rw [hnone, wordsOver_empty, letters_leaf rfl]
    exact ⟨by ext x; simp [own, ownActions, ownCalls], rfl⟩
  · rw [letters_leaf rfl]
    exact ⟨rfl, rfl⟩

/-- `t` says at least what `l` says, with exactly the letters `A`. -/
structure Approximates (t : ActionTraceDomain) (l : Language Letter) (A : Set Letter) : Prop where
  lang : l ≤ t.lang
  letters : t.letters = A

theorem Approximates.refl (t : ActionTraceDomain) : Approximates t t.lang t.letters :=
  ⟨le_rfl, rfl⟩

variable {l : Language Letter}

theorem Approximates.intoWidened {A : Set Letter} (h : Approximates t l A) :
    Approximates t.intoWidened l A := by
  obtain ⟨hl, hw⟩ := widenNodes_spec t.preorder
  rw [nodeLetters_preorder] at hl hw
  refine ⟨?_, hl.trans h.letters⟩
  rw [ActionTraceDomain.intoWidened, hw]
  exact h.lang.trans t.lang_le

theorem Approximates.widenIfNeeded {A : Set Letter} (h : Approximates t l A) :
    Approximates t.widenIfNeeded l A := by
  unfold ActionTraceDomain.widenIfNeeded
  split_ifs
  · exact h
  · exact h.intoWidened

theorem approximates_mergeWidened {a b : ActionTraceDomain}
    (h : l ≤ wordsOver (a.letters ∪ b.letters)) :
    Approximates (mergeWidened a b) l (a.letters ∪ b.letters) := by
  obtain ⟨hl, hw⟩ := widenNodes_spec (a.preorder ++ b.preorder)
  rw [nodeLetters_append, nodeLetters_preorder, nodeLetters_preorder] at hl hw
  exact ⟨hw ▸ h, hl⟩

theorem mem_actionSet {e : Effect} : e ∈ t.actionSet ↔ .action e ∈ t.letters := by
  rw [actionSet, mem_collectActions]
  constructor
  · rintro ⟨n, hn, he⟩
    exact ⟨n, hn, Or.inl ⟨e, he, rfl⟩⟩
  · rintro ⟨n, hn, ⟨e', he, heq⟩ | ⟨c, -, heq⟩⟩
    · cases heq
      exact ⟨n, hn, he⟩
    · cases heq

/-- The keys of the calls of a trace. -/
def callKeys (t : ActionTraceDomain) : Finset CallKey :=
  (t.parameterCalls.map ParameterCallRef.key).toFinset

theorem mem_callKeys {key : CallKey} : key ∈ t.callKeys ↔ .call key ∈ t.letters := by
  rw [callKeys, List.mem_toFinset, List.mem_map, parameterCalls, exists_callValues]
  constructor
  · rintro ⟨n, hn, c, hc, rfl⟩
    exact ⟨n, hn, Or.inr ⟨c, hc, rfl⟩⟩
  · rintro ⟨n, hn, ⟨e, -, heq⟩ | ⟨c, hc, heq⟩⟩
    · cases heq
    · cases heq
      exact ⟨n, hn, c, hc, rfl⟩

theorem approximates_absorb {left : EffectSet} {b : ActionTraceDomain}
    (h : l ≤ wordsOver ((unknownOrder left).letters ∪ b.letters)) :
    Approximates (absorb left b) l ((unknownOrder left).letters ∪ b.letters) := by
  unfold absorb
  split_ifs with hc
  · exact approximates_mergeWidened h
  · -- without calls the letters are the actions
    rw [Bool.or_eq_true, not_or, Bool.not_eq_true', Bool.not_eq_false] at hc
    have hcalls : b.callKeys = ∅ := by
      rw [callKeys, List.isEmpty_iff.mp hc.2]
      rfl
    have hletters : (unknownOrder (left ∪ b.actionSet)).letters =
        (unknownOrder left).letters ∪ b.letters := by
      rw [letters_leaf rfl, letters_leaf rfl]
      ext x
      cases x with
      | action e => simp [own, ownActions, ownCalls, mem_actionSet]
      | call key => simp [own, ownActions, ownCalls, ← mem_callKeys, hcalls]
    refine ⟨?_, hletters⟩
    rw [← hletters, letters_leaf rfl] at h
    refine h.trans (wordsOver_mono fun x hx => ?_)
    simpa [own, ownActions, ownCalls] using hx

theorem letters_empty : empty.letters = ∅ := by
  rw [letters_leaf rfl]
  ext x
  simp [own, ownActions, ownCalls]

theorem letters_unknownOrder_union (a b : EffectSet) :
    (unknownOrder (a ∪ b)).letters = (unknownOrder a).letters ∪ (unknownOrder b).letters := by
  rw [letters_leaf rfl, letters_leaf rfl, letters_leaf rfl]
  ext x
  cases x <;> simp [own, ownActions, ownCalls]

theorem lang_unknownOrder (a : EffectSet) :
    (unknownOrder a).lang = wordsOver (unknownOrder a).letters := by
  rw [letters_leaf rfl, lang]
  congr 1
  ext x
  simp [own, ownActions, ownCalls]

private theorem letters_parts_append (l r : List ActionTraceDomain) :
    {x | ∃ p ∈ l ++ r, x ∈ p.letters} =
      ({x | ∃ p ∈ l, x ∈ p.letters} ∪ {x | ∃ p ∈ r, x ∈ p.letters} : Set Letter) := by
  ext x
  simp [or_and_right, exists_or]

private theorem letters_parts_singleton (t : ActionTraceDomain) :
    {x | ∃ p ∈ [t], x ∈ p.letters} = t.letters := by
  ext x
  simp

section
variable (a b : ActionTraceDomain)

theorem mul_le_letters : a.lang * b.lang ≤ wordsOver (a.letters ∪ b.letters) :=
  mul_le_wordsOver (a.lang_le.trans (wordsOver_mono Set.subset_union_left))
    (b.lang_le.trans (wordsOver_mono Set.subset_union_right))

theorem add_le_letters : a.lang + b.lang ≤ wordsOver (a.letters ∪ b.letters) :=
  sup_le (a.lang_le.trans (wordsOver_mono Set.subset_union_left))
    (b.lang_le.trans (wordsOver_mono Set.subset_union_right))

private theorem approximates_seq {l r : List ActionTraceDomain} (hl : a.lang ≤ langSeq l)
    (hr : b.lang ≤ langSeq r) (ha : {x | ∃ p ∈ l, x ∈ p.letters} = a.letters)
    (hb : {x | ∃ p ∈ r, x ∈ p.letters} = b.letters) :
    Approximates (seq (l ++ r)) (a.lang * b.lang) (a.letters ∪ b.letters) := by
  refine ⟨?_, by rw [letters_seq, letters_parts_append, ha, hb]⟩
  rw [lang, langSeq_append]
  exact mul_le_mul' hl hr

theorem approximates_seqArms :
    Approximates (seqArms a b) (a.lang * b.lang) (a.letters ∪ b.letters) := by
  have hsingle (t : ActionTraceDomain) : t.lang ≤ langSeq [t] := by
    rw [langSeq, langSeq, mul_one]
  have hbound := mul_le_letters a b
  unfold seqArms
  split
  next => exact ⟨by rw [lang, one_mul], by rw [letters_empty, Set.empty_union]⟩
  next => exact ⟨by rw [lang, mul_one], by rw [letters_empty, Set.union_empty]⟩
  next =>
    refine ⟨?_, letters_unknownOrder_union ..⟩
    rw [lang_unknownOrder (_ ∪ _), letters_unknownOrder_union]
    exact hbound
  next => exact approximates_mergeWidened hbound
  next =>
    rw [Set.union_comm] at hbound ⊢
    exact approximates_mergeWidened hbound
  next => exact approximates_absorb hbound
  next =>
    rw [Set.union_comm] at hbound ⊢
    exact approximates_absorb hbound
  next => exact approximates_seq _ _ le_rfl le_rfl (letters_seq _).symm (letters_seq _).symm
  next =>
    exact approximates_seq _ _ le_rfl (hsingle b) (letters_seq _).symm (letters_parts_singleton b)
  next =>
    exact approximates_seq _ _ (hsingle a) le_rfl (letters_parts_singleton a) (letters_seq _).symm
  next =>
    exact approximates_seq _ _ (hsingle a) (hsingle b) (letters_parts_singleton a)
      (letters_parts_singleton b)

omit a b in
theorem mem_sortDedup (debug : ActionTraceDomain → String) {items : List ActionTraceDomain} :
    t ∈ sortDedup debug items ↔ t ∈ items :=
  mem_destutter_insertionSort fun a b => debug a ≤ debug b

private theorem approximates_choice (debug : ActionTraceDomain → String)
    {l r : List ActionTraceDomain} (hl : a.lang ≤ langChoice l)
    (hr : b.lang ≤ langChoice r) (ha : {x | ∃ p ∈ l, x ∈ p.letters} = a.letters)
    (hb : {x | ∃ p ∈ r, x ∈ p.letters} = b.letters) :
    Approximates (choice (sortDedup debug (l ++ r))) (a.lang + b.lang) (a.letters ∪ b.letters) := by
  refine ⟨?_, ?_⟩
  · rintro w (hw | hw)
    · obtain ⟨p, hp, hpw⟩ := mem_langChoice.mp (hl hw)
      exact mem_langChoice.mpr
        ⟨p, (mem_sortDedup debug).mpr (List.mem_append_left _ hp), hpw⟩
    · obtain ⟨p, hp, hpw⟩ := mem_langChoice.mp (hr hw)
      exact mem_langChoice.mpr
        ⟨p, (mem_sortDedup debug).mpr (List.mem_append_right _ hp), hpw⟩
  · rw [letters_choice, ← ha, ← hb, ← letters_parts_append]
    ext x
    simp only [mem_sortDedup]

theorem approximates_choiceArms (debug : ActionTraceDomain → String) :
    Approximates (choiceArms debug a b) (a.lang + b.lang) (a.letters ∪ b.letters) := by
  have hsingle (t : ActionTraceDomain) : t.lang ≤ langChoice [t] := by
    rw [langChoice, langChoice, add_zero]
  have hbound := add_le_letters a b
  unfold choiceArms
  split
  next =>
    refine ⟨?_, letters_unknownOrder_union ..⟩
    rw [lang_unknownOrder (_ ∪ _), letters_unknownOrder_union]
    exact hbound
  next => exact approximates_mergeWidened hbound
  next =>
    rw [Set.union_comm] at hbound ⊢
    exact approximates_mergeWidened hbound
  next => exact approximates_absorb hbound
  next =>
    rw [Set.union_comm] at hbound ⊢
    exact approximates_absorb hbound
  next =>
    exact approximates_choice _ _ debug le_rfl le_rfl (letters_choice _).symm
      (letters_choice _).symm
  next =>
    exact approximates_choice _ _ debug le_rfl (hsingle b) (letters_choice _).symm
      (letters_parts_singleton b)
  next =>
    exact approximates_choice _ _ debug (hsingle a) le_rfl (letters_parts_singleton a)
      (letters_choice _).symm
  next =>
    exact approximates_choice _ _ debug (hsingle a) (hsingle b) (letters_parts_singleton a)
      (letters_parts_singleton b)

theorem approximates_seqTrace :
    Approximates (seqTrace a b) (a.lang * b.lang) (a.letters ∪ b.letters) :=
  (approximates_seqArms a b).widenIfNeeded

theorem approximates_choiceTrace (debug : ActionTraceDomain → String) :
    Approximates (choiceTrace debug a b) (a.lang + b.lang) (a.letters ∪ b.letters) := by
  unfold choiceTrace
  apply Approximates.widenIfNeeded
  split_ifs with h
  · subst h
    exact ⟨by rw [Language.add_self], (Set.union_self _).symm⟩
  · exact approximates_choiceArms a b debug

theorem approximates_repeatTrace : Approximates (repeatTrace a) a.lang∗ a.letters := by
  unfold repeatTrace
  split
  next => exact ⟨by rw [lang, kstar_one], rfl⟩
  next => exact ⟨by rw [lang, kstar_idem], rfl⟩
  next => exact ⟨le_rfl, letters_repeat a⟩

theorem approximates_stabilize (current : Option ActionTraceDomain) :
    Approximates (a.stabilizeForFixpoint current) a.lang a.letters := by
  unfold stabilizeForFixpoint
  split_ifs
  · exact (Approximates.refl a).intoWidened
  · exact .refl a

end

theorem Approximates.sets {t a b : ActionTraceDomain}
    (h : Approximates t l (a.letters ∪ b.letters)) :
    t.actionSet = a.actionSet ∪ b.actionSet ∧ t.callKeys = a.callKeys ∪ b.callKeys := by
  constructor
  · ext e
    rw [Finset.mem_union, mem_actionSet, mem_actionSet, mem_actionSet, h.letters]
    rfl
  · ext key
    rw [Finset.mem_union, mem_callKeys, mem_callKeys, mem_callKeys, h.letters]
    rfl

/-- Every operation keeps all words and invents no action and no call. -/
theorem trace_operations (debug : ActionTraceDomain → String) (a b : ActionTraceDomain)
    (current : Option ActionTraceDomain) :
    (a.lang * b.lang ≤ (seqTrace a b).lang ∧
      (seqTrace a b).actionSet = a.actionSet ∪ b.actionSet ∧
      (seqTrace a b).callKeys = a.callKeys ∪ b.callKeys) ∧
    (a.lang + b.lang ≤ (choiceTrace debug a b).lang ∧
      (choiceTrace debug a b).actionSet = a.actionSet ∪ b.actionSet ∧
      (choiceTrace debug a b).callKeys = a.callKeys ∪ b.callKeys) ∧
    (a.lang∗ ≤ (repeatTrace a).lang ∧ (repeatTrace a).actionSet = a.actionSet ∧
      (repeatTrace a).callKeys = a.callKeys) ∧
    (a.lang ≤ (a.stabilizeForFixpoint current).lang ∧
      (a.stabilizeForFixpoint current).actionSet = a.actionSet ∧
      (a.stabilizeForFixpoint current).callKeys = a.callKeys) ∧
    a.lang ≤ a.intoWidened.lang ∧ a.intoWidened.actionSet = a.actionSet ∧
      a.intoWidened.callKeys = a.callKeys := by
  have hself {t : ActionTraceDomain} {l : Language Letter} (h : Approximates t l a.letters) :
      t.actionSet = a.actionSet ∧ t.callKeys = a.callKeys := by
    rw [← Set.union_self a.letters] at h
    simpa using h.sets
  have hseq := approximates_seqTrace a b
  have hchoice := approximates_choiceTrace a b debug
  have hrepeat := approximates_repeatTrace a
  have hstable := approximates_stabilize a current
  have hwide := (Approximates.refl a).intoWidened
  exact ⟨⟨hseq.lang, hseq.sets⟩, ⟨hchoice.lang, hchoice.sets⟩, ⟨hrepeat.lang, hself hrepeat⟩,
    ⟨hstable.lang, hself hstable⟩, hwide.lang, hself hwide⟩

/-- Two calls of one target at one place under two names: one of them is lost. -/
theorem parameterCalls_keyed :
    let f : ParameterCallRef := ⟨.native 0, "f", ⟨0, 0, 1⟩⟩
    let g : ParameterCallRef := ⟨.native 0, "g", ⟨0, 0, 1⟩⟩
    let a := parameterCall f.target f.parameter f.span
    let b := parameterCall g.target g.parameter g.span
    f ∈ a.parameterCalls ∧ g ∈ b.parameterCalls ∧
      ¬ (f ∈ (seqTrace a b).parameterCalls ∧ g ∈ (seqTrace a b).parameterCalls) := by
  decide

end ActionTraceDomain
end EtasFrontend.Effects
