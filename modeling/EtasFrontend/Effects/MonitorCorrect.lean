import EtasFrontend.Effects.Monitor
import EtasFrontend.Effects.TraceLanguage
import EtasFrontend.Lib.Scan

/-! What the answers of the prior-evidence monitor say about the words of a trace. -/
namespace EtasFrontend.Effects
open Lib Computability

variable {parts : List ActionTraceDomain} {trace : ActionTraceDomain}

namespace ActionTraceDomain

/-! Traces with a word. -/

/-- Every choice has an alternative. -/
def ChoicesNonempty (trace : ActionTraceDomain) : Prop :=
  ∀ node ∈ trace.visited, node ≠ .choice []

theorem mem_visitedParts {node : ActionTraceDomain} :
    node ∈ visitedParts parts ↔ ∃ part ∈ parts, node ∈ part.visited := by
  induction parts with
  | nil => simp [visitedParts]
  | cons part parts ih =>
    rw [visitedParts, List.mem_append, ih]
    simp [or_comm]

theorem ChoicesNonempty.of_visited {trace part : ActionTraceDomain} (h : trace.ChoicesNonempty)
    (hpart : ∀ node ∈ part.visited, node ∈ trace.visited) : part.ChoicesNonempty :=
  fun node hnode => h node (hpart node hnode)

theorem ChoicesNonempty.of_parts {trace : ActionTraceDomain} {parts : List ActionTraceDomain}
    (h : trace.ChoicesNonempty) (hvisited : trace.visited = trace :: visitedParts parts) :
    ∀ part ∈ parts, part.ChoicesNonempty := by
  intro part hpart
  apply h.of_visited
  intro node hnode
  rw [hvisited]
  exact List.mem_cons_of_mem _ (mem_visitedParts.mpr ⟨part, hpart, hnode⟩)

theorem ChoicesNonempty.seq (h : (seq parts).ChoicesNonempty) :
    ∀ part ∈ parts, part.ChoicesNonempty :=
  h.of_parts (by rw [visited])

theorem ChoicesNonempty.choice (h : (choice parts).ChoicesNonempty) :
    ∀ part ∈ parts, part.ChoicesNonempty :=
  h.of_parts (by rw [visited])

theorem ChoicesNonempty.parallel (h : (parallel parts).ChoicesNonempty) :
    ∀ part ∈ parts, part.ChoicesNonempty :=
  h.of_parts (by rw [visited])

theorem ChoicesNonempty.taskStart {site : HirExprId} {body : ActionTraceDomain}
    (h : (taskStart site body).ChoicesNonempty) : body.ChoicesNonempty := by
  apply h.of_visited
  intro node hnode
  rw [visited]
  exact List.mem_cons_of_mem _ hnode

theorem ChoicesNonempty.repeat {inner : ActionTraceDomain}
    (h : («repeat» inner).ChoicesNonempty) : inner.ChoicesNonempty := by
  apply h.of_visited
  intro node hnode
  rw [visited]
  exact List.mem_cons_of_mem _ hnode

mutual

theorem ChoicesNonempty.exists_mem_lang : (trace : ActionTraceDomain) → trace.ChoicesNonempty →
    ∃ w, w ∈ trace.lang
  | .empty, _ => ⟨[], rfl⟩
  | .taskAwait _, _ => ⟨[], rfl⟩
  | .event e, _ => ⟨[.action e.action], rfl⟩
  | .parameterCall target _ span, _ => ⟨[.call ⟨target, span⟩], rfl⟩
  | .taskStart _ body, h => exists_mem_lang body h.taskStart
  | .repeat inner, _ => ⟨[], Language.nil_mem_kstar inner.lang⟩
  | .unknownOrder _, _ => ⟨[], nofun⟩
  | .widened _ _, _ => ⟨[], nofun⟩
  | .seq parts, h => exists_mem_langSeq parts h.seq
  | .parallel parts, h => exists_mem_langParallel parts h.parallel
  | .choice [], h => absurd rfl (h (.choice []) (by rw [visited]; exact List.mem_cons_self))
  | .choice (part :: parts), h => by
    obtain ⟨w, hw⟩ := exists_mem_lang part (h.choice part List.mem_cons_self)
    exact ⟨w, mem_langChoice.mpr ⟨part, List.mem_cons_self, hw⟩⟩

theorem ChoicesNonempty.exists_mem_langSeq : (parts : List ActionTraceDomain) →
    (∀ part ∈ parts, part.ChoicesNonempty) → ∃ w, w ∈ langSeq parts
  | [], _ => ⟨[], rfl⟩
  | part :: parts, h => by
    obtain ⟨u, hu⟩ := exists_mem_lang part (h part List.mem_cons_self)
    obtain ⟨v, hv⟩ := exists_mem_langSeq parts fun other hother =>
      h other (List.mem_cons_of_mem _ hother)
    exact ⟨u ++ v, u, hu, v, hv, rfl⟩

theorem ChoicesNonempty.exists_mem_langParallel : (parts : List ActionTraceDomain) →
    (∀ part ∈ parts, part.ChoicesNonempty) → ∃ w, w ∈ langParallel parts
  | [], _ => ⟨[], rfl⟩
  | part :: parts, h => by
    obtain ⟨u, hu⟩ := exists_mem_lang part (h part List.mem_cons_self)
    obtain ⟨v, hv⟩ := exists_mem_langParallel parts fun other hother =>
      h other (List.mem_cons_of_mem _ hother)
    exact ⟨u ++ v, u, hu, v, hv, interleave_append u v⟩

end

theorem lang_stripRepeat (trace : ActionTraceDomain) : (stripRepeat trace).lang∗ = trace.lang∗ := by
  fun_induction stripRepeat trace with
  | case1 nested ih => rw [ih, lang, kstar_idem]
  | case2 trace _ => rfl

theorem stripRepeat_choicesNonempty (h : trace.ChoicesNonempty) :
    (stripRepeat trace).ChoicesNonempty := by
  fun_induction stripRepeat trace with
  | case1 nested ih => exact ih h.repeat
  | case2 trace _ => exact h

theorem sizeOf_stripRepeat_le (trace : ActionTraceDomain) :
    sizeOf (stripRepeat trace) ≤ sizeOf trace := by
  fun_induction stripRepeat trace with
  | case1 nested ih =>
    apply ih.trans
    simp
  | case2 trace _ => exact le_rfl

theorem mem_own {node : ActionTraceDomain} {e : Effect} (h : Letter.action e ∈ node.own) :
    e ∈ node.ownActions := by
  obtain ⟨e', he', heq⟩ | ⟨c, -, heq⟩ := h
  · cases heq
    exact he'
  · cases heq

theorem mem_ownActions {e : Effect} (hleaf : trace.visited = [trace])
    (h : Letter.action e ∈ trace.letters) : e ∈ trace.ownActions := by
  rw [letters_leaf hleaf] at h
  exact mem_own h

end ActionTraceDomain

namespace SingleComponentMonitor
variable {monitor : SingleComponentMonitor} {states : Finset (AbstractState monitor.product)}

/-- The prior-evidence automaton on a word: a target without a guard before it is rejected. -/
def observe (monitor : SingleComponentMonitor) (state : AbstractState monitor.product) :
    Letter → Option (AbstractState monitor.product)
  | .action e =>
    if monitor.targetMatches e && !state.priorGuardRequest then none
    else some { state with
      priorGuardRequest := state.priorGuardRequest || monitor.guardMatches e }
  | .call _ => some state

/-- The states of a run that has not been rejected: only the flag varies. -/
def Good (monitor : SingleComponentMonitor) (states : Finset (AbstractState monitor.product)) :
    Prop :=
  ∀ state ∈ states, state.monitor = monitor.product.initialState

theorem Good.card_le_two (h : monitor.Good states) : states.card ≤ 2 := by
  have hinj : Set.InjOn AbstractState.priorGuardRequest
      (states : Set (AbstractState monitor.product)) := by
    intro s hs t ht heq
    have hm : s.monitor = t.monitor := (h s hs).trans (h t ht).symm
    cases s
    cases t
    simp_all
  calc states.card = (states.image AbstractState.priorGuardRequest).card :=
        (Finset.card_image_of_injOn hinj).symm
    _ ≤ Fintype.card Bool := Finset.card_le_univ _
    _ = 2 := rfl

theorem Good.union {next : Finset (AbstractState monitor.product)} (h : monitor.Good states)
    (h' : monitor.Good next) : monitor.Good (states ∪ next) := by
  intro state hstate
  rcases Finset.mem_union.mp hstate with hs | hs
  · exact h state hs
  · exact h' state hs

theorem Good.subset {next : Finset (AbstractState monitor.product)} (h : monitor.Good states)
    (hsub : next ⊆ states) : monitor.Good next := fun state hstate => h state (hsub hstate)

theorem observe_of_missing {state : AbstractState monitor.product} {event : ActionEvent}
    (h : monitor.missing state event = true) :
    monitor.observe state (.action event.action) = none := by
  unfold missing at h
  simp [observe, h]

theorem observe_of_not_missing {state : AbstractState monitor.product} {event : ActionEvent}
    (h : monitor.missing state event = false) :
    monitor.observe state (.action event.action) = some ⟨state.monitor,
      state.priorGuardRequest || monitor.guardMatches event.action⟩ := by
  unfold missing at h
  simp [observe, h]

theorem Good.active (h : monitor.Good states) {state : AbstractState monitor.product}
    (hstate : state ∈ states) : monitor.product.componentState state.monitor = some .active := by
  rw [h state hstate]
  exact monitor.product.initial_active

theorem stepViolates_of_active {state : AbstractState monitor.product} (event : ActionEvent)
    (h : monitor.product.componentState state.monitor = some .active) :
    monitor.stepViolates event state = monitor.missing state event := by
  unfold stepViolates
  cases hm : monitor.missing state event with
  | false => simp [monitor.product.active_stays _ h, h]
  | true =>
    obtain ⟨step, hstep, hrejects⟩ := monitor.product.active_rejects _ h
    rw [hstep]
    rcases hrejects with hnone | hnone | ⟨next, hnext, hrejected⟩
    · simp [hnone]
    · simp [hnone]
    · have hany : (step.states.any fun next =>
          monitor.product.componentState next == some .rejected) = true :=
        List.any_eq_true.mpr ⟨next, hnext, by simp [hrejected]⟩
      simp [hany]

theorem stepStates_of_active {state : AbstractState monitor.product} {event : ActionEvent}
    (h : monitor.product.componentState state.monitor = some .active)
    (hm : monitor.missing state event = false) :
    monitor.stepStates event state = {⟨state.monitor,
      state.priorGuardRequest || monitor.guardMatches event.action⟩} := by
  simp [stepStates, hm, monitor.product.active_stays _ h]

/-- What a run over the language `l` from `states` says. To be rejected, or reached, there has to be
a word; `live` gives one. -/
def RunSpec (l : Language Letter) (live : Prop) (states : Finset (AbstractState monitor.product)) :
    TraceRun monitor.product → Prop
  | .violation => live → Rejects monitor.observe l states
  | .states next incomplete => monitor.Good next ∧
      (incomplete = false → Covers monitor.observe l states next) ∧
      (live → Reaches monitor.observe l states next)

theorem RunSpec.unknown (l : Language Letter) (live : Prop) : RunSpec l live states .unknown := by
  refine ⟨nofun, nofun, fun _ => ?_⟩
  rw [Finset.coe_empty]
  exact Reaches.empty monitor.observe l states

theorem RunSpec.none (l : Language Letter) (live : Prop) :
    RunSpec l live (∅ : Finset (AbstractState monitor.product)) (.known ∅) := by
  refine ⟨nofun, fun _ s hs => ?_, fun _ s hs => ?_⟩
  · simp at hs
  · simp at hs

variable {l : Language Letter}

theorem RunSpec.imp {live live' : Prop} {r : TraceRun monitor.product} (h : RunSpec l live states r)
    (hlive : live' → live) : RunSpec l live' states r := by
  cases r with
  | violation => exact fun h' => h (hlive h')
  | states next incomplete => exact ⟨h.1, h.2.1, fun h' => h.2.2 (hlive h')⟩

theorem RunSpec.still {A : Set Letter} (hA : ∀ x ∈ A, ∀ s, monitor.observe s x = some s)
    {live : Prop} (hl : l ≤ wordsOver A) (hlive : live → ∃ w, w ∈ l) (hgood : monitor.Good states) :
    RunSpec l live states (.known states) := by
  refine ⟨hgood, fun _ => Covers.still hA hl _, fun h => ?_⟩
  obtain ⟨w, hw⟩ := hlive h
  exact Reaches.still hA hl hw _

theorem RunSpec.stepEvent {live : Prop} (event : ActionEvent) (hgood : monitor.Good states) :
    RunSpec {[.action event.action]} live states (monitor.stepEvent states event) := by
  unfold SingleComponentMonitor.stepEvent
  split_ifs with hundecided hviolates
  · exact RunSpec.unknown _ _
  · intro _
    obtain ⟨state, hstate, hv⟩ := hviolates
    rw [stepViolates_of_active event (hgood.active hstate)] at hv
    refine ⟨state, hstate, _, rfl, ?_⟩
    rw [List.foldlM_cons, observe_of_missing hv]
    rfl
  · have hmissing : ∀ state ∈ states, monitor.missing state event = false := by
      intro state hstate
      rw [← stepViolates_of_active event (hgood.active hstate)]
      exact Bool.eq_false_iff.mpr fun h => hviolates ⟨state, hstate, h⟩
    have hrun : ∀ state ∈ states, [Letter.action event.action].foldlM monitor.observe state =
        some ⟨state.monitor, state.priorGuardRequest || monitor.guardMatches event.action⟩ := by
      intro state hstate
      rw [List.foldlM_cons, observe_of_not_missing (hmissing state hstate)]
      rfl
    have hmem : ∀ next, next ∈ states.biUnion (monitor.stepStates event) ↔ ∃ state ∈ states,
        next = ⟨state.monitor, state.priorGuardRequest || monitor.guardMatches event.action⟩ := by
      intro next
      rw [Finset.mem_biUnion]
      refine exists_congr fun state => and_congr_right fun hstate => ?_
      rw [stepStates_of_active (hgood.active hstate) (hmissing state hstate),
        Finset.mem_singleton]
    refine ⟨?_, fun _ => ?_, fun _ => ?_⟩
    · intro next hnext
      obtain ⟨state, hstate, rfl⟩ := (hmem next).mp hnext
      exact hgood state hstate
    · rintro state hstate w rfl
      exact ⟨_, (hmem _).mpr ⟨state, hstate, rfl⟩, hrun state hstate⟩
    · intro next hnext
      obtain ⟨state, hstate, rfl⟩ := (hmem next).mp hnext
      exact ⟨state, hstate, _, rfl, hrun state hstate⟩

/-! Actions that need no order. -/

theorem not_matches_of_not_may {pattern : TraceSpecPattern} {e : Effect}
    (h : pattern.mayMatchEffect monitor.coverage e = false) :
    pattern.matchesEffect monitor.coverage monitor.satisfiesSpec e = false := by
  unfold TraceSpecPattern.mayMatchEffect at h
  split_ifs at h
  have hnone := of_decide_eq_false h
  apply decide_eq_false
  rintro ⟨allowed, hallowed, hcovers, -⟩
  exact hnone ⟨allowed, hallowed, TraceSpecPattern.mayMatchCandidate_of_covers hcovers⟩

theorem observe_quiet {actions : EffectSet} (h : monitor.unknownNeedsOrder actions = false)
    {e : Effect} (he : e ∈ actions) (state : AbstractState monitor.product) :
    monitor.observe state (.action e) = some state := by
  have hnone := of_decide_eq_false h
  have hmay : (monitor.target.mayMatchEffect monitor.coverage e ||
      monitor.guard.mayMatchEffect monitor.coverage e) = false :=
    Bool.eq_false_iff.mpr fun hm => hnone ⟨e, he, hm⟩
  obtain ⟨ht, hg⟩ := Bool.or_eq_false_iff.mp hmay
  have htarget : monitor.targetMatches e = false := not_matches_of_not_may ht
  have hguard : monitor.guardMatches e = false := not_matches_of_not_may hg
  simp [observe, htarget, hguard]

theorem RunSpec.quiet {actions : EffectSet}
    (hactions : ∀ e, Letter.action e ∈ trace.letters → e ∈ actions)
    (h : monitor.unknownNeedsOrder actions = false) (hgood : monitor.Good states) :
    RunSpec trace.lang trace.ChoicesNonempty states (.known states) := by
  refine RunSpec.still (A := trace.letters) ?_ trace.lang_le
    (ActionTraceDomain.ChoicesNonempty.exists_mem_lang trace) hgood
  intro x hx state
  cases x with
  | action e => exact observe_quiet h (hactions e hx) state
  | call key => rfl

section
variable {run : ActionTraceDomain → Finset (AbstractState monitor.product) →
  Option (TraceRun monitor.product)}

/-- A run of each part gives a run of the sequence. -/
theorem runSeq_spec
    (hrun : ∀ part ∈ parts, ∀ before, monitor.Good before →
      ∃ r, run part before = some r ∧ RunSpec part.lang part.ChoicesNonempty before r)
    {current : Finset (AbstractState monitor.product)} (hgood : monitor.Good current)
    (incomplete : Bool) :
    ∃ r, monitor.runSeq run parts current incomplete = some r ∧
      RunSpec (ActionTraceDomain.langSeq parts) (∀ part ∈ parts, part.ChoicesNonempty) current r ∧
      ∀ next, r = .states next false → incomplete = false := by
  induction parts generalizing current incomplete with
  | nil =>
    refine ⟨_, rfl, ⟨hgood, fun _ => Covers.one _, fun _ => Reaches.one _⟩, ?_⟩
    rintro next ⟨⟩
    rfl
  | cons part parts ih =>
    obtain ⟨r, hr, hspec⟩ := hrun part List.mem_cons_self current hgood
    have htail : (∀ p ∈ part :: parts, p.ChoicesNonempty) → ∀ p ∈ parts, p.ChoicesNonempty :=
      fun h p hp => h p (List.mem_cons_of_mem _ hp)
    have hrest := fun p hp => hrun p (List.mem_cons_of_mem _ hp)
    cases r with
    | violation =>
      refine ⟨.violation, by rw [runSeq, hr], fun hlive => ?_, nofun⟩
      have hw := ActionTraceDomain.ChoicesNonempty.exists_mem_langSeq parts (htail hlive)
      obtain ⟨v, hv⟩ := hw
      exact (hspec (hlive part List.mem_cons_self)).mul_left hv
    | states next nextIncomplete =>
      obtain ⟨hnext, hcovers, hreaches⟩ := hspec
      obtain ⟨r, hr', hspec', hinc⟩ := ih hrest hnext (incomplete || nextIncomplete)
      refine ⟨r, by rw [runSeq, hr]; exact hr', ?_, ?_⟩
      · cases r with
        | violation =>
          intro hlive
          exact Rejects.mul_right (hreaches (hlive part List.mem_cons_self)) (hspec' (htail hlive))
        | states last lastIncomplete =>
          obtain ⟨hlast, hcovers', hreaches'⟩ := hspec'
          refine ⟨hlast, ?_, fun hlive => ?_⟩
          · rintro rfl
            have hor := hinc last rfl
            exact (hcovers (Bool.or_eq_false_iff.mp hor).2).mul (hcovers' rfl)
          · exact (hreaches (hlive part List.mem_cons_self)).mul (hreaches' (htail hlive))
      · intro last hlast
        exact (Bool.or_eq_false_iff.mp (hinc last hlast)).1

/-- A run of each branch gives a run of the choice. What was joined before stays. -/
theorem runChoice_spec {branches : List ActionTraceDomain}
    (hrun : ∀ branch ∈ branches,
      ∃ r, run branch states = some r ∧ RunSpec branch.lang branch.ChoicesNonempty states r)
    {live : Prop} {joined : Finset (AbstractState monitor.product)} {incomplete : Bool}
    (hlive : live → ∀ branch ∈ branches, branch.ChoicesNonempty)
    (hjoined : RunSpec l live states (.states joined incomplete)) :
    ∃ r, monitor.runChoice (fun branch => run branch states) branches joined incomplete = some r ∧
      RunSpec (l + ActionTraceDomain.langChoice branches) live states r := by
  induction branches generalizing l joined incomplete with
  | nil =>
    refine ⟨_, rfl, ?_⟩
    rw [ActionTraceDomain.langChoice, add_zero]
    exact hjoined
  | cons branch branches ih =>
    obtain ⟨r, hr, hspec⟩ := hrun branch List.mem_cons_self
    have hrest := fun b hb => hrun b (List.mem_cons_of_mem _ hb)
    cases r with
    | violation =>
      refine ⟨.violation, by rw [runChoice, hr], fun h => ?_⟩
      apply (hspec (hlive h branch List.mem_cons_self)).mono_lang
      rw [ActionTraceDomain.langChoice, ← add_assoc, add_right_comm]
      exact le_add_self
    | states next nextIncomplete =>
      obtain ⟨hnext, hcovers, hreaches⟩ := hspec
      obtain ⟨hgood, hcovered, hreached⟩ := hjoined
      have hstep : RunSpec (l + branch.lang) live states
          (.states (joined ∪ next) (incomplete || nextIncomplete)) := by
        refine ⟨hgood.union hnext, fun hor => ?_, fun h => ?_⟩
        · obtain ⟨hi, hn⟩ := Bool.or_eq_false_iff.mp hor
          rw [Finset.coe_union]
          exact ((hcovered hi).mono subset_rfl Set.subset_union_left).add
            ((hcovers hn).mono subset_rfl Set.subset_union_right)
        · have hn := hreaches (hlive h branch List.mem_cons_self)
          rw [Finset.coe_union]
          exact ((hreached h).mono_lang le_self_add).union (hn.mono_lang le_add_self)
      obtain ⟨r, hr', hspec'⟩ := ih hrest
        (fun h b hb => hlive h b (List.mem_cons_of_mem _ hb)) hstep
      refine ⟨r, by rw [runChoice, hr]; exact hr', ?_⟩
      rw [ActionTraceDomain.langChoice, ← add_assoc]
      exact hspec'

end

/-- The loop of a repetition: the words of `l` lead from what was run to what is reached. -/
structure RepeatInv (l : Language Letter) (live : Prop)
    (start reached pending : Finset (AbstractState monitor.product)) (incomplete : Bool) :
    Prop where
  good : monitor.Good reached
  start_subset : start ⊆ reached
  pending_subset : pending ⊆ reached
  covers : incomplete = false → Covers monitor.observe l (reached \ pending) reached
  reaches : live → Reaches monitor.observe l∗ start reached

theorem RepeatInv.start {live : Prop} (hgood : monitor.Good states) :
    RepeatInv l live states states states false := by
  refine ⟨hgood, subset_rfl, subset_rfl, fun _ s hs => ?_, fun _ => Reaches.kstar_refl l _⟩
  exact absurd hs.1 hs.2

theorem RepeatInv.turn {live : Prop}
    {start reached pending next : Finset (AbstractState monitor.product)}
    {incomplete nextIncomplete : Bool} (inv : RepeatInv l live start reached pending incomplete)
    (h : RunSpec l live pending (.states next nextIncomplete)) :
    RepeatInv l live start (reached ∪ next \ reached) (next \ reached)
      (incomplete || nextIncomplete) := by
  obtain ⟨hnext, hcovers, hreaches⟩ := h
  refine ⟨inv.good.union (hnext.subset Finset.sdiff_subset),
    inv.start_subset.trans Finset.subset_union_left, Finset.subset_union_right, ?_, ?_⟩
  · intro hor
    obtain ⟨hi, hn⟩ := Bool.or_eq_false_iff.mp hor
    have hleft : reached ⊆ reached ∪ next \ reached := Finset.subset_union_left
    have hold := (inv.covers hi).mono subset_rfl (Finset.coe_subset.mpr hleft)
    have hsub : next ⊆ reached ∪ next \ reached := by
      rw [Finset.union_sdiff_self_eq_union]
      exact Finset.subset_union_right
    have hnew := (hcovers hn).mono subset_rfl (Finset.coe_subset.mpr hsub)
    refine (hold.union hnew).mono ?_ subset_rfl
    intro s hs
    by_cases hp : s ∈ pending
    · exact Or.inr hp
    · refine Or.inl ⟨?_, hp⟩
      rcases Finset.mem_union.mp hs.1 with h | h
      · exact h
      · exact absurd h hs.2
  · intro hlive
    have hpending := (inv.reaches hlive).subset (Finset.coe_subset.mpr inv.pending_subset)
    have hstep := hpending.kstar_step (hreaches hlive)
    rw [Finset.coe_union]
    exact (inv.reaches hlive).union (hstep.subset (Finset.coe_subset.mpr Finset.sdiff_subset))

/-- Every turn but the last reaches a new state, and there are two. -/
theorem runRepeat_spec {run : Finset (AbstractState monitor.product) →
      Option (TraceRun monitor.product)} {live : Prop}
    (hrun : ∀ pending, monitor.Good pending → ∃ r, run pending = some r ∧ RunSpec l live pending r)
    {turns : ℕ} {start reached pending : Finset (AbstractState monitor.product)} {incomplete : Bool}
    (inv : RepeatInv l live start reached pending incomplete)
    (hturns : 4 ≤ turns + reached.card ∨ (pending = ∅ ∧ 1 ≤ turns)) :
    ∃ r, monitor.runRepeat run turns reached pending incomplete = some r ∧
      RunSpec l∗ live start r := by
  induction turns generalizing reached pending incomplete with
  | zero =>
    have := inv.good.card_le_two
    omega
  | succ turns ih =>
    by_cases hpending : pending = ∅
    · refine ⟨.states reached incomplete, by rw [runRepeat, if_pos hpending], inv.good, ?_,
        inv.reaches⟩
      intro hi
      have hall := inv.covers hi
      rw [hpending, Finset.coe_empty, Set.sdiff_empty] at hall
      exact hall.kstar.mono (Finset.coe_subset.mpr inv.start_subset) subset_rfl
    · obtain ⟨r, hr, hspec⟩ := hrun pending (inv.good.subset inv.pending_subset)
      cases r with
      | violation =>
        refine ⟨.violation, by rw [runRepeat, if_neg hpending, hr], fun hlive => ?_⟩
        have hreached := (inv.reaches hlive).subset (Finset.coe_subset.mpr inv.pending_subset)
        exact Rejects.kstar_step hreached (hspec hlive)
      | states next nextIncomplete =>
        have hinv := inv.turn hspec
        have hturns' : 4 ≤ turns + (reached ∪ next \ reached).card ∨
            (next \ reached = ∅ ∧ 1 ≤ turns) := by
          have hcard := inv.good.card_le_two
          have hmany := hturns.resolve_right fun h => hpending h.1
          have hunion := Finset.card_union_of_disjoint (Finset.disjoint_sdiff (s := reached)
            (t := next))
          by_cases hnew : next \ reached = ∅
          · right
            refine ⟨hnew, ?_⟩
            omega
          · have hpos := Finset.card_pos.mpr (Finset.nonempty_iff_ne_empty.mpr hnew)
            left
            omega
        obtain ⟨r, hr', hspec'⟩ := ih hinv hturns'
        exact ⟨r, by rw [runRepeat, if_neg hpending, hr]; exact hr', hspec'⟩

theorem runTrace_spec {fuel : ℕ} (hfuel : sizeOf trace + 4 ≤ fuel) (hgood : monitor.Good states) :
    ∃ r, monitor.runTrace monitor.unknownNeedsOrder fuel trace states = some r ∧
      RunSpec trace.lang trace.ChoicesNonempty states r := by
  induction fuel generalizing trace states with
  | zero => omega
  | succ fuel ih =>
    unfold runTrace
    by_cases hempty : states = ∅
    · subst hempty
      exact ⟨.known ∅, if_pos rfl, RunSpec.none _ _⟩
    simp only [hempty, if_false]
    cases trace with
    | empty => exact ⟨_, rfl, hgood, fun _ => Covers.one _, fun _ => Reaches.one _⟩
    | taskAwait site => exact ⟨_, rfl, hgood, fun _ => Covers.one _, fun _ => Reaches.one _⟩
    | event event => exact ⟨_, rfl, RunSpec.stepEvent event hgood⟩
    | parameterCall target parameter span => exact ⟨_, rfl, RunSpec.unknown _ _⟩
    | taskStart site body =>
      dsimp only
      split_ifs with h
      · exact ⟨_, rfl, RunSpec.unknown _ _⟩
      · rw [Bool.not_eq_true, Bool.or_eq_false_iff] at h
        refine ⟨_, rfl, RunSpec.quiet (fun e he => ?_) h.2 hgood⟩
        rw [ActionTraceDomain.letters_taskStart] at he
        exact ActionTraceDomain.mem_actionSet.mpr he
    | parallel branches =>
      dsimp only
      split_ifs with h
      · exact ⟨_, rfl, RunSpec.unknown _ _⟩
      · rw [Bool.not_eq_true, Bool.or_eq_false_iff] at h
        exact ⟨_, rfl, RunSpec.quiet (fun e => ActionTraceDomain.mem_actionSet.mpr) h.2 hgood⟩
    | seq parts =>
      have hparts : ∀ part ∈ parts, sizeOf part + 4 ≤ fuel := by
        intro part hpart
        have := List.sizeOf_lt_of_mem hpart
        simp only [ActionTraceDomain.seq.sizeOf_spec] at hfuel
        omega
      obtain ⟨r, hr, hspec, -⟩ := runSeq_spec
        (fun part hpart before hbefore => ih (hparts part hpart) hbefore) hgood false
      exact ⟨r, hr, hspec.imp fun hlive => hlive.seq⟩
    | choice branches =>
      dsimp only
      split_ifs with h
      · exact ⟨_, rfl, RunSpec.unknown _ _⟩
      have hbranches : ∀ branch ∈ branches, sizeOf branch + 4 ≤ fuel := by
        intro branch hbranch
        have := List.sizeOf_lt_of_mem hbranch
        simp only [ActionTraceDomain.choice.sizeOf_spec] at hfuel
        omega
      have hstart : RunSpec 0 (ActionTraceDomain.choice branches).ChoicesNonempty states
          (.states ∅ false) := by
        refine ⟨nofun, fun _ s _ w hw => ?_, fun _ => ?_⟩
        · exact absurd hw (Language.notMem_zero w)
        · rw [Finset.coe_empty]
          exact Reaches.empty _ _ _
      obtain ⟨r, hr, hspec⟩ := runChoice_spec (fun branch hb => ih (hbranches branch hb) hgood)
        (fun hlive => hlive.choice) hstart
      refine ⟨r, hr, ?_⟩
      rw [zero_add] at hspec
      exact hspec
    | «repeat» inner =>
      dsimp only
      split_ifs with h
      · rw [Bool.and_eq_true, Bool.not_eq_true', Bool.not_eq_true'] at h
        refine ⟨_, rfl, RunSpec.quiet (fun e he => ?_) h.2 hgood⟩
        rw [ActionTraceDomain.letters_repeat] at he
        exact ActionTraceDomain.mem_actionSet.mpr he
      have hsize := ActionTraceDomain.sizeOf_stripRepeat_le inner
      simp only [ActionTraceDomain.repeat.sizeOf_spec] at hfuel
      have hinner : sizeOf (stripRepeat inner) + 4 ≤ fuel := by omega
      have hturns : 4 ≤ fuel + states.card := by omega
      obtain ⟨r, hr, hspec⟩ := runRepeat_spec (fun pending hp => ih hinner hp)
        (RepeatInv.start hgood) (Or.inl hturns)
      refine ⟨r, hr, ?_⟩
      rw [ActionTraceDomain.lang_stripRepeat] at hspec
      exact hspec.imp fun hlive => ActionTraceDomain.stripRepeat_choicesNonempty hlive.repeat
    | unknownOrder actions =>
      dsimp only
      split_ifs with h
      · exact ⟨_, rfl, RunSpec.unknown _ _⟩
      · rw [Bool.not_eq_true] at h
        refine ⟨_, rfl, RunSpec.quiet (fun e he => ?_) h hgood⟩
        exact ActionTraceDomain.mem_ownActions rfl he
    | widened actions parameterCalls =>
      dsimp only
      split_ifs with h
      · exact ⟨_, rfl, RunSpec.unknown _ _⟩
      · rw [Bool.not_eq_true, Bool.or_eq_false_iff] at h
        refine ⟨_, rfl, RunSpec.quiet (fun e he => ?_) h.2 hgood⟩
        exact ActionTraceDomain.mem_ownActions rfl he

/-! The words with a guard before each target. -/

/-- Before each target of the word there is a guard. -/
def Preceded (monitor : SingleComponentMonitor) (word : List Letter) : Prop :=
  ∀ before e after, word = before ++ .action e :: after → monitor.targetMatches e = true →
    ∃ g, .action g ∈ before ∧ monitor.guardMatches g = true

/-- A letter for a target, with no guard in the word before it. -/
def Unguarded (monitor : SingleComponentMonitor) (before : List Letter) (x : Letter) : Prop :=
  (∃ e, x = .action e ∧ monitor.targetMatches e = true) ∧
    ∀ g, .action g ∈ before → monitor.guardMatches g = false

theorem foldlM_observe_eq_none {word : List Letter} {state : AbstractState monitor.product} :
    word.foldlM monitor.observe state = none ↔ state.priorGuardRequest = false ∧
      ∃ before x after, word = before ++ x :: after ∧ monitor.Unguarded before x := by
  induction word generalizing state with
  | nil => simp
  | cons x word ih =>
    rw [List.foldlM_cons, exists_split_cons]
    cases x with
    | call key => simp [observe, ih, Unguarded]
    | action a =>
      cases hprior : state.priorGuardRequest with
      | true => simp [observe, hprior, ih]
      | false =>
        cases htarget : monitor.targetMatches a with
        | true => simp [observe, hprior, htarget, Unguarded]
        | false =>
          cases hguard : monitor.guardMatches a with
          | true => simp [observe, hprior, htarget, hguard, ih, Unguarded]
          | false => simp [observe, hprior, htarget, hguard, ih, Unguarded]

theorem preceded_iff {word : List Letter} (state : AbstractState monitor.product)
    (h : state.priorGuardRequest = false) :
    monitor.Preceded word ↔ word.foldlM monitor.observe state ≠ none := by
  rw [Ne, foldlM_observe_eq_none]
  constructor
  · rintro hword ⟨-, before, x, after, rfl, ⟨e, rfl, htarget⟩, hguard⟩
    obtain ⟨g, hg, hmatches⟩ := hword before e after rfl htarget
    rw [hguard g hg] at hmatches
    cases hmatches
  · intro hnone before e after heq htarget
    by_contra hguard
    push Not at hguard
    refine hnone ⟨h, before, .action e, after, heq, ⟨e, rfl, htarget⟩, fun g hg => ?_⟩
    exact Bool.eq_false_iff.mpr (hguard g hg)

variable (monitor) in
theorem runPrior_spec {fuel : ℕ} (hfuel : sizeOf trace + 4 ≤ fuel) :
    ∃ ran, monitor.runPrior fuel trace = some ran ∧ ran ≠ .needsOutcomeEvidence ∧
      (ran = .satisfied → ∀ w ∈ trace.lang, monitor.Preceded w) ∧
      (ran = .violation → trace.ChoicesNonempty → ∃ w ∈ trace.lang, ¬ monitor.Preceded w) := by
  have hgood : monitor.Good {⟨monitor.product.initialState, false⟩} := by
    intro state hstate
    rw [Finset.mem_singleton.mp hstate]
  obtain ⟨r, hr, hspec⟩ := runTrace_spec hfuel hgood
  unfold runPrior run
  rw [hr]
  cases r with
  | violation =>
    refine ⟨.violation, rfl, nofun, nofun, fun _ hlive => ?_⟩
    obtain ⟨state, hstate, w, hw, hnone⟩ := hspec hlive
    rw [Finset.mem_coe, Finset.mem_singleton] at hstate
    subst hstate
    refine ⟨w, hw, fun h => ?_⟩
    exact (preceded_iff _ rfl).mp h hnone
  | states next incomplete =>
    obtain ⟨hnext, hcovers, -⟩ := hspec
    have hactive : ¬ ∃ state ∈ next, (monitor.product.componentState state.monitor).any
        (· == .rejected) = true := by
      rintro ⟨state, hstate, hrejected⟩
      rw [hnext.active hstate] at hrejected
      cases hrejected
    dsimp only
    rw [if_neg hactive]
    cases incomplete with
    | true => exact ⟨.unknown, rfl, nofun, nofun, nofun⟩
    | false =>
      refine ⟨.satisfied, rfl, nofun, fun _ w hw => ?_, nofun⟩
      have hrun := hcovers rfl _ (Finset.mem_coe.mpr (Finset.mem_singleton_self _)) w hw
      obtain ⟨state, -, hsome⟩ := hrun
      apply (preceded_iff ⟨monitor.product.initialState, false⟩ rfl).mpr
      rw [hsome]
      exact Option.some_ne_none state

/-- What the answers say: with enough fuel there is one; satisfied, or in need of the outcomes of
the guards, means that every word has a guard before each target; a violation means that some word
has not, if every choice of the trace has an alternative. -/
theorem requireBefore_sound (monitor : SingleComponentMonitor) (trace : ActionTraceDomain) :
    ∃ enough, ∀ fuel, enough ≤ fuel → ∃ ran result,
      monitor.runPrior fuel trace = some ran ∧ monitor.requireBefore fuel trace = some result ∧
      (ran = .satisfied ∨ result = .satisfied ∨ result = .needsOutcomeEvidence →
        ∀ w ∈ trace.lang, monitor.Preceded w) ∧
      (ran = .violation ∨ result = .violation → trace.ChoicesNonempty →
        ∃ w ∈ trace.lang, ¬ monitor.Preceded w) := by
  refine ⟨sizeOf trace + 4, fun fuel hfuel => ?_⟩
  obtain ⟨ran, hran, hne, hsatisfied, hviolation⟩ := monitor.runPrior_spec hfuel
  by_cases hasTarget : ran = .satisfied ∧
      ∃ action ∈ trace.actionSet, monitor.targetMatches action = true
  · refine ⟨ran, .needsOutcomeEvidence, hran, ?_, fun _ => hsatisfied hasTarget.1, ?_⟩
    · rw [requireBefore, hran, Option.map_some, if_pos hasTarget]
    · rw [hasTarget.1]
      simp
  · refine ⟨ran, ran, hran, ?_, ?_, ?_⟩
    · rw [requireBefore, hran, Option.map_some, if_neg hasTarget]
    · rintro (h | h | h)
      · exact hsatisfied h
      · exact hsatisfied h
      · exact absurd h hne
    · intro h
      exact hviolation (or_self_iff.mp h)

/-- An automaton with the two states of the component for its own. -/
def plainProduct : PriorEvidenceProduct where
  State := PriorEvidenceState
  initialState := .active
  stepBounded
    | .active, false => some ⟨[.active], []⟩
    | .active, true => some ⟨[.rejected], [.rejected]⟩
    | .rejected, _ => some ⟨[.rejected], []⟩
  componentState := some
  initial_active := rfl
  active_stays := by
    rintro _ ⟨⟩
    rfl
  active_rejects := by
    rintro _ ⟨⟩
    exact ⟨_, rfl, Or.inr (Or.inl (List.cons_ne_nil _ _))⟩

/-- A target followed by a choice without alternatives: a violation is reported, but there is no
word. -/
theorem requireBefore_violation_without_word :
    let send : Effect := .appliedAction ⟨⟨1024, 1024⟩, [.type 0]⟩
    let monitor : SingleComponentMonitor :=
      ⟨plainProduct, sendCoverage, fun _ _ _ => true, ⟨.closed ∅, "Gate", []⟩,
        ⟨.closed {send}, "Mail.send", []⟩⟩
    let trace : ActionTraceDomain := .seq [.event ⟨send, ⟨0, 0, 4⟩, .perform⟩, .choice []]
    (∀ fuel, 2 ≤ fuel → monitor.requireBefore fuel trace = some .violation) ∧
      ¬ ∃ w ∈ trace.lang, ¬ monitor.Preceded w := by
  intro send monitor trace
  constructor
  · intro fuel hfuel
    obtain ⟨n, rfl⟩ := Nat.exists_eq_add_of_le' hfuel
    rfl
  · rintro ⟨w, ⟨u, -, v, ⟨x, hx, -⟩, -⟩, -⟩
    exact hx

end SingleComponentMonitor
end EtasFrontend.Effects
